import Coercive.Invocation

namespace Coercive

/-- What a name stands for. Variables hide the builtin functions. -/
inductive Binding where
  | bound (v : Value)
  | builtin (b : Builtin)

namespace Binding

def find (x : String) : Run Binding := do
  match ← Run.lookup? x with
  | some v => pure (.bound v)
  | none =>
    match Builtin.ofName? x with
    | some b => pure (.builtin b)
    | none => .fail (.unresolved x)

/-- The value of a name. A builtin function is a new object each time. -/
def toValue : Binding → Run Value
  | .bound v => pure v
  | .builtin b => Run.allocate (.function (.builtin b))

def call (invoke : Invoker) (args : List Value) : Binding → Run Value
  | .bound v => v.call invoke .undefined args
  | .builtin b => b.run invoke args

theorem find_of_some {s : State} {x : String} {v : Value} (h : s.scope.get? x = some v)
    (limit : Nat) : find x limit s = (.ok (.bound v), s) := by
  rw [find, Run.bind_apply, Run.lookup?_apply, h]
  rfl

theorem find_of_none {s : State} {x : String} (h : s.scope.get? x = none) {b : Builtin}
    (hb : Builtin.ofName? x = some b) (limit : Nat) : find x limit s = (.ok (.builtin b), s) := by
  rw [find, Run.bind_apply, Run.lookup?_apply, h]
  simp only [hb]
  rfl

theorem find_of_unresolved {s : State} {x : String} (h : s.scope.get? x = none)
    (hb : Builtin.ofName? x = none) (limit : Nat) :
    find x limit s = (.error (.failed (.unresolved x)), s) := by
  rw [find, Run.bind_apply, Run.lookup?_apply, h]
  simp only [hb]
  rfl

end Binding

namespace Expr

variable (invoke : Invoker)

mutual

def eval : Expr → Run Value
  | .literal p => pure (.primitive p)
  | .name x => do (← Binding.find x).toValue
  | .member object field => do (← eval object).member field
  | .index object key => do
    let target ← eval object
    let key ← (← eval key).toText invoke .propertyKey
    target.member key
  | .call (.member object field) args => do
    let receiver ← eval object
    let f ← receiver.member field
    let args ← evalAll args
    f.call invoke receiver args
  | .call (.index object key) args => do
    let receiver ← eval object
    let key ← (← eval key).toText invoke .propertyKey
    let f ← receiver.member key
    let args ← evalAll args
    f.call invoke receiver args
  | .call (.name x) args => do
    let f ← Binding.find x
    let args ← evalAll args
    f.call invoke args
  | .call callee args => do
    let f ← eval callee
    let args ← evalAll args
    f.call invoke .undefined args
  | .unary sign operand => do
    let v ← eval operand
    .primitive <$> sign.cast.apply invoke v
  | .binary op left right => do
    let v ← eval left
    let w ← eval right
    .primitive <$> op.apply invoke v w

def evalAll : List Expr → Run (List Value)
  | [] => pure []
  | e :: es => do
    let v ← eval e
    let vs ← evalAll es
    return v :: vs

end

end Expr

end Coercive
