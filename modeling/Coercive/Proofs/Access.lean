import Coercive.Evaluation

namespace Coercive

/-- What a callee comes to: what is called, and the receiver that it is given. -/
structure Callee where
  receiver : Value
  target : Binding

def Callee.call (invoke : Invoker) (args : List Value) (c : Callee) : Run Value :=
  match c.target with
  | .bound f => f.call invoke c.receiver args
  | .builtin b => b.run invoke args

namespace Expr

variable (invoke : Invoker)

/-- Evaluates an expression that stands where something is called. -/
def callee : Expr → Run Callee
  | .member object field => do
    let receiver ← object.eval invoke
    return ⟨receiver, .bound (← receiver.member field)⟩
  | .index object key => do
    let receiver ← object.eval invoke
    let name ← (← key.eval invoke).toText invoke .propertyKey
    return ⟨receiver, .bound (← receiver.member name)⟩
  | .name x => do return ⟨.undefined, ← Binding.find x⟩
  | e => do return ⟨.undefined, .bound (← e.eval invoke)⟩

/-- A call evaluates its callee, then its arguments, and calls what the callee came to. -/
theorem eval_callee (e : Expr) (args : List Expr) :
    (call e args).eval invoke = (do
      let c ← e.callee invoke
      let vs ← evalAll invoke args
      c.call invoke vs) := by
  cases e with
  | name x =>
    simp only [eval, callee, bind_assoc, pure_bind]
    rfl
  | literal | member | index | call | unary | binary =>
    simp only [eval, callee, bind_assoc, pure_bind, Callee.call]

/-- Two expressions that differ at most in how accesses are written. -/
inductive Respelled : Expr → Expr → Prop
  | literal (p : Primitive) : Respelled (.literal p) (.literal p)
  | name (x : String) : Respelled (.name x) (.name x)
  | member {o o' : Expr} (field : String) (h : Respelled o o') :
      Respelled (.member o field) (.member o' field)
  | bracketed {o o' : Expr} (field : String) (h : Respelled o o') :
      Respelled (.member o field) (.index o' (.literal (.string field)))
  | dotted {o o' : Expr} (field : String) (h : Respelled o o') :
      Respelled (.index o (.literal (.string field))) (.member o' field)
  | index {o o' k k' : Expr} (h : Respelled o o') (hk : Respelled k k') :
      Respelled (.index o k) (.index o' k')
  | call {f f' : Expr} {args args' : List Expr} (h : Respelled f f')
      (hlength : args.length = args'.length)
      (hargs : ∀ p ∈ args.zip args', Respelled p.1 p.2) :
      Respelled (.call f args) (.call f' args')
  | unary {e e' : Expr} (sign : Sign) (h : Respelled e e') :
      Respelled (.unary sign e) (.unary sign e')
  | binary {l l' r r' : Expr} (op : Operator) (hl : Respelled l l') (hr : Respelled r r') :
      Respelled (.binary op l r) (.binary op l' r')

variable {invoke}

theorem evalAll_congr {args args' : List Expr} (hlength : args.length = args'.length)
    (h : ∀ p ∈ args.zip args', p.1.eval invoke = p.2.eval invoke) :
    evalAll invoke args = evalAll invoke args' := by
  induction args generalizing args' with
  | nil => rw [List.eq_nil_of_length_eq_zero hlength.symm]
  | cons a args ih =>
    cases args' with
    | nil => cases hlength
    | cons a' args' =>
      rw [List.zip_cons_cons, List.forall_mem_cons] at h
      simp only [evalAll, h.1, ih (Nat.succ.inj hlength) h.2]

theorem eval_bracketed (o : Expr) (field : String) :
    (index o (.literal (.string field))).eval invoke = (member o field).eval invoke := by
  simp only [eval, pure_bind]
  rfl

theorem callee_bracketed (o : Expr) (field : String) :
    (index o (.literal (.string field))).callee invoke = (member o field).callee invoke := by
  simp only [callee, eval, pure_bind]
  rfl

theorem Respelled.eval_eq {e e' : Expr} (h : e.Respelled e') :
    e.eval invoke = e'.eval invoke ∧ e.callee invoke = e'.callee invoke := by
  induction h with
  | literal | name => exact ⟨rfl, rfl⟩
  | member field _ ih => simp only [Expr.eval, callee, ih.1, and_self]
  | bracketed field _ ih =>
    rw [eval_bracketed, callee_bracketed]
    simp only [Expr.eval, callee, ih.1, and_self]
  | dotted field _ ih =>
    rw [eval_bracketed, callee_bracketed]
    simp only [Expr.eval, callee, ih.1, and_self]
  | index _ _ ih ihk => simp only [Expr.eval, callee, ih.1, ihk.1, and_self]
  | @call f f' args args' _ hlength _ ih ihargs =>
    have heval : (Expr.call f args).eval invoke = (Expr.call f' args').eval invoke := by
      rw [eval_callee, eval_callee, ih.2, evalAll_congr hlength fun p hp => (ihargs p hp).1]
    simp only [callee, heval, and_self]
  | unary sign _ ih => simp only [Expr.eval, callee, ih.1, and_self]
  | binary op _ _ ihl ihr => simp only [Expr.eval, callee, ihl.1, ihr.1, and_self]

/-- An access in brackets evaluates like one behind a dot. Where it is called, its object is the
receiver either way. So expressions that differ only in how accesses are written evaluate alike, and
come to the same callees. -/
theorem eval_respelled (invoke : Invoker) :
    (∀ (o : Expr) (field : String),
      (index o (.literal (.string field))).eval invoke = (member o field).eval invoke) ∧
    (∀ (o : Expr) (field : String) (args : List Expr),
      (call (index o (.literal (.string field))) args).eval invoke =
        (call (member o field) args).eval invoke ∧
      (call (member o field) args).eval invoke = (do
        let receiver ← o.eval invoke
        let f ← receiver.member field
        let vs ← evalAll invoke args
        f.call invoke receiver vs)) ∧
    (∀ e e' : Expr, e.Respelled e' →
      e.eval invoke = e'.eval invoke ∧ e.callee invoke = e'.callee invoke) := by
  refine ⟨eval_bracketed, fun o field args => ⟨?_, by rw [eval]⟩, fun e e' h => h.eval_eq⟩
  rw [eval_callee, eval_callee, callee_bracketed]

theorem eval_respelled_nested :
    let get : Object := .function (.routine .function ⟨"get", .receiver⟩)
    let o : Object := .record { fields := [("get", .object 1), ("k", .string "k")] }
    let s : State := { objects := #[o, get], scope := [("o", .object 0)] }
    let dot (field : String) : Expr := .member (.name "o") field
    let bracket (field : String) : Expr := .index (.name "o") (.literal (.string field))
    let e : Expr := .index (.call (dot "get") [dot "k"]) (bracket "k")
    let e' : Expr := .index (.call (bracket "get") [bracket "k"]) (dot "k")
    e.Respelled e' ∧ e.eval (invokeWithin 1) = e'.eval (invokeWithin 1) ∧
      (e'.eval (invokeWithin 1) 0 s).1 = .ok (.string "k") ∧
      (e'.eval (invokeWithin 1) 0 s).2.calls = [⟨"get", .function, none, 0, 1⟩] := by
  intro get o s dot bracket e e'
  have hargs : ∀ p ∈ [dot "k"].zip [bracket "k"], Respelled p.1 p.2 := by
    simpa using Respelled.bracketed "k" (.name "o")
  have h : e.Respelled e' :=
    .index (.call (.bracketed "get" (.name "o")) rfl hargs) (.dotted "k" (.name "o"))
  exact ⟨h, ((eval_respelled (invokeWithin 1)).2.2 e e' h).1, rfl, rfl⟩

end Expr

end Coercive
