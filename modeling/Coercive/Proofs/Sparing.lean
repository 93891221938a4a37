import Coercive.Invocation

namespace Coercive

variable {α : Type}

/-- A way to reach the members of a value. -/
abbrev Accessor := Value → String → Run Value

/-- Reaches every member but those of one object, where the run ends. -/
def Accessor.sparing (ref : Nat) : Accessor := fun v name =>
  if v = .object ref then .stop .exhausted else v.member name

namespace Script

variable (access : Accessor) (invoke : Invoker) (frame : Frame)

mutual

def runThrough : Script Value → Run Value
  | .ret v => pure v
  | .receiver => pure frame.receiver
  | .fresh => Run.allocate (.record {})
  | .member target name => do access (← runThrough target) name
  | .method target name args => do
    let receiver ← runThrough target
    let f ← access receiver name
    let args ← runAllThrough args
    f.call invoke receiver args
  | .fail message => .fail (.host message)
  | .byHint string number default =>
    match frame.hint with
    | some .string => runThrough string
    | some .number => runThrough number
    | some .default | none => runThrough default
  | .coerce target wanted => do
    let v ← runThrough target
    .primitive <$> v.reduce invoke (wanted.getD (frame.hint.getD .default))
  | .count counter => do return .number (.ofNat (← Run.count counter))
  | .sequence counter parts => do runAtThrough ((← Run.count counter) - 1) parts
  | .cast c operand => do
    let v ← runThrough operand
    .primitive <$> c.apply invoke v
  | .operate op left right => do
    let v ← runThrough left
    let w ← runThrough right
    .primitive <$> op.apply invoke v w
  | .depth => do return .number (.ofNat (← Run.get).depth)
  | .hint => pure (frame.hint.elim .undefined fun h => .string h.name)
  | .argument i => pure (frame.args[i]?.getD .undefined)
  | .argumentCount => pure (.number (.ofNat frame.args.length))
  | .read x => do return (← Run.lookup? x).getD .undefined

def runAllThrough : List (Script Value) → Run (List Value)
  | [] => pure []
  | b :: bs => do
    let v ← runThrough b
    let vs ← runAllThrough bs
    return v :: vs

def runAtThrough : Nat → List (Script Value) → Run Value
  | _, [] => pure .undefined
  | _, [b] => runThrough b
  | 0, b :: _ :: _ => runThrough b
  | n + 1, _ :: b :: bs => runAtThrough n (b :: bs)

end

mutual

theorem runThrough_member : (b : Script Value) →
    b.runThrough Value.member invoke frame = b.run invoke frame
  | .ret _ | .receiver | .fresh | .fail _ | .count _ | .depth | .hint | .argument _
  | .argumentCount | .read _ => by simp only [runThrough, run]
  | .member target name => by simp only [runThrough, run, runThrough_member target]
  | .method target name args => by
    simp only [runThrough, run, runThrough_member target, runAllThrough_member args]
  | .byHint string number default => by
    rcases hhint : frame.hint with _ | ⟨_ | _ | _⟩ <;>
      simp only [runThrough, run, hhint, runThrough_member string, runThrough_member number,
        runThrough_member default]
  | .coerce target _ => by simp only [runThrough, run, runThrough_member target]
  | .sequence _ parts => by simp only [runThrough, run, runAtThrough_member _ parts]
  | .cast _ operand => by simp only [runThrough, run, runThrough_member operand]
  | .operate _ left right => by
    simp only [runThrough, run, runThrough_member left, runThrough_member right]

theorem runAllThrough_member : (bs : List (Script Value)) →
    runAllThrough Value.member invoke frame bs = runAll invoke frame bs
  | [] => by simp only [runAllThrough, runAll]
  | b :: bs => by
    simp only [runAllThrough, runAll, runThrough_member b, runAllThrough_member bs]

theorem runAtThrough_member : (n : Nat) → (bs : List (Script Value)) →
    runAtThrough Value.member invoke frame n bs = runAt invoke frame n bs
  | _, [] => by simp only [runAtThrough, runAt]
  | 0, [b] => by simp only [runAtThrough, runAt, runThrough_member b]
  | _ + 1, [b] => by simp only [runAtThrough, runAt, runThrough_member b]
  | 0, b :: _ :: _ => by simp only [runAtThrough, runAt, runThrough_member b]
  | n + 1, _ :: b :: bs => by simp only [runAtThrough, runAt, runAtThrough_member n (b :: bs)]

end

end Script

def Routine.runThrough (access : Accessor) (invoke : Invoker) (r : Routine) (role : Role)
    (frame : Frame) : Run Value := do
  let call : Call :=
    { id := r.id, role, hint := frame.hint, depth := (← Run.get).depth,
      argCount := role.argCount frame.args }
  Run.traced call (r.body.runThrough access invoke frame)

def Method.runThrough (access : Accessor) (invoke : Invoker) : Invoker
  | .inherited c, receiver, _ => c.inherited receiver
  | .builtin b, _, args => b.run invoke args
  | .routine role r, receiver, args => do
    let hint ← Run.ofExcept (role.accept args)
    r.runThrough access invoke role { receiver, args, hint }

/-- Runs a method with calls nested at most `budget` deep, all of whose bodies reach members in the
given way. -/
def invokeThrough (access : Accessor) : Nat → Invoker
  | 0 => fun _ _ _ => .stop .exhausted
  | budget + 1 => Method.runThrough access (invokeThrough access budget)

theorem Method.runThrough_member (invoke : Invoker) :
    Method.runThrough Value.member invoke = Method.run invoke := by
  funext m receiver args
  cases m with
  | inherited | builtin => rfl
  | routine role r =>
    simp only [runThrough, run, Routine.runThrough, Routine.run, Script.runThrough_member]

theorem invokeThrough_member (budget : Nat) :
    invokeThrough Value.member budget = invokeWithin budget := by
  induction budget with
  | zero => rfl
  | succ budget ih => rw [invokeThrough, invokeWithin, ih, Method.runThrough_member]

/-- The computation ends with calls nested at most `budget` deep, and no body that runs in it reads
a member of the object. -/
def Run.Spares (ref budget : Nat) (act : Invoker → Run α) (limit : Nat) (s : State) : Prop :=
  (act (invokeThrough (.sparing ref) budget) limit s).1 ≠ .error .exhausted

end Coercive
