import Coercive.Object

namespace Coercive

inductive Stop where
  | failed (f : Failure)
  | exhausted
  deriving DecidableEq

/-- A call of a routine: who is called as what, with which hint, how deep, and with how many
arguments of its own. -/
structure Call where
  id : String
  role : Role
  hint : Option Hint
  depth : Nat
  argCount : Nat
  deriving DecidableEq

/-- What the trace of a run records: the calls of routines and how they ended, and the nested
levels that were entered and left, with the depth inside. -/
inductive Event where
  | called (call : Call)
  | returned (stop : Option Stop)
  | entered (depth : Nat)
  | left (depth : Nat)
  deriving DecidableEq

def Event.call? : Event → Option Call
  | .called call => some call
  | _ => none

/-- The state of an evaluation. Its trace has the newest event first. -/
structure State where
  objects : Array Object := #[]
  scope : Table String Value := []
  counters : Table Nat Nat := []
  depth : Nat := 0
  trace : List Event := []

namespace State

def object (s : State) (ref : Nat) : Object := s.objects[ref]?.getD default

def typeName (s : State) : Value → String
  | .primitive p => p.typeName
  | .object ref => (s.object ref).typeName

/-- The calls of routines that a state's trace records, the oldest first. -/
def calls (s : State) : List Call := s.trace.reverse.filterMap Event.call?

def enter (s : State) : State :=
  { s with depth := s.depth + 1, trace := .entered (s.depth + 1) :: s.trace }

def leave (s : State) : State :=
  { s with depth := s.depth - 1, trace := .left s.depth :: s.trace }

end State

/-- A computation under a limit on nested conversions. -/
def Run (α : Type) : Type := Nat → State → Except Stop α × State

namespace Run

variable {α β : Type}

protected def pure (a : α) : Run α := fun _ s => (.ok a, s)

protected def bind (act : Run α) (next : α → Run β) : Run β := fun limit s =>
  match act limit s with
  | (.ok a, s) => next a limit s
  | (.error e, s) => (.error e, s)

instance : Monad Run where
  pure := Run.pure
  bind := Run.bind

def stop (e : Stop) : Run α := fun _ s => (.error e, s)

def fail (f : Failure) : Run α := stop (.failed f)

def get : Run State := fun _ s => (.ok s, s)

def modify (f : State → State) : Run Unit := fun _ s => (.ok (), f s)

def stop? : Except Stop α → Option Stop
  | .ok _ => none
  | .error e => some e

def ofExcept : Except Failure α → Run α
  | .ok a => pure a
  | .error f => fail f

def ofMismatch : Except Mismatch α → Run α
  | .ok a => pure a
  | .error m => fail (.mismatch m)

theorem pure_apply (a : α) (limit : Nat) (s : State) :
    (pure a : Run α) limit s = (.ok a, s) := rfl

theorem bind_apply (act : Run α) (next : α → Run β) (limit : Nat) (s : State) :
    (act >>= next) limit s =
      match act limit s with
      | (.ok a, s) => next a limit s
      | (.error e, s) => (.error e, s) := rfl

theorem map_id (act : Run α) : Run.bind act Run.pure = act := by
  funext limit s
  rcases h : act limit s with ⟨_ | _, _⟩ <;> simp [Run.bind, Run.pure, h]

theorem bind_assoc {γ : Type} (act : Run α) (f : α → Run β) (g : β → Run γ) :
    act >>= f >>= g = act >>= fun a => f a >>= g := by
  funext limit s
  rcases h : act limit s with ⟨_ | _, _⟩ <;> simp [bind_apply, h]

instance : LawfulMonad Run :=
  LawfulMonad.mk' Run (fun act => map_id act) (fun _ _ => rfl) bind_assoc

/-- Runs a computation one level deeper, unless that exceeds the limit. The level is left again
however the computation ends. -/
def nested (act : Run α) : Run α := fun limit s =>
  if s.depth < limit then
    let (outcome, t) := act limit s.enter
    (outcome, t.leave)
  else fail (.depthExceeded limit) limit s

/-- Runs the body of a routine between the two events of its call. -/
def traced (call : Call) (act : Run Value) : Run Value := fun limit s =>
  let (outcome, t) := act limit { s with trace := .called call :: s.trace }
  (outcome, { t with trace := .returned (stop? outcome) :: t.trace })

def allocate (o : Object) : Run Value := fun _ s =>
  (.ok (.object s.objects.size), { s with objects := s.objects.push o })

def object (ref : Nat) : Run Object := do return (← get).object ref

def lookup? (x : String) : Run (Option Value) := do return (← get).scope.get? x

theorem lookup?_apply (x : String) (limit : Nat) (s : State) :
    lookup? x limit s = (.ok (s.scope.get? x), s) := rfl

def assign (x : String) (v : Value) : Run Unit :=
  modify fun s => { s with scope := s.scope.insert x v }

def count (counter : Nat) : Run Nat := fun _ s =>
  let n := (s.counters.get? counter).getD 0 + 1
  (.ok n, { s with counters := s.counters.insert counter n })

end Run

end Coercive
