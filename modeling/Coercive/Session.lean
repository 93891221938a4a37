import Coercive.Step

namespace Coercive

def defaultLimit : Nat := 64

/-- How deep calls of methods may nest in a session. Conversions alone never get that deep. -/
def callBudget (limit : Nat) : Nat := limit + 100000

/-- Whether two values are one object or one symbol. -/
def Value.identical : Value → Value → Bool
  | .object a, .object b => a == b
  | .primitive (.symbol s), .primitive (.symbol t) => s.identity == t.identity
  | _, _ => false

/-- The variables that hold an object or a symbol, in the order of their names. -/
def State.holders (s : State) (v : Value) : List String :=
  let names := (s.scope.filter fun p => v.identical p.2).map Prod.fst
  names.mergeSort fun x y => Text.compareBytes x y != .gt

structure Report where
  outcome : Except Stop Answer
  calls : List Call
  after : State

structure Session where
  limit : Nat := defaultLimit
  definitions : List (String × Blueprint) := []
  steps : List Step := []

namespace Session

def define : List (String × Blueprint) → Run Unit
  | [] => pure ()
  | (x, b) :: rest => do
    Run.assign x (← b.build)
    define rest

def report (limit : Nat) (step : Step) (s : State) : Report :=
  let (outcome, t) := step.run (invokeWithin (callBudget limit)) limit { s with trace := [] }
  ⟨outcome, t.calls, t⟩

def reports (limit : Nat) : List Step → State → List Report
  | [], _ => []
  | step :: steps, s =>
    let r := report limit step s
    r :: reports limit steps r.after

def run (session : Session) : List Report :=
  reports session.limit session.steps (define session.definitions session.limit {}).2

end Session

end Coercive
