import Coercive.Expr

namespace Coercive

/-- The body of a method. `ν` is what it returns constants of, and counters have numbers. -/
inductive Script (ν : Type) where
  | ret (value : ν)
  | receiver
  | fresh
  | member (target : Script ν) (name : String)
  | method (target : Script ν) (name : String) (args : List (Script ν))
  | fail (message : String)
  | byHint (string number default : Script ν)
  | coerce (target : Script ν) (hint : Option Hint)
  | count (counter : Nat)
  | sequence (counter : Nat) (parts : List (Script ν))
  | cast (c : Cast) (operand : Script ν)
  | operate (op : Operator) (left right : Script ν)
  | depth
  | hint
  | argument (i : Nat)
  | argumentCount
  | read (x : String)
  deriving Inhabited

end Coercive
