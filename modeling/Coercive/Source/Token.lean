import Coercive.Expr

namespace Coercive

inductive Bracket where
  | round
  | square
  deriving DecidableEq, Repr

/-- A token that is not a bracket. -/
inductive Atom where
  | number (n : Number)
  | string (s : String)
  | word (w : String)
  | operator (op : Operator)
  | dot
  | comma
  deriving DecidableEq

inductive Token where
  | atom (a : Atom)
  | opening (b : Bracket)
  | closing (b : Bracket)
  deriving DecidableEq

end Coercive
