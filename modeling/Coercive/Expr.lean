import Coercive.Primitive

namespace Coercive

inductive Sign where
  | plus
  | minus
  deriving DecidableEq, Repr

inductive Relation where
  | lt
  | le
  | gt
  | ge
  deriving DecidableEq, Repr

inductive Arithmetic where
  | sub
  | mul
  | div
  | rem
  | pow
  deriving DecidableEq, Repr

inductive Operator where
  | eq
  | ne
  | relation (r : Relation)
  | add
  | arithmetic (a : Arithmetic)
  deriving DecidableEq, Repr

/-- The conversions of one operand that the language and its hosts ask for. -/
inductive Cast where
  | number
  | string
  | output
  | key
  | plus
  | negate
  deriving DecidableEq, Repr

def Cast.context : Cast → Context
  | .number => .explicitNumber
  | .string => .explicitString
  | .output => .stringOutput
  | .key => .propertyKey
  | .plus => .unaryPlus
  | .negate => .arithmetic

def Sign.cast : Sign → Cast
  | .plus => .plus
  | .minus => .negate

inductive Expr where
  | literal (p : Primitive)
  | name (x : String)
  | member (object : Expr) (field : String)
  | index (object key : Expr)
  | call (callee : Expr) (args : List Expr)
  | unary (sign : Sign) (operand : Expr)
  | binary (op : Operator) (left right : Expr)
  deriving Inhabited

namespace Expr

mutual

/-- Equality of expressions, in which literals are compared as values. -/
def equal : Expr → Expr → Bool
  | .literal p, .literal q => p.equal q
  | .name x, .name y => x == y
  | .member a f, .member b g => a.equal b && f == g
  | .index a i, .index b j => a.equal b && i.equal j
  | .call f as, .call g bs => f.equal g && equalAll as bs
  | .unary s a, .unary t b => s == t && a.equal b
  | .binary o a b, .binary p c d => o == p && a.equal c && b.equal d
  | _, _ => false

def equalAll : List Expr → List Expr → Bool
  | [], [] => true
  | a :: as, b :: bs => a.equal b && equalAll as bs
  | _, _ => false

end

end Expr

end Coercive
