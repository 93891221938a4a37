import Coercive.Expr

namespace Coercive

/-- How tightly an operator binds. -/
def Operator.level : Operator → Nat
  | .eq | .ne => 1
  | .relation _ => 2
  | .add | .arithmetic .sub => 3
  | .arithmetic .mul | .arithmetic .div | .arithmetic .rem => 4
  | .arithmetic .pow => 6

def Sign.level : Nat := 5

/-- Whether `x op (y)` stays together before the operator of `y`. The tighter operator takes its
operands first, and operators of one level other than powers go from left to right. -/
def Operator.takesFirst (op next : Operator) : Bool :=
  next.level < op.level || (next.level == op.level && op != .arithmetic .pow)

/-- A flat sequence of operands with operators between them and signs before them. -/
inductive Chain (α : Type) where
  | last (x : α)
  | signed (sign : Sign) (rest : Chain α)
  | more (x : α) (op : Operator) (rest : Chain α)

/-- A grouping of operands by operators and signs. -/
inductive OpTree (α : Type) where
  | operand (x : α)
  | unary (sign : Sign) (body : OpTree α)
  | binary (op : Operator) (left right : OpTree α)

namespace OpTree

variable {α : Type}

/-- Puts a sign before a tree. It applies to the leftmost part that binds tighter than a sign. -/
def sign (s : Sign) : OpTree α → OpTree α
  | .binary op l r =>
    if op.level < Sign.level then .binary op (l.sign s) r else .unary s (.binary op l r)
  | t => .unary s t

def prepend (x : α) (op : Operator) : OpTree α → OpTree α
  | .binary next l r =>
    if op.takesFirst next then .binary next (l.prepend x op) r
    else .binary op (.operand x) (.binary next l r)
  | t => .binary op (.operand x) t

def append : OpTree α → (α → Chain α) → Chain α
  | .operand x, k => k x
  | .unary s t, k => .signed s (t.append k)
  | .binary op l r, k => l.append fun x => .more x op (r.append k)

def chain (t : OpTree α) : Chain α := t.append .last

end OpTree

/-- Groups a chain by the levels of its operators. -/
def Chain.tree {α : Type} : Chain α → OpTree α
  | .last x => .operand x
  | .signed s rest => rest.tree.sign s
  | .more x op rest => rest.tree.prepend x op

def OpTree.toExpr : OpTree Expr → Expr
  | .operand e => e
  | .unary s t => .unary s t.toExpr
  | .binary op l r => .binary op l.toExpr r.toExpr

def Chain.toExpr (c : Chain Expr) : Expr := c.tree.toExpr

theorem OpTree.append_sign {α : Type} (s : Sign) (t : OpTree α) (k : α → Chain α) :
    (t.sign s).append k = .signed s (t.append k) := by
  induction t generalizing k with
  | operand x => rfl
  | unary => rfl
  | binary op l r ihl =>
    simp only [OpTree.sign]
    split
    · exact ihl _
    · rfl

theorem OpTree.append_prepend {α : Type} (x : α) (op : Operator) (t : OpTree α)
    (k : α → Chain α) : (t.prepend x op).append k = .more x op (t.append k) := by
  induction t generalizing k with
  | operand => rfl
  | unary => rfl
  | binary next l r ihl =>
    simp only [OpTree.prepend]
    split
    · exact ihl _
    · rfl

/-- Grouping loses, adds and reorders nothing. -/
theorem Chain.chain_tree {α : Type} (c : Chain α) : c.tree.chain = c := by
  induction c with
  | last x => rfl
  | signed s rest ih => exact (OpTree.append_sign s _ _).trans (congrArg _ ih)
  | more x op rest ih => exact (OpTree.append_prepend x op _ _).trans (congrArg _ ih)

end Coercive
