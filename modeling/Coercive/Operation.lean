import Coercive.Reduction
import Coercive.Number.Arithmetic
import Coercive.Text.Bytes

namespace Coercive

def Arithmetic.apply : Arithmetic → Number → Number → Number
  | .sub => Number.sub
  | .mul => Number.mul
  | .div => Number.div
  | .rem => Number.rem
  | .pow => Number.pow

def Relation.holds : Relation → Ordering → Bool
  | .lt => Ordering.isLT
  | .le => Ordering.isLE
  | .gt => Ordering.isGT
  | .ge => Ordering.isGE

namespace Primitive

/-- Joins strings if one of the two is a string, and adds numbers otherwise. -/
def add (p q : Primitive) : Except Mismatch Primitive :=
  if p.isString || q.isString then do
    let s ← p.toText
    let t ← q.toText
    return .string (s ++ t)
  else do
    let a ← p.toNumber
    let b ← q.toNumber
    return .number (a.add b)

/-- The order of two primitives: of strings by their bytes, of all others by their numbers. -/
def compare? (p q : Primitive) : Except Mismatch (Option Ordering) :=
  match p, q with
  | .string s, .string t => .ok (Text.compareBytes s t)
  | p, q => do
    let a ← p.toNumber
    let b ← q.toNumber
    return a.compare? b

def related (r : Relation) (p q : Primitive) : Except Mismatch Bool := do
  return ((← p.compare? q).map r.holds).getD false

/-- Equality with conversion. Undefined and null are equal to each other and to nothing else, a
symbol to itself, strings by content, and all else is compared by numbers. -/
def looselyEqual : Primitive → Primitive → Except Mismatch Bool
  | .undefined, q | .null, q => .ok q.isNullish
  | _, .undefined | _, .null => .ok false
  | .string s, .string t => .ok (s == t)
  | .symbol s, .symbol t => .ok (s.identity == t.identity)
  | .symbol _, _ | _, .symbol _ => .ok false
  | p, q => do
    let a ← p.toNumber
    let b ← q.toNumber
    return a.equal b

end Primitive

namespace Value

variable (invoke : Invoker)

def toNumber (v : Value) (context : Context) : Run Number := do
  let p ← v.reduce invoke context.hint
  Run.ofMismatch p.toNumber

/-- The string of a value in a context that refuses symbols. -/
def toText (v : Value) (context : Context) : Run String := do
  let p ← v.reduce invoke context.hint
  Run.ofMismatch p.toText

/-- The string of a value on request, which shows symbols. -/
def showText (v : Value) : Run String := do
  match ← v.reduce invoke Context.explicitString.hint with
  | .symbol s => pure s.text
  | p => Run.ofMismatch p.toText

def add (v w : Value) : Run Primitive := do
  let p ← v.reduce invoke Context.additive.hint
  let q ← w.reduce invoke Context.additive.hint
  Run.ofMismatch (p.add q)

/-- Converts the left operand to a number before it touches the right one. -/
def arithmetic (a : Arithmetic) (v w : Value) : Run Primitive := do
  let m ← v.toNumber invoke .arithmetic
  let n ← w.toNumber invoke .arithmetic
  return .number (a.apply m n)

def relate (r : Relation) (v w : Value) : Run Bool := do
  let p ← v.reduce invoke Context.relational.hint
  let q ← w.reduce invoke Context.relational.hint
  Run.ofMismatch (p.related r q)

/-- Equality with conversion. Only an object against a primitive other than undefined and null is
reduced. -/
def looselyEquals (v w : Value) : Run Bool :=
  match v, w with
  | .object a, .object b => pure (a == b)
  | .primitive p, .primitive q => Run.ofMismatch (p.looselyEqual q)
  | .object _, .primitive q =>
    if q.isNullish then pure false
    else do
      let p ← v.reduce invoke Context.looseEquality.hint
      Run.ofMismatch (p.looselyEqual q)
  | .primitive p, .object _ =>
    if p.isNullish then pure false
    else do
      let q ← w.reduce invoke Context.looseEquality.hint
      Run.ofMismatch (p.looselyEqual q)

end Value

def Cast.apply (invoke : Invoker) (c : Cast) (v : Value) : Run Primitive :=
  match c with
  | .number | .plus => .number <$> v.toNumber invoke c.context
  | .negate => (fun n => .number n.neg) <$> v.toNumber invoke c.context
  | .string => .string <$> v.showText invoke
  | .output | .key => .string <$> v.toText invoke c.context

def Operator.apply (invoke : Invoker) (op : Operator) (v w : Value) : Run Primitive :=
  match op with
  | .eq => .bool <$> v.looselyEquals invoke w
  | .ne => (fun b => .bool (!b)) <$> v.looselyEquals invoke w
  | .relation r => .bool <$> v.relate invoke r w
  | .add => v.add invoke w
  | .arithmetic a => v.arithmetic invoke a w

end Coercive
