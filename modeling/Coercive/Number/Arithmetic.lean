import Coercive.Number.Basic

namespace Coercive.Number

def neg : Number → Number
  | .nan => .nan
  | .signed negative m => .signed (!negative) m

def signedUnits (negative : Bool) (m : Magnitude) : Int :=
  if negative then -(m.size : Int) else m.size

def add : Number → Number → Number
  | .signed s m, .signed t n =>
    if m.isInfinite then
      if n.isInfinite && s != t then .nan else .signed s m
    else if n.isInfinite then .signed t n
    else
      let sum := signedUnits s m + signedUnits t n
      if sum = 0 then .signed (s && t) .zero
      else .signed (sum < 0) (.nearest sum.natAbs 1)
  | _, _ => .nan

def sub (a b : Number) : Number := a.add b.neg

def mul : Number → Number → Number
  | .signed s m, .signed t n =>
    if m.isInfinite || n.isInfinite then
      if m.isZero || n.isZero then .nan else .signed (s != t) .infinite
    else .signed (s != t) (.nearest (m.size * n.size) Magnitude.scale)
  | _, _ => .nan

def div : Number → Number → Number
  | .signed s m, .signed t n =>
    if m.isInfinite then
      if n.isInfinite then .nan else .signed (s != t) .infinite
    else if n.isInfinite then .signed (s != t) .zero
    else if n.isZero then
      if m.isZero then .nan else .signed (s != t) .infinite
    else .signed (s != t) (.nearest (m.size * Magnitude.scale) n.size)
  | _, _ => .nan

/-- The remainder of the quotient cut toward zero, with the sign of the dividend. -/
def rem : Number → Number → Number
  | .signed s m, .signed _ n =>
    if m.isInfinite || n.isZero then .nan
    else if n.isInfinite then .signed s m
    else .signed s (.nearest (m.size % n.size) 1)
  | _, _ => .nan

def isInfinite : Number → Bool
  | .nan => false
  | .signed _ m => m.isInfinite

def isUnit : Number → Bool
  | .nan => false
  | .signed _ m => m.size == Magnitude.scale

def hostPow (a b : Number) : Number :=
  ofBits ((Float.pow (Float.ofBits a.toBits.toUInt64)
    (Float.ofBits b.toBits.toUInt64)).toBits.toNat)

/-- A power. It is NaN for a NaN exponent, and for an infinite exponent of one or minus one. -/
def pow (a b : Number) : Number :=
  if b.isNaN || (a.isUnit && b.isInfinite) then .nan else hostPow a b

end Coercive.Number
