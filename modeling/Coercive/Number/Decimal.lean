import Coercive.Number.Basic

namespace Coercive

/-- A whole coefficient times a power of ten. -/
structure Decimal where
  coefficient : Nat
  exponent : Int
  deriving DecidableEq, Repr

namespace Decimal

def digitValue? (c : Char) : Option Nat :=
  if '0' ≤ c ∧ c ≤ '9' then some (c.toNat - '0'.toNat)
  else if 'a' ≤ c ∧ c ≤ 'f' then some (c.toNat - 'a'.toNat + 10)
  else if 'A' ≤ c ∧ c ≤ 'F' then some (c.toNat - 'A'.toNat + 10)
  else none

def natOfDigits (digits : List Char) : Nat :=
  digits.foldl (fun n c => 10 * n + (c.toNat - '0'.toNat)) 0

/-- The double nearest to a decimal. Exponents beyond every double are settled by their size. -/
def nearest (d : Decimal) : Magnitude :=
  if d.coefficient = 0 then .zero
  else if 400 < d.exponent then .infinite
  else if d.exponent + d.coefficient.log2 < -401 then .zero
  else
    .nearest (d.coefficient * Nat.pow 10 d.exponent.toNat * Magnitude.scale)
      (Nat.pow 10 (-d.exponent).toNat)

def width (n : Nat) : Nat := (Nat.toDigits 10 n).length

/-- The exponent of the leading digit of a positive finite magnitude. -/
def leading (m : Magnitude) : Int :=
  if Magnitude.scale ≤ m.size then width (m.size / Magnitude.scale) - 1
  else -(width ((Magnitude.scale - 1) / m.size) : Int)

/-- The two neighbours of a magnitude on the grid of a power of ten, the closer one first and at
equal distance the even one first. -/
def neighbours (m : Magnitude) (exponent : Int) : List Decimal :=
  let num := m.size * Nat.pow 10 (-exponent).toNat
  let den := Magnitude.scale * Nat.pow 10 exponent.toNat
  let low : Decimal := ⟨num / den, exponent⟩
  let high : Decimal := ⟨num / den + 1, exponent⟩
  let rest := 2 * (num % den)
  if rest < den ∨ rest = den ∧ low.coefficient % 2 = 0 then [low, high] else [high, low]

def exact (m : Magnitude) : Decimal := ⟨m.size * Nat.pow 5 1074, -1074⟩

/-- The decimal with the fewest digits that rounds back to a positive finite magnitude. -/
def shortest (m : Magnitude) : Decimal :=
  let lead := leading m
  ((List.range 17).findSome? fun (n : Nat) =>
    (neighbours m (lead - n)).find? fun d => d.nearest == m).getD (exact m)

end Decimal

end Coercive
