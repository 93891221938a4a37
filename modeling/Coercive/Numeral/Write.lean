import Coercive.Number.Decimal

namespace Coercive

namespace Numeral

/-- Digits `d₁ d₂ …` with the value `0.d₁d₂… · 10 ^ point`. -/
structure Digits where
  digits : List Char
  point : Int
  deriving Repr

def Digits.ofDecimal (d : Decimal) : Digits :=
  let all := Nat.toDigits 10 d.coefficient
  ⟨(all.reverse.dropWhile (· == '0')).reverse, all.length + d.exponent⟩

def zeros (n : Nat) : List Char := List.replicate n '0'

/-- Writes a digit, a point before further digits, and the signed exponent. -/
def Digits.scientific (d : Digits) : List Char :=
  let power := d.point - 1
  let sign := if power < 0 then '-' else '+'
  let mantissa :=
    match d.digits with
    | first :: second :: rest => first :: '.' :: second :: rest
    | short => short
  mantissa ++ 'e' :: sign :: Nat.toDigits 10 power.natAbs

def Digits.layout (d : Digits) : List Char :=
  let count := d.digits.length
  if count ≤ d.point ∧ d.point ≤ 21 then
    d.digits ++ zeros (d.point - count).toNat
  else if 0 < d.point ∧ d.point ≤ 21 then
    d.digits.take d.point.toNat ++ '.' :: d.digits.drop d.point.toNat
  else if -6 < d.point ∧ d.point ≤ 0 then
    '0' :: '.' :: zeros (-d.point).toNat ++ d.digits
  else d.scientific

def writeMagnitude (m : Magnitude) : List Char :=
  if m.isZero then ['0']
  else if m.isInfinite then "Infinity".toList
  else (Digits.ofDecimal (Decimal.shortest m)).layout

def write : Number → List Char
  | .nan => "NaN".toList
  | .signed negative m =>
    if negative && !m.isZero then '-' :: writeMagnitude m else writeMagnitude m

end Numeral

/-- The text of a number; both zeros are written alike. -/
def Number.text (n : Number) : String := String.ofList (Numeral.write n)

end Coercive
