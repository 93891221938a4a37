import Coercive.Numeral.Read
import Coercive.Text.Bytes

namespace Coercive

/-- The ways in which reading could panic: the start of a slice is not the start of a character, and
a number is not a radix. -/
inductive Panic where
  | slice (start : Nat)
  | radix (radix : Nat)
  deriving DecidableEq, Repr

namespace Numeral

/-- A reader of decimal numerals. -/
abbrev Reader := List Char → Option Number

def sliceFrom (cs : List Char) (start : Nat) : Except Panic (List Char) :=
  match Text.cutAt? cs start with
  | some (_, back) => .ok back
  | none => .error (.slice start)

/-- The value of a digit in the largest radix, which takes all letters. -/
def largeDigit? (c : Char) : Option Nat :=
  if '0' ≤ c ∧ c ≤ '9' then some (c.toNat - '0'.toNat)
  else if 'a' ≤ c ∧ c ≤ 'z' then some (c.toNat - 'a'.toNat + 10)
  else if 'A' ≤ c ∧ c ≤ 'Z' then some (c.toNat - 'A'.toNat + 10)
  else none

def toDigit (c : Char) (radix : Nat) : Except Panic (Option Nat) :=
  if 2 ≤ radix ∧ radix ≤ 36 then .ok ((largeDigit? c).filter (· < radix))
  else .error (.radix radix)

def foldSliced (radix : Nat) : List Char → Number → Except Panic Number
  | [], acc => .ok acc
  | c :: cs, acc => do
    match ← toDigit c radix with
    | some d => foldSliced radix cs ((acc.mul (.ofNat radix)).add (.ofNat d))
    | none => return .nan

/-- The radix that the first two bytes announce, if they are characters. -/
def slicedRadix? (cs : List Char) : Option Nat :=
  match (Text.cutAt? cs 2).map (·.1) with
  | some ['0', 'x'] | some ['0', 'X'] => some 16
  | some ['0', 'o'] | some ['0', 'O'] => some 8
  | some ['0', 'b'] | some ['0', 'B'] => some 2
  | _ => none

def isLiteralByte (b : UInt8) : Bool :=
  48 ≤ b && b ≤ 57 || b == 43 || b == 45 || b == 46 || b == 101 || b == 69

/-- Reads a text without blanks at its ends by its bytes. -/
def readSliced (decimal : Reader) (cs : List Char) : Except Panic Number :=
  if cs.isEmpty then .ok .zero
  else if cs = "Infinity".toList ∨ cs = "+Infinity".toList then .ok .infinity
  else if cs = "-Infinity".toList then .ok (Number.neg .infinity)
  else
    match slicedRadix? cs with
    | some radix => do
      let digits ← sliceFrom cs 2
      if digits.isEmpty then return .nan else foldSliced radix digits .zero
    | none => .ok (if (Text.bytes cs).all isLiteralByte then (decimal cs).getD .nan else .nan)

def decimalReader : Reader := fun cs =>
  match readDecimal cs with
  | .nan => none
  | n => some n

end Numeral

def Number.ofTextThrough (decimal : Numeral.Reader) (s : String) : Except Panic Number :=
  Numeral.readSliced decimal (Text.trim s.toList)

end Coercive
