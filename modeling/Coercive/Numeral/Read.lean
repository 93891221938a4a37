import Coercive.Number.Arithmetic
import Coercive.Numeral.Decimal
import Coercive.Text.Blank

namespace Coercive

namespace Numeral

/-- A decimal numeral without a sign. It needs a digit before or after its point. -/
def unsigned? (cs : List Char) : Option Decimal :=
  let (whole, rest) := digits cs
  let (fraction, rest) :=
    match rest with
    | '.' :: rest => digits rest
    | rest => ([], rest)
  if whole.isEmpty && fraction.isEmpty then none
  else
    match rest with
    | [] => some (decimal whole fraction 0)
    | rest =>
      match power? rest with
      | some (power, []) => some (decimal whole fraction power)
      | _ => none

def readDecimal (cs : List Char) : Number :=
  let read (negative : Bool) (cs : List Char) : Number :=
    match unsigned? cs with
    | some d => .signed negative d.nearest
    | none => .nan
  match cs with
  | '+' :: rest => read false rest
  | '-' :: rest => read true rest
  | rest => read false rest

/-- The digits of a radix numeral, folded in number arithmetic: every step rounds. -/
def foldRadix (radix : Nat) (cs : List Char) (acc : Number) : Number :=
  match cs with
  | [] => acc
  | c :: rest =>
    match Decimal.digitValue? c with
    | some d =>
      if d < radix then foldRadix radix rest ((acc.mul (.ofNat radix)).add (.ofNat d)) else .nan
    | none => .nan

def readRadix (radix : Nat) (cs : List Char) : Number :=
  if cs.isEmpty then .nan else foldRadix radix cs .zero

def readTrimmed (cs : List Char) : Number :=
  if cs.isEmpty then .zero
  else if cs = "Infinity".toList ∨ cs = "+Infinity".toList then .infinity
  else if cs = "-Infinity".toList then Number.neg .infinity
  else
    match cs with
    | '0' :: 'x' :: rest | '0' :: 'X' :: rest => readRadix 16 rest
    | '0' :: 'o' :: rest | '0' :: 'O' :: rest => readRadix 8 rest
    | '0' :: 'b' :: rest | '0' :: 'B' :: rest => readRadix 2 rest
    | cs => readDecimal cs

end Numeral

def Number.ofText (s : String) : Number := Numeral.readTrimmed (Text.trim s.toList)

end Coercive
