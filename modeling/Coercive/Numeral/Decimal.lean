import Coercive.Number.Decimal

namespace Coercive.Numeral

def isDigit (c : Char) : Bool := '0' ≤ c && c ≤ '9'

def digits (cs : List Char) : List Char × List Char := (cs.takeWhile isDigit, cs.dropWhile isDigit)

def nat? (cs : List Char) : Option (Nat × List Char) :=
  match digits cs with
  | ([], _) => none
  | (ds, rest) => some (Decimal.natOfDigits ds, rest)

def signedInt? (cs : List Char) : Option (Int × List Char) :=
  match cs with
  | '+' :: rest => (nat? rest).map fun (n, rest) => ((n : Int), rest)
  | '-' :: rest => (nat? rest).map fun (n, rest) => (-(n : Int), rest)
  | rest => (nat? rest).map fun (n, rest) => ((n : Int), rest)

/-- A power of ten written with the letter e in either case, and what follows it. -/
def power? : List Char → Option (Int × List Char)
  | 'e' :: rest => signedInt? rest
  | 'E' :: rest => signedInt? rest
  | _ => none

def decimal (whole fraction : List Char) (power : Int) : Decimal :=
  ⟨Decimal.natOfDigits (whole ++ fraction), power - fraction.length⟩

theorem le_iff_toNat_le {c d : Char} : c ≤ d ↔ c.toNat ≤ d.toNat := by
  rw [Char.le_def, UInt32.le_iff_toNat_le]
  rfl

theorem isDigit_iff {c : Char} : isDigit c = true ↔ 48 ≤ c.toNat ∧ c.toNat ≤ 57 := by
  simp only [isDigit, le_iff_toNat_le, Char.reduceToNat, Bool.and_eq_true, decide_eq_true_eq]

theorem length_digits_le (cs : List Char) : (digits cs).2.length ≤ cs.length :=
  (List.dropWhile_sublist isDigit).length_le

theorem length_nat?_le {cs rest : List Char} {n : Nat} (h : nat? cs = some (n, rest)) :
    rest.length ≤ cs.length := by
  have hle := length_digits_le cs
  unfold nat? at h
  split at h <;> simp_all

theorem length_signedInt?_le {cs rest : List Char} {n : Int}
    (h : signedInt? cs = some (n, rest)) : rest.length ≤ cs.length := by
  unfold signedInt? at h
  split at h <;> obtain ⟨⟨k, tail⟩, hk, heq⟩ := Option.map_eq_some_iff.1 h <;> cases heq <;>
    have := length_nat?_le hk <;> simp_all <;> omega

theorem length_power?_le {cs rest : List Char} {n : Int} (h : power? cs = some (n, rest)) :
    rest.length ≤ cs.length := by
  unfold power? at h
  split at h
  · have := length_signedInt?_le h
    exact Nat.le_succ_of_le this
  · have := length_signedInt?_le h
    exact Nat.le_succ_of_le this
  · cases h

end Coercive.Numeral
