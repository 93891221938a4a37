import Coercive.Numeral.Read
import Coercive.Proofs.Scaling

namespace Coercive

/-- The radices, other than ten, in which whole numbers may be written. -/
inductive Radix where
  | hexadecimal
  | octal
  | binary
  deriving DecidableEq, Repr

namespace Radix

def bits : Radix → Nat
  | .hexadecimal => 4
  | .octal => 3
  | .binary => 1

def base (r : Radix) : Nat := 2 ^ r.bits

def letter : Radix → Bool → Char
  | .hexadecimal, capital => if capital then 'X' else 'x'
  | .octal, capital => if capital then 'O' else 'o'
  | .binary, capital => if capital then 'B' else 'b'

def isDigit : Radix → Char → Bool
  | .hexadecimal, c => '0' ≤ c && c ≤ '9' || 'a' ≤ c && c ≤ 'f' || 'A' ≤ c && c ≤ 'F'
  | .octal, c => '0' ≤ c && c ≤ '7'
  | .binary, c => '0' ≤ c && c ≤ '1'

def digitValue (c : Char) : Nat := (Decimal.digitValue? c).getD 0

def push (r : Radix) (n : Nat) (c : Char) : Nat := n * r.base + digitValue c

/-- A number with a further digit, which counts as zero once the number has reached `2 ^ 53`. -/
def keep (r : Radix) (n : Nat) (c : Char) : Nat :=
  if n < 2 ^ 53 then r.push n c else n * r.base

theorem bits_le (r : Radix) : 0 < r.bits ∧ r.bits ≤ 4 := by
  cases r <;> decide

theorem isDigit_iff {r : Radix} {c : Char} :
    r.isDigit c = true ↔ ∃ d, Decimal.digitValue? c = some d ∧ d < r.base := by
  have hbase : r.base = match r with | .hexadecimal => 16 | .octal => 8 | .binary => 2 := by
    cases r <;> rfl
  rw [Decimal.digitValue?, hbase]
  simp only [Numeral.le_iff_toNat_le, Char.reduceToNat]
  cases r <;> simp only [isDigit, Numeral.le_iff_toNat_le, Char.reduceToNat, Bool.or_eq_true,
    Bool.and_eq_true, decide_eq_true_eq]
  all_goals
    constructor
    · intro h
      split
      · exact ⟨_, rfl, by omega⟩
      · split
        · exact ⟨_, rfl, by omega⟩
        · split
          · exact ⟨_, rfl, by omega⟩
          · omega
    · rintro ⟨d, hd, hlt⟩
      split at hd
      · cases hd
        omega
      · split at hd
        · cases hd
          omega
        · split at hd <;> cases hd
          omega

theorem visible_of_isDigit {r : Radix} {c : Char} (h : r.isDigit c = true) :
    0x21 ≤ c.toNat ∧ c.toNat ≤ 0x7e := by
  obtain ⟨d, hd, -⟩ := isDigit_iff.1 h
  rw [Decimal.digitValue?] at hd
  simp only [Numeral.le_iff_toNat_le, Char.reduceToNat] at hd
  split at hd
  · omega
  · split at hd
    · omega
    · split at hd
      · omega
      · cases hd

theorem value_of_isDigit {r : Radix} {c : Char} (h : r.isDigit c = true) :
    Decimal.digitValue? c = some (digitValue c) ∧ digitValue c < r.base := by
  obtain ⟨d, hd, hlt⟩ := isDigit_iff.1 h
  rw [digitValue, hd]
  exact ⟨rfl, hlt⟩

/-- One step of reading. A number that is not rounded yet takes the digit, any other is scaled. -/
theorem step_ofNat (r : Radix) (n : Nat) {c : Char} (h : r.isDigit c = true) :
    ((Number.ofNat n).mul (.ofNat r.base)).add (.ofNat (digitValue c)) = .ofNat (r.keep n c) := by
  obtain ⟨-, hlt⟩ := value_of_isDigit h
  obtain ⟨-, hbits⟩ := r.bits_le
  have hbits : r.bits ≤ 53 := by omega
  rw [keep, push, base, Number.mul_shift n hbits]
  split
  · next hn =>
    have hvalue : digitValue c < 2 ^ 53 :=
      Nat.lt_of_lt_of_le hlt (Nat.pow_le_pow_right (by decide) hbits)
    exact Number.add_ofNat hn hbits hvalue
  · next hn => exact Number.add_absorbed (Nat.le_of_not_lt hn) hlt hbits

end Radix

namespace Numeral

variable {r : Radix} {ds : List Char}

theorem foldRadix_digits (h : ∀ c ∈ ds, r.isDigit c = true) (n : Nat) :
    foldRadix r.base ds (.ofNat n) = .ofNat (ds.foldl r.keep n) := by
  induction ds generalizing n with
  | nil => rfl
  | cons c ds ih =>
    obtain ⟨hc, hds⟩ := List.forall_mem_cons.1 h
    obtain ⟨hvalue, hlt⟩ := Radix.value_of_isDigit hc
    rw [foldRadix, hvalue]
    simp only [hlt, if_true]
    rw [Radix.step_ofNat r n hc, ih hds, List.foldl_cons]

theorem foldRadix_of_not_digit {c : Char} (hmem : c ∈ ds) (hc : r.isDigit c = false)
    (acc : Number) : foldRadix r.base ds acc = .nan := by
  induction ds generalizing acc with
  | nil => cases hmem
  | cons d ds ih =>
    rw [foldRadix]
    split
    · next v hv =>
      split
      · next hlt =>
        have hd : r.isDigit d = true := Radix.isDigit_iff.2 ⟨v, hv, hlt⟩
        rcases List.mem_cons.1 hmem with rfl | hmem
        · rw [hc] at hd
          cases hd
        · exact ih hmem _
      · rfl
    · rfl

end Numeral

structure RadixNumeral where
  radix : Radix
  capital : Bool
  digits : List Char
  ne_nil : digits ≠ []
  valid : ∀ c ∈ digits, radix.isDigit c = true

namespace RadixNumeral

variable (n : RadixNumeral)

def text : List Char := '0' :: n.radix.letter n.capital :: n.digits

def value : Nat := n.digits.foldl n.radix.push 0

/-- The number that has zeros for the digits behind the first `2 ^ 53`. -/
def kept : Nat := n.digits.foldl n.radix.keep 0

theorem readTrimmed_text : Numeral.readTrimmed n.text = .ofNat n.kept := by
  have hne : n.digits.isEmpty = false := by simpa using n.ne_nil
  have hfold : Numeral.readRadix n.radix.base n.digits = .ofNat n.kept := by
    rw [Numeral.readRadix, hne, if_neg Bool.false_ne_true,
      show Number.zero = .ofNat 0 by rw [Number.ofNat_eq, Magnitude.ofNat_zero]; rfl]
    exact Numeral.foldRadix_digits n.valid 0
  rw [← hfold, text]
  generalize n.digits = ds
  cases n.radix <;> cases n.capital <;> rfl

theorem visible_text {c : Char} (hc : c ∈ n.text) : 0x21 ≤ c.toNat ∧ c.toNat ≤ 0x7e := by
  rw [text, List.mem_cons, List.mem_cons] at hc
  rcases hc with rfl | rfl | hc
  · decide
  · cases n.radix <;> cases n.capital <;> decide
  · exact Radix.visible_of_isDigit (n.valid c hc)

theorem ofText_text : Number.ofText (String.ofList n.text) = .ofNat n.kept := by
  rw [Number.ofText, String.toList_ofList, Text.trim_of_forall, readTrimmed_text]
  intro c hc
  obtain ⟨hlow, hhigh⟩ := n.visible_text hc
  exact Text.isBlank_of_visible hlow hhigh

/-- How a number and the one with zeros for its last binary digits are to each other. -/
def Cut (kept value : Nat) : Prop :=
  ∃ q, 2 ^ q ∣ kept ∧ kept ≤ value ∧ value < kept + 2 ^ q ∧ (q = 0 ∨ 2 ^ (53 + q) ≤ kept)

theorem Cut.step {kept value : Nat} (h : Cut kept value) {r : Radix} {c : Char}
    (hc : r.isDigit c = true) : Cut (r.keep kept c) (r.push value c) := by
  obtain ⟨q, hdvd, hle, hlt, hq⟩ := h
  obtain ⟨-, hdigit⟩ := Radix.value_of_isDigit hc
  rw [Radix.keep]
  split
  · next hsmall =>
    have hzero : q = 0 := by
      rcases hq with rfl | hlarge
      · rfl
      · have := Nat.pow_le_pow_right (show 0 < 2 by decide) (show 53 ≤ 53 + q by omega)
        omega
    rw [hzero] at hlt
    rw [show value = kept by omega]
    exact ⟨0, Nat.one_dvd _, Nat.le_refl _, Nat.lt_succ_self _, .inl rfl⟩
  · next hlarge =>
    rw [Radix.push]
    refine ⟨q + r.bits, ?_, ?_, ?_, .inr ?_⟩
    · rw [Nat.pow_add]
      exact Nat.mul_dvd_mul_right hdvd _
    · exact Nat.le_trans (Nat.mul_le_mul_right _ hle) (Nat.le_add_right _ _)
    · calc value * r.base + Radix.digitValue c < value * r.base + r.base :=
            Nat.add_lt_add_left hdigit _
        _ = (value + 1) * r.base := (Nat.succ_mul _ _).symm
        _ ≤ (kept + 2 ^ q) * r.base := Nat.mul_le_mul_right _ hlt
        _ = kept * r.base + 2 ^ (q + r.bits) := by rw [Nat.add_mul, Nat.pow_add, Radix.base]
    · rw [← Nat.add_assoc, Nat.pow_add]
      apply Nat.mul_le_mul_right
      rcases hq with rfl | hq
      · exact Nat.le_of_not_lt hlarge
      · exact hq

theorem Cut.foldl {r : Radix} {ds : List Char} (hds : ∀ c ∈ ds, r.isDigit c = true)
    {kept value : Nat} (h : Cut kept value) :
    Cut (ds.foldl r.keep kept) (ds.foldl r.push value) := by
  induction ds generalizing kept value with
  | nil => exact h
  | cons c ds ih =>
    obtain ⟨hc, hds⟩ := List.forall_mem_cons.1 hds
    exact ih hds (h.step hc)

theorem cut : Cut n.kept n.value :=
  Cut.foldl n.valid ⟨0, Nat.one_dvd _, Nat.le_refl _, Nat.zero_lt_one, .inl rfl⟩

/-- The double nearest to a number, found from the number without its last binary digits. -/
theorem Cut.ofNat_value {kept value : Nat} (h : Cut kept value) :
    Magnitude.ofNat value =
      if value ≠ kept ∧
        2 * (kept * Magnitude.scale) =
          (Magnitude.ofNat kept).size + (Magnitude.ofNat kept).next.size
      then (Magnitude.ofNat kept).next else Magnitude.ofNat kept := by
  obtain ⟨p, -, hscale⟩ := Magnitude.exists_scale
  have hpos := Nat.two_pow_pos p
  obtain ⟨q, hdvd, hle, hlt, rfl | hlarge⟩ := h
  · rw [show value = kept by omega, if_neg fun h => h.1 rfl]
  · have htail := Magnitude.nearest_tail (a := kept * Magnitude.scale)
      (b := value * Magnitude.scale) (q := q + p)
      (by rw [hscale, Nat.pow_add]; exact Nat.mul_dvd_mul_right hdvd _)
      (Nat.mul_le_mul_right _ hle)
      (by
        rw [hscale, Nat.pow_add, ← Nat.add_mul]
        exact Nat.mul_lt_mul_of_pos_right hlt hpos)
      (by
        rw [hscale, ← Nat.add_assoc, Nat.pow_add]
        exact Nat.mul_le_mul_right _ hlarge)
    have hne : value * Magnitude.scale ≠ kept * Magnitude.scale ↔ value ≠ kept :=
      not_congr (Nat.mul_left_inj (Nat.ne_of_gt Magnitude.scale_pos))
    rw [Magnitude.ofNat, Magnitude.ofNat, htail]
    simp only [hne]

/-- The digits that count end in the middle between the result and the double behind it, and the
others are not all zero. -/
def Misses (m : Magnitude) : Prop :=
  m ≠ .infinite ∧ n.value ≠ n.kept ∧ 2 * (n.kept : ℚ) = m.value + m.next.value

theorem middle_iff {k : Nat} {a b : Magnitude} :
    2 * (k : ℚ) = a.value + b.value ↔ 2 * (k * Magnitude.scale) = a.size + b.size := by
  have hscale : (Magnitude.scale : ℚ) ≠ 0 := by exact_mod_cast Nat.ne_of_gt Magnitude.scale_pos
  rw [Magnitude.value, Magnitude.value, ← add_div, eq_div_iff hscale, mul_assoc]
  exact_mod_cast Iff.rfl

/-- A numeral of a radix is read as the double nearest to the number that its first digits denote,
those that reach `2 ^ 53`, with zeros behind. It is the double nearest to the numeral unless the
number is then in the middle to the next double, and in that case the next one is. -/
theorem reads_kept : ∃ m : Magnitude,
    Number.ofText (String.ofList n.text) = .signed false m ∧ m.Rounds n.kept ∧
      (m.Rounds n.value ↔ ¬ n.Misses m) ∧ (n.Misses m → m.next.Rounds n.value) := by
  have hread : Number.ofText (String.ofList n.text) = .signed false (.ofNat n.kept) := by
    rw [n.ofText_text, Number.ofNat_eq]
  have hvalue := Magnitude.ofNat_rounds n.value
  rw [n.cut.ofNat_value] at hvalue
  simp only [← middle_iff] at hvalue
  refine ⟨_, hread, Magnitude.ofNat_rounds n.kept, ⟨fun hround hmiss => ?_, fun hmiss => ?_⟩,
    fun hmiss => ?_⟩
  · rw [if_pos hmiss.2] at hvalue
    have hlt : (Magnitude.ofNat n.kept).rank < Magnitude.top :=
      Nat.lt_of_le_of_ne (Magnitude.rank_le _) fun h => hmiss.1 (Magnitude.ext_rank h)
    have hnext := Magnitude.rank_next hlt
    rw [← hround.unique hvalue] at hnext
    omega
  · by_cases hinfinite : Magnitude.ofNat n.kept = .infinite
    · rw [hinfinite, Magnitude.next_infinite, ite_self] at hvalue
      rwa [hinfinite]
    · rwa [if_neg fun h => hmiss ⟨hinfinite, h⟩] at hvalue
  · rwa [if_pos hmiss.2] at hvalue

/-- `0x200000000000018`, whose last digit is cut. The others end in the middle between two
doubles. -/
def middling : RadixNumeral :=
  ⟨.hexadecimal, false, "200000000000018".toList, List.cons_ne_nil _ _, List.all_eq_true.1 rfl⟩

theorem value_middling : (Magnitude.ofNat middling.kept).value = 144115188075855872 ∧
    (Magnitude.ofNat middling.kept).next.value = 144115188075855904 := by
  have hlow : Magnitude.ofNat middling.kept = .ofNat (16 * 2 ^ 53) := by decide +kernel
  have hhigh : (Magnitude.ofNat middling.kept).next = .ofNat ((2 ^ 52 + 1) * 2 ^ 5) := by
    decide +kernel
  constructor
  · rw [hlow, Magnitude.value_ofNat (by decide) (by decide)]
    norm_num
  · rw [hhigh, Magnitude.value_ofNat (by decide) (by decide)]
    norm_num

theorem ofText_middling :
    Number.ofText (String.ofList middling.text) = .signed false (.ofNat middling.kept) := by
  rw [middling.ofText_text, Number.ofNat_eq]

theorem reads_kept_middling : ∃ m : Magnitude,
    Number.ofText (String.ofList middling.text) = .signed false m ∧ middling.Misses m ∧
      m.next.Rounds middling.value := by
  obtain ⟨m, hread, -, -, hnext⟩ := middling.reads_kept
  obtain ⟨-, rfl⟩ := Number.signed.inj (ofText_middling.symm.trans hread)
  obtain ⟨hlow, hhigh⟩ := value_middling
  have hmiss : middling.Misses (.ofNat middling.kept) := by
    refine ⟨by decide +kernel, by decide, ?_⟩
    rw [hlow, hhigh, show middling.kept = 144115188075855888 by decide]
    norm_num
  exact ⟨_, hread, hmiss, hnext hmiss⟩

/-- The numeral is read as the double below the nearest one. -/
theorem reads_below : ∃ m : Magnitude,
    Number.ofText (String.ofList middling.text) = .signed false m ∧
      m.value = 144115188075855872 ∧ middling.value = 144115188075855896 ∧
      m.next.value = 144115188075855904 ∧ ¬ m.Rounds middling.value := by
  obtain ⟨hlow, hhigh⟩ := value_middling
  have hvalue : middling.value = 144115188075855896 := by decide
  refine ⟨_, ofText_middling, hlow, hvalue, hhigh, fun hround => ?_⟩
  have hclosest := hround.closest (Magnitude.ofNat middling.kept).next
  rw [hvalue, hlow, hhigh] at hclosest
  norm_num at hclosest

end RadixNumeral

end Coercive
