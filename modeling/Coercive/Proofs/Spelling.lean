import Coercive.Proofs.Rounding
import Coercive.Source.Scan

namespace Coercive

/-- A run of characters is cut off where the text behind it does not continue it. -/
theorem cut_append {p : Char → Bool} {cs rest : List Char} (hcs : ∀ c ∈ cs, p c = true)
    (hrest : ∀ c ∈ rest.head?, p c = false) :
    (cs ++ rest).takeWhile p = cs ∧ (cs ++ rest).dropWhile p = rest := by
  rw [List.takeWhile_append_of_pos hcs, List.dropWhile_append_of_pos hcs]
  cases rest with
  | nil => simp
  | cons c rest => simp [hrest c rfl]

def Sign.char : Sign → Char
  | .plus => '+'
  | .minus => '-'

namespace Numeral

structure DigitRun where
  chars : List Char
  ne_nil : chars ≠ []
  digits : ∀ c ∈ chars, isDigit c = true

/-- A signed power of ten behind the letter e in either case. -/
structure Power where
  capital : Bool
  sign : Option Sign
  run : DigitRun

/-- The parts of a number as it is written in a source text. -/
structure Spelling where
  whole : DigitRun
  fraction : Option DigitRun
  power : Option Power

def DigitRun.single (c : Char) (h : isDigit c = true) : DigitRun :=
  ⟨[c], List.cons_ne_nil c [], by simpa using h⟩

def DigitRun.value (d : DigitRun) : Nat := Decimal.natOfDigits d.chars

namespace Power

def letter (p : Power) : Char := if p.capital then 'E' else 'e'

def text (p : Power) : List Char := p.letter :: (p.sign.toList.map Sign.char ++ p.run.chars)

def value (p : Power) : Int :=
  match p.sign with
  | some .minus => -(p.run.value : Int)
  | _ => p.run.value

end Power

namespace Spelling

def fractionDigits (s : Spelling) : List Char := s.fraction.elim [] DigitRun.chars

def fractionText (s : Spelling) : List Char := s.fraction.elim [] fun d => '.' :: d.chars

def powerValue (s : Spelling) : Int := s.power.elim 0 Power.value

def powerText (s : Spelling) : List Char := s.power.elim [] Power.text

def text (s : Spelling) : List Char := s.whole.chars ++ (s.fractionText ++ s.powerText)

def decimal (s : Spelling) : Decimal :=
  Numeral.decimal s.whole.chars s.fractionDigits s.powerValue

def value (s : Spelling) : Magnitude := s.decimal.nearest

end Spelling

theorem DigitRun.digits_append (d : DigitRun) {rest : List Char}
    (hrest : ∀ c ∈ rest.head?, isDigit c = false) :
    Numeral.digits (d.chars ++ rest) = (d.chars, rest) := by
  obtain ⟨htake, hdrop⟩ := cut_append d.digits hrest
  rw [Numeral.digits, htake, hdrop]

theorem DigitRun.nat?_append (d : DigitRun) {rest : List Char}
    (hrest : ∀ c ∈ rest.head?, isDigit c = false) :
    nat? (d.chars ++ rest) = some (d.value, rest) := by
  rw [nat?, d.digits_append hrest]
  split
  · next heq => exact (d.ne_nil (congrArg Prod.fst heq)).elim
  · next heq =>
    cases heq
    rfl

theorem DigitRun.exists_cons (d : DigitRun) :
    ∃ c cs, d.chars = c :: cs ∧ isDigit c = true := by
  obtain ⟨c, cs, h⟩ := List.exists_cons_of_ne_nil d.ne_nil
  exact ⟨c, cs, h, d.digits c (by simp [h])⟩

theorem signedInt?_cons {c : Char} {cs : List Char} (hc : isDigit c = true) :
    signedInt? (c :: cs) = (nat? (c :: cs)).map fun (n, rest) => ((n : Int), rest) := by
  unfold signedInt?
  split
  · next heq =>
    cases heq
    cases hc
  · next heq =>
    cases heq
    cases hc
  · rfl

theorem Power.power?_append (p : Power) {rest : List Char}
    (hrest : ∀ c ∈ rest.head?, isDigit c = false) :
    power? (p.text ++ rest) = some (p.value, rest) := by
  have hnat := p.run.nat?_append hrest
  have hsigned : signedInt? (p.sign.toList.map Sign.char ++ p.run.chars ++ rest)
      = some (p.value, rest) := by
    rw [value]
    cases p.sign with
    | none =>
      obtain ⟨c, cs, hcs, hc⟩ := p.run.exists_cons
      rw [hcs, List.cons_append] at hnat
      show signedInt? (p.run.chars ++ rest) = _
      rw [hcs, List.cons_append, signedInt?_cons hc, hnat]
      rfl
    | some sign => cases sign <;> simp [signedInt?, Sign.char, hnat]
  have hletter : power? (p.text ++ rest)
      = signedInt? (p.sign.toList.map Sign.char ++ p.run.chars ++ rest) := by
    obtain ⟨capital, sign, run⟩ := p
    cases capital <;> rfl
  rw [hletter, hsigned]

end Numeral

namespace Source

/-- A text that does not continue the number or the word before it. -/
def Detached (cs : List Char) : Prop :=
  (∀ c ∈ cs.head?, isWordPart c = false) ∧ fraction cs = ([], cs)

theorem isWordPart_of_isDigit {c : Char} (h : Numeral.isDigit c = true) : isWordPart c = true := by
  rw [isWordPart, h, Bool.or_true]

theorem Detached.head_isDigit {cs : List Char} (h : Detached cs) :
    ∀ c ∈ cs.head?, Numeral.isDigit c = false := by
  intro c hc
  have hword := h.1 c hc
  simp only [isWordPart, Bool.or_eq_false_iff] at hword
  exact hword.2

theorem Detached.power? {cs : List Char} (h : Detached cs) : Numeral.power? cs = none := by
  unfold Numeral.power?
  split
  · exact absurd (h.1 'e' rfl) (by decide)
  · exact absurd (h.1 'E' rfl) (by decide)
  · rfl

theorem fraction_point (d : Numeral.DigitRun) {rest : List Char}
    (hrest : ∀ c ∈ rest.head?, Numeral.isDigit c = false) :
    fraction ('.' :: d.chars ++ rest) = (d.chars, rest) := by
  rw [List.cons_append, fraction, d.digits_append hrest]
  split
  · next heq => exact (d.ne_nil (congrArg Prod.fst heq)).elim
  · next heq =>
    cases heq
    rfl

theorem power_append (s : Numeral.Spelling) {rest : List Char} (h : Detached rest) :
    (∀ c ∈ (s.powerText ++ rest).head?, Numeral.isDigit c = false) ∧
      fraction (s.powerText ++ rest) = ([], s.powerText ++ rest) ∧
      (Numeral.power? (s.powerText ++ rest)).getD (0, s.powerText ++ rest)
        = (s.powerValue, rest) := by
  rw [Numeral.Spelling.powerText, Numeral.Spelling.powerValue]
  cases s.power with
  | none =>
    refine ⟨h.head_isDigit, h.2, ?_⟩
    simp only [Option.elim_none, List.nil_append, h.power?, Option.getD_none]
  | some p =>
    have hread := p.power?_append h.head_isDigit
    refine ⟨?_, ?_, by simp only [Option.elim_some, hread, Option.getD_some]⟩
    all_goals obtain ⟨capital, sign, run⟩ := p
    · intro c hc
      cases capital <;> cases hc <;> rfl
    · cases capital <;> rfl

theorem fraction_append (s : Numeral.Spelling) {rest : List Char}
    (hrest : ∀ c ∈ rest.head?, Numeral.isDigit c = false) (hpoint : fraction rest = ([], rest)) :
    (∀ c ∈ (s.fractionText ++ rest).head?, Numeral.isDigit c = false) ∧
      fraction (s.fractionText ++ rest) = (s.fractionDigits, rest) := by
  rw [Numeral.Spelling.fractionText, Numeral.Spelling.fractionDigits]
  cases s.fraction with
  | none => exact ⟨hrest, hpoint⟩
  | some d =>
    refine ⟨?_, fraction_point d hrest⟩
    intro c hc
    cases hc
    rfl

theorem number?_append (s : Numeral.Spelling) {rest : List Char} (h : Detached rest) :
    number? (s.text ++ rest) = some (.signed false s.value, rest) := by
  obtain ⟨hhead, hpoint, hpower⟩ := power_append s h
  obtain ⟨hhead', hfraction⟩ := fraction_append s hhead hpoint
  have htext : s.text ++ rest = s.whole.chars ++ (s.fractionText ++ (s.powerText ++ rest)) := by
    simp only [Numeral.Spelling.text, List.append_assoc]
  rw [number?, htext, s.whole.digits_append hhead']
  split
  · next heq => exact (s.whole.ne_nil (congrArg Prod.fst heq)).elim
  · next heq =>
    cases heq
    simp only [hfraction, hpower]
    rfl

end Source

namespace Numeral

def DigitRun.ofNat (n : Nat) : DigitRun where
  chars := Nat.toDigits 10 n
  ne_nil := Nat.toDigits_ne_nil
  digits := by
    intro c hc
    have hdigit := Nat.isDigit_of_mem_toDigits (by decide) (by decide) hc
    simpa [Char.isDigit, isDigit, Char.le_def] using hdigit

theorem DigitRun.value_ofNat (n : Nat) : (ofNat n).value = n := Nat.ofDigitChars_ten_toDigits

theorem Power.value_natAbs {n : Int} {sign : Option Sign} (h : sign = some .minus ↔ n < 0)
    (capital : Bool) : (Power.mk capital sign (.ofNat n.natAbs)).value = n := by
  simp only [value, DigitRun.value_ofNat]
  split
  · have hneg := h.1 rfl
    omega
  · next hsign =>
    have hpos : ¬ n < 0 := fun hneg => hsign (h.2 hneg)
    omega

def Spelling.ofDecimal (d : Decimal) : Spelling where
  whole := .ofNat d.coefficient
  fraction := none
  power := some ⟨false, if d.exponent < 0 then some .minus else none, .ofNat d.exponent.natAbs⟩

theorem Spelling.decimal_ofDecimal (d : Decimal) : (ofDecimal d).decimal = d := by
  have hcoefficient : Decimal.natOfDigits ((ofDecimal d).whole.chars ++ []) = d.coefficient := by
    rw [List.append_nil]
    exact DigitRun.value_ofNat d.coefficient
  have hpower : (ofDecimal d).powerValue = d.exponent := Power.value_natAbs (by simp) false
  calc (ofDecimal d).decimal
      = ⟨Decimal.natOfDigits ((ofDecimal d).whole.chars ++ []), (ofDecimal d).powerValue - 0⟩ := rfl
    _ = d := by rw [hcoefficient, hpower, Int.sub_zero]

def Spelling.exact (m : Magnitude) : Spelling := ofDecimal (Decimal.exact m)

theorem Spelling.value_exact (m : Magnitude) : (exact m).value = m := by
  rw [exact, value, decimal_ofDecimal, Decimal.nearest_exact]

end Numeral

end Coercive
