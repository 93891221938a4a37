import Coercive.Numeral.Read
import Coercive.Proofs.Lexing

namespace Coercive.Numeral

/-- Digits with at most one point, on at least one side of it. -/
inductive Mantissa where
  | whole (d : DigitRun)
  | pointed (d : DigitRun) (fraction : Option DigitRun)
  | fraction (d : DigitRun)

namespace Mantissa

def wholeDigits : Mantissa → List Char
  | .whole d | .pointed d _ => d.chars
  | .fraction _ => []

def fractionDigits : Mantissa → List Char
  | .whole _ => []
  | .pointed _ f => f.elim [] DigitRun.chars
  | .fraction d => d.chars

def text : Mantissa → List Char
  | .whole d => d.chars
  | .pointed d f => d.chars ++ '.' :: f.elim [] DigitRun.chars
  | .fraction d => '.' :: d.chars

end Mantissa

structure Literal where
  sign : Option Sign
  mantissa : Mantissa
  power : Option Power

namespace Literal

def signText (l : Literal) : List Char := l.sign.toList.map Sign.char

def powerText (l : Literal) : List Char := l.power.elim [] Power.text

def unsignedText (l : Literal) : List Char := l.mantissa.text ++ l.powerText

def text (l : Literal) : List Char := l.signText ++ l.unsignedText

def negative (l : Literal) : Bool := l.sign == some .minus

def decimal (l : Literal) : Decimal :=
  Numeral.decimal l.mantissa.wholeDigits l.mantissa.fractionDigits (l.power.elim 0 Power.value)

end Literal

theorem unsigned?_eq {cs rest whole fraction : List Char} {n : Int}
    (hne : whole ≠ [] ∨ fraction ≠ [])
    (hdigits : digits cs = (whole, rest) ∧ rest.head? ≠ some '.' ∧ fraction = [] ∨
      ∃ tail, digits cs = (whole, '.' :: tail) ∧ digits tail = (fraction, rest))
    (hpower : rest = [] ∧ n = 0 ∨ power? rest = some (n, [])) :
    unsigned? cs = some (decimal whole fraction n) := by
  rcases hdigits with ⟨hcs, hpoint, rfl⟩ | ⟨tail, hcs, htail⟩
  · have hwhole : whole ≠ [] := by simpa using hne
    rw [unsigned?, hcs]
    rcases hpower with ⟨rfl, rfl⟩ | hpower
    · simp [hwhole]
    · cases rest with
      | nil => cases hpower
      | cons c rest =>
        have hc : c ≠ '.' := by simpa using hpoint
        simp [hwhole, hc, hpower]
  · have hempty : (whole.isEmpty && fraction.isEmpty) = false := by
      simpa [imp_iff_not_or] using hne
    rw [unsigned?, hcs]
    rcases hpower with ⟨rfl, rfl⟩ | hpower
    · simp [htail, hempty]
    · cases rest with
      | nil => cases hpower
      | cons c rest => simp [htail, hempty, hpower]

theorem head_powerText (l : Literal) : ∀ c ∈ l.powerText.head?, isDigit c = false ∧ c ≠ '.' := by
  obtain ⟨sign, mantissa, _ | ⟨capital, powerSign, run⟩⟩ := l
  · exact fun c hc => nomatch hc
  · rintro c ⟨⟩
    show isDigit (if capital then 'E' else 'e') = false ∧ (if capital then 'E' else 'e') ≠ '.'
    cases capital <;> decide

theorem unsigned?_text (l : Literal) : unsigned? l.unsignedText = some l.decimal := by
  have hhead : ∀ c ∈ l.powerText.head?, isDigit c = false := fun c hc => (head_powerText l c hc).1
  have hpoint : l.powerText.head? ≠ some '.' := fun h => (head_powerText l '.' h).2 rfl
  have hpower : l.powerText = [] ∧ l.power.elim 0 Power.value = 0 ∨
      power? l.powerText = some (l.power.elim 0 Power.value, []) := by
    rw [Literal.powerText]
    cases l.power with
    | none => exact .inl ⟨rfl, rfl⟩
    | some p =>
      have hread : power? (p.text ++ []) = some (p.value, []) := p.power?_append (by simp)
      rw [List.append_nil] at hread
      exact .inr hread
  rw [Literal.unsignedText, Literal.decimal]
  generalize l.powerText = rest at hhead hpoint hpower
  cases l.mantissa with
  | whole d => exact unsigned?_eq (.inl d.ne_nil) (.inl ⟨d.digits_append hhead, hpoint, rfl⟩) hpower
  | pointed d f =>
    refine unsigned?_eq (.inl d.ne_nil) (.inr ⟨f.elim [] DigitRun.chars ++ rest, ?_, ?_⟩) hpower
    · rw [Mantissa.text, List.append_assoc, List.cons_append]
      exact d.digits_append (by simp [isDigit])
    · cases f with
      | none => exact Prod.ext (cut_append (by simp) hhead).1 (cut_append (by simp) hhead).2
      | some f => exact f.digits_append hhead
  | fraction d =>
    exact unsigned?_eq (.inr d.ne_nil) (.inr ⟨d.chars ++ rest, rfl, d.digits_append hhead⟩) hpower

theorem readDecimal_text (l : Literal) :
    readDecimal l.text = .signed l.negative l.decimal.nearest := by
  have hread := unsigned?_text l
  obtain ⟨c, cs, hcons, hplus, hminus⟩ :
      ∃ c cs, l.unsignedText = c :: cs ∧ c ≠ '+' ∧ c ≠ '-' := by
    have hdigit : ∀ d : DigitRun, ∃ c cs, d.chars = c :: cs ∧ c ≠ '+' ∧ c ≠ '-' := fun d => by
      obtain ⟨c, cs, hcs, hc⟩ := d.exists_cons
      refine ⟨c, cs, hcs, ?_, ?_⟩ <;> rintro rfl <;> cases hc
    rw [Literal.unsignedText]
    cases l.mantissa with
    | whole d | pointed d f =>
      obtain ⟨c, cs, hcs, hc⟩ := hdigit d
      exact ⟨c, _, by rw [Mantissa.text, hcs]; rfl, hc⟩
    | fraction d => exact ⟨'.', _, rfl, by decide, by decide⟩
  rw [Literal.text, Literal.signText, Literal.negative]
  rw [hcons] at hread ⊢
  unfold readDecimal
  cases l.sign with
  | none => simp [hplus, hminus, hread]
  | some sign => cases sign <;> simp [Sign.char, hread]

variable {cs rest : List Char}

theorem exists_run {ds : List Char} (h : digits cs = (ds, rest)) :
    ds = [] ∧ cs = rest ∨ ∃ d : DigitRun, d.chars = ds ∧ cs = d.chars ++ rest := by
  by_cases hnil : ds = []
  · left
    obtain ⟨htake, hdrop⟩ := Prod.mk.inj h
    refine ⟨hnil, ?_⟩
    rw [← List.takeWhile_append_dropWhile (p := isDigit) (l := cs), htake, hdrop, hnil]
    rfl
  · exact .inr (exists_run_of_digits h hnil)

theorem exists_mantissa {whole fraction tail : List Char} (hcs : digits cs = (whole, tail))
    (hpoint : tail = rest ∧ fraction = [] ∨
      ∃ behind, tail = '.' :: behind ∧ digits behind = (fraction, rest))
    (hne : ¬ (whole = [] ∧ fraction = [])) :
    ∃ m : Mantissa, m.wholeDigits = whole ∧ m.fractionDigits = fraction ∧ cs = m.text ++ rest := by
  rcases hpoint with ⟨rfl, rfl⟩ | ⟨behind, rfl, hbehind⟩
  · obtain ⟨rfl, -⟩ | ⟨d, rfl, rfl⟩ := exists_run hcs
    · exact absurd ⟨rfl, rfl⟩ hne
    · exact ⟨.whole d, rfl, rfl, rfl⟩
  · obtain ⟨rfl, rfl⟩ | ⟨d, rfl, rfl⟩ := exists_run hcs <;>
      obtain ⟨rfl, rfl⟩ | ⟨f, rfl, rfl⟩ := exists_run hbehind
    · exact absurd ⟨rfl, rfl⟩ hne
    · exact ⟨.fraction f, rfl, rfl, rfl⟩
    · exact ⟨.pointed d none, rfl, rfl, by simp [Mantissa.text]⟩
    · exact ⟨.pointed d (some f), rfl, rfl, by simp [Mantissa.text]⟩

theorem exists_literal_of_unsigned? {d : Decimal} (h : unsigned? cs = some d)
    (sign : Option Sign) :
    ∃ l : Literal, l.sign = sign ∧ l.unsignedText = cs ∧ l.decimal = d := by
  rw [unsigned?] at h
  split at h
  next whole tail hwhole =>
  split at h
  next fraction rest hfraction =>
  have hpoint : tail = rest ∧ fraction = [] ∨
      ∃ behind, tail = '.' :: behind ∧ digits behind = (fraction, rest) := by
    split at hfraction
    · exact .inr ⟨_, rfl, hfraction⟩
    · cases hfraction
      exact .inl ⟨rfl, rfl⟩
  split at h
  · cases h
  · next hempty =>
    obtain ⟨m, rfl, rfl, rfl⟩ := exists_mantissa hwhole hpoint (by simpa using hempty)
    split at h
    · cases h
      exact ⟨⟨sign, m, none⟩, rfl, rfl, rfl⟩
    · split at h
      · next hpower =>
        cases h
        obtain ⟨p, rfl, rfl⟩ := exists_power_of_power? hpower
        exact ⟨⟨sign, m, some p⟩, rfl, by simp [Literal.unsignedText, Literal.powerText], rfl⟩
      · cases h

theorem exists_literal_of_readDecimal (h : readDecimal cs ≠ .nan) :
    ∃ l : Literal, l.text = cs := by
  have hread : ∀ (sign : Option Sign) (ds : List Char), unsigned? ds ≠ none →
      ∃ l : Literal, l.text = sign.toList.map Sign.char ++ ds := by
    intro sign ds hds
    obtain ⟨d, hd⟩ := Option.ne_none_iff_exists'.1 hds
    obtain ⟨l, rfl, rfl, -⟩ := exists_literal_of_unsigned? hd sign
    exact ⟨l, rfl⟩
  unfold readDecimal at h
  split at h
  · exact hread (some .plus) _ fun hd => h (by simp only [hd])
  · exact hread (some .minus) _ fun hd => h (by simp only [hd])
  · exact hread none _ fun hd => h (by simp only [hd])

/-- Decimal numerals are the texts of literals. -/
theorem readDecimal_ne_nan_iff : readDecimal cs ≠ .nan ↔ ∃ l : Literal, l.text = cs := by
  refine ⟨exists_literal_of_readDecimal, ?_⟩
  rintro ⟨l, rfl⟩
  rw [readDecimal_text]
  exact Number.noConfusion

def Spelling.literal (s : Spelling) (sign : Option Sign) : Literal where
  sign := sign
  mantissa :=
    match s.fraction with
    | none => .whole s.whole
    | some f => .pointed s.whole (some f)
  power := s.power

theorem Spelling.unsignedText_literal (s : Spelling) (sign : Option Sign) :
    (s.literal sign).unsignedText = s.text := by
  obtain ⟨whole, _ | f, power⟩ := s
  · rfl
  · simp [Literal.unsignedText, Literal.powerText, literal, Mantissa.text, text, fractionText,
      powerText]

theorem Spelling.decimal_literal (s : Spelling) (sign : Option Sign) :
    (s.literal sign).decimal = s.decimal := by
  obtain ⟨whole, _ | f, power⟩ := s <;> rfl

theorem Spelling.unsigned?_text (s : Spelling) : unsigned? s.text = some s.decimal := by
  rw [← s.unsignedText_literal none, Numeral.unsigned?_text, s.decimal_literal]

end Coercive.Numeral
