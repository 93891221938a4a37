import Coercive.Numeral.Sliced
import Coercive.Proofs.Literals
import Coercive.Proofs.Nearest
import Coercive.Proofs.Radix

namespace Coercive

namespace Numeral

def infinityText (sign : Option Sign) : List Char :=
  sign.toList.map Sign.char ++ "Infinity".toList

/-- The texts that are numbers. -/
inductive Numeric : List Char → Prop where
  | empty : Numeric []
  | infinity (sign : Option Sign) : Numeric (infinityText sign)
  | radix (n : RadixNumeral) : Numeric n.text
  | decimal (l : Literal) : Numeric l.text

def isLiteralPart (c : Char) : Bool :=
  isDigit c || c == '+' || c == '-' || c == '.' || c == 'e' || c == 'E'

namespace Reader

/-- A reader takes the decimal literals, and no other text of their characters, for numbers. -/
structure Accepts (r : Reader) : Prop where
  isSome_iff {cs : List Char} :
    (∀ c ∈ cs, isLiteralPart c = true) → ((r cs).isSome ↔ ∃ l : Literal, l.text = cs)
  ne_nan {cs : List Char} : (∀ c ∈ cs, isLiteralPart c = true) → r cs ≠ some .nan

/-- A reader rounds decimal literals to nearest. -/
def Rounds (r : Reader) : Prop :=
  ∀ l : Literal, ∃ m : Magnitude,
    r l.text = some (.signed l.negative m) ∧ m.Rounds l.decimal.value

end Reader

theorem isLiteralPart_sign (s : Sign) : isLiteralPart s.char = true := by
  cases s <;> rfl

theorem DigitRun.isLiteralPart_of_mem {d : DigitRun} {c : Char} (hc : c ∈ d.chars) :
    isLiteralPart c = true := by
  simp [isLiteralPart, d.digits c hc]

theorem Power.isLiteralPart_of_mem {p : Power} {c : Char} (hc : c ∈ p.text) :
    isLiteralPart c = true := by
  obtain ⟨capital, sign, run⟩ := p
  rcases List.mem_cons.1 hc with rfl | hc
  · cases capital <;> rfl
  · rcases List.mem_append.1 hc with hc | hc
    · obtain ⟨s, -, rfl⟩ := List.mem_map.1 hc
      exact isLiteralPart_sign s
    · exact run.isLiteralPart_of_mem hc

theorem Literal.isLiteralPart_of_mem {l : Literal} {c : Char} (hc : c ∈ l.text) :
    isLiteralPart c = true := by
  obtain ⟨sign, mantissa, power⟩ := l
  rcases List.mem_append.1 hc with hc | hc
  · obtain ⟨s, -, rfl⟩ := List.mem_map.1 hc
    exact isLiteralPart_sign s
  rcases List.mem_append.1 hc with hc | hc
  · cases mantissa with
    | whole d => exact d.isLiteralPart_of_mem hc
    | pointed d f =>
      rcases List.mem_append.1 hc with hc | hc
      · exact d.isLiteralPart_of_mem hc
      · rcases List.mem_cons.1 hc with rfl | hc
        · rfl
        · cases f with
          | none => cases hc
          | some f => exact f.isLiteralPart_of_mem hc
    | fraction d =>
      rcases List.mem_cons.1 hc with rfl | hc
      · rfl
      · exact d.isLiteralPart_of_mem hc
  · cases power with
    | none => cases hc
    | some p => exact p.isLiteralPart_of_mem hc

theorem isLiteralPart_iff {c : Char} : isLiteralPart c = true ↔
    48 ≤ c.toNat ∧ c.toNat ≤ 57 ∨ c.toNat = 43 ∨ c.toNat = 45 ∨ c.toNat = 46 ∨ c.toNat = 101 ∨
      c.toNat = 69 := by
  have hchar : ∀ d : Char, c = d ↔ c.toNat = d.toNat := fun d => Char.toNat_inj.symm
  simp only [isLiteralPart, Bool.or_eq_true, isDigit_iff, beq_iff_eq, hchar, Char.reduceToNat,
    or_assoc]

theorem isLiteralByte_iff {b : UInt8} : isLiteralByte b = true ↔
    48 ≤ b.toNat ∧ b.toNat ≤ 57 ∨ b.toNat = 43 ∨ b.toNat = 45 ∨ b.toNat = 46 ∨ b.toNat = 101 ∨
      b.toNat = 69 := by
  simp only [isLiteralByte, Bool.or_eq_true, Bool.and_eq_true, decide_eq_true_eq, beq_iff_eq,
    UInt8.le_iff_toNat_le, ← UInt8.toNat_inj, or_assoc]
  rfl

theorem all_isLiteralByte (cs : List Char) :
    (Text.bytes cs).all isLiteralByte = cs.all isLiteralPart := by
  rw [Text.bytes, List.all_flatMap]
  congr 1
  funext c
  rw [Bool.eq_iff_iff, isLiteralPart_iff]
  by_cases hascii : c.toNat < 128
  · rw [Text.utf8EncodeChar_of_lt hascii]
    simp only [List.all_cons, List.all_nil, Bool.and_true, isLiteralByte_iff]
    rw [UInt8.toNat_ofNat_of_lt' (by show c.toNat < 256; omega)]
  · obtain ⟨lead, rest, hlead, hle⟩ := Text.exists_lead (Nat.le_of_not_lt hascii)
    rw [hlead, List.all_cons, Bool.and_eq_true, isLiteralByte_iff]
    omega

/-- What is neither empty nor infinity and does not announce a radix is left to a reader of decimal
numerals. -/
structure Plain (cs : List Char) : Prop where
  ne_nil : cs ≠ []
  ne_infinity (sign : Option Sign) : cs ≠ infinityText sign
  ne_radix (r : Radix) (capital : Bool) (ds : List Char) : cs ≠ '0' :: r.letter capital :: ds

/-- The kinds of texts that are told apart before a decimal numeral is read. -/
inductive Shape : List Char → Prop where
  | empty : Shape []
  | infinity (sign : Option Sign) : Shape (infinityText sign)
  | radix (r : Radix) (capital : Bool) (ds : List Char) : Shape ('0' :: r.letter capital :: ds)
  | plain {cs : List Char} (h : Plain cs) : Shape cs

theorem shape (cs : List Char) : Shape cs := by
  by_cases hne : cs = []
  · rw [hne]
    exact .empty
  by_cases hinfinity : ∃ sign, cs = infinityText sign
  · obtain ⟨sign, rfl⟩ := hinfinity
    exact .infinity sign
  by_cases hradix : ∃ (r : Radix) (capital : Bool) (ds : List Char),
      cs = '0' :: r.letter capital :: ds
  · obtain ⟨r, capital, ds, rfl⟩ := hradix
    exact .radix r capital ds
  exact .plain ⟨hne, fun sign h => hinfinity ⟨sign, h⟩, fun r capital ds h =>
    hradix ⟨r, capital, ds, h⟩⟩

section

variable {cs : List Char}

theorem Plain.not_infinity (h : Plain cs) :
    ¬ (cs = "Infinity".toList ∨ cs = "+Infinity".toList) ∧ cs ≠ "-Infinity".toList :=
  ⟨not_or.2 ⟨h.ne_infinity none, h.ne_infinity (some .plus)⟩, h.ne_infinity (some .minus)⟩

theorem readTrimmed_infinity (sign : Option Sign) :
    readTrimmed (infinityText sign) = .signed (sign == some .minus) .infinite := by
  rcases sign with _ | _ | _
  · exact (if_neg (by decide)).trans (if_pos (.inl rfl))
  · exact (if_neg (by decide)).trans (if_pos (.inr rfl))
  · unfold readTrimmed
    exact (if_neg (by decide)).trans ((if_neg (by decide)).trans (if_pos rfl))

theorem readTrimmed_radix (r : Radix) (capital : Bool) (ds : List Char) :
    readTrimmed ('0' :: r.letter capital :: ds) = readRadix r.base ds := by
  cases r <;> cases capital <;> rfl

theorem readTrimmed_plain (h : Plain cs) : readTrimmed cs = readDecimal cs := by
  obtain ⟨hplus, hminus⟩ := h.not_infinity
  unfold readTrimmed
  rw [if_neg (by simpa using h.ne_nil), if_neg hplus, if_neg hminus]
  split
  · exact absurd rfl (h.ne_radix .hexadecimal false _)
  · exact absurd rfl (h.ne_radix .hexadecimal true _)
  · exact absurd rfl (h.ne_radix .octal false _)
  · exact absurd rfl (h.ne_radix .octal true _)
  · exact absurd rfl (h.ne_radix .binary false _)
  · exact absurd rfl (h.ne_radix .binary true _)
  · rfl

theorem filter_largeDigit? {b : Nat} (hb : b ≤ 16) (c : Char) :
    (largeDigit? c).filter (· < b) = (Decimal.digitValue? c).filter (· < b) := by
  simp only [largeDigit?, Decimal.digitValue?, le_iff_toNat_le, Char.reduceToNat]
  split_ifs <;> simp [Option.filter_some] <;> omega

theorem foldSliced_eq (r : Radix) (cs : List Char) (acc : Number) :
    foldSliced r.base cs acc = .ok (foldRadix r.base cs acc) := by
  have hbase : 2 ≤ r.base ∧ r.base ≤ 16 := by cases r <;> decide
  induction cs generalizing acc with
  | nil => rfl
  | cons c cs ih =>
    have hdigit : toDigit c r.base = .ok ((Decimal.digitValue? c).filter (· < r.base)) := by
      rw [toDigit, if_pos ⟨hbase.1, by omega⟩, filter_largeDigit? hbase.2]
    rw [foldSliced, hdigit, foldRadix]
    cases Decimal.digitValue? c with
    | none => rfl
    | some d =>
      by_cases hlt : d < r.base
      · simp only [Option.filter_some, hlt, decide_true, if_true]
        exact ih _
      · simp only [Option.filter_some, hlt, decide_false, Bool.false_eq_true, if_false]
        rfl

theorem readSliced_infinity (decimal : Reader) (sign : Option Sign) :
    readSliced decimal (infinityText sign) = .ok (.signed (sign == some .minus) .infinite) := by
  rcases sign with _ | _ | _
  · exact (if_neg (by decide)).trans (if_pos (.inl rfl))
  · exact (if_neg (by decide)).trans (if_pos (.inr rfl))
  · unfold readSliced
    exact (if_neg (by decide)).trans ((if_neg (by decide)).trans (if_pos rfl))

theorem cutAt?_radix (r : Radix) (capital : Bool) (ds : List Char) :
    Text.cutAt? ('0' :: r.letter capital :: ds) 2 = some (['0', r.letter capital], ds) :=
  Text.cutAt?_eq_some_iff.2 ⟨rfl, by cases r <;> cases capital <;> decide⟩

theorem readSliced_radix (decimal : Reader) (r : Radix) (capital : Bool) (ds : List Char) :
    readSliced decimal ('0' :: r.letter capital :: ds) = .ok (readRadix r.base ds) := by
  have hprefix : slicedRadix? ('0' :: r.letter capital :: ds) = some r.base := by
    rw [slicedRadix?, cutAt?_radix]
    cases r <;> cases capital <;> rfl
  have hne : ¬ ('0' :: r.letter capital :: ds = "Infinity".toList ∨
      '0' :: r.letter capital :: ds = "+Infinity".toList) := by simp
  rw [readSliced, if_neg (by simp), if_neg hne, if_neg (by simp), hprefix]
  simp only [sliceFrom, cutAt?_radix, readRadix]
  show (if ds.isEmpty then pure .nan else foldSliced r.base ds .zero) = _
  split
  · rfl
  · exact foldSliced_eq r ds .zero

theorem slicedRadix?_plain (h : Plain cs) : slicedRadix? cs = none := by
  have hfront : ∀ r capital, (Text.cutAt? cs 2).map (·.1) ≠ some ['0', Radix.letter r capital] := by
    intro r capital hmap
    obtain ⟨⟨front, back⟩, hcut, rfl⟩ := Option.map_eq_some_iff.1 hmap
    exact h.ne_radix r capital back (Text.cutAt?_eq_some_iff.1 hcut).1
  unfold slicedRadix?
  split
  · exact absurd ‹_› (hfront .hexadecimal false)
  · exact absurd ‹_› (hfront .hexadecimal true)
  · exact absurd ‹_› (hfront .octal false)
  · exact absurd ‹_› (hfront .octal true)
  · exact absurd ‹_› (hfront .binary false)
  · exact absurd ‹_› (hfront .binary true)
  · rfl

theorem readSliced_plain (decimal : Reader) (h : Plain cs) :
    readSliced decimal cs =
      .ok (if cs.all isLiteralPart then (decimal cs).getD .nan else .nan) := by
  obtain ⟨hplus, hminus⟩ := h.not_infinity
  rw [readSliced, if_neg (by simpa using h.ne_nil), if_neg hplus, if_neg hminus,
    slicedRadix?_plain h, all_isLiteralByte]

end

theorem Literal.plain (l : Literal) : Plain l.text where
  ne_nil h := readDecimal_ne_nan_iff.2 ⟨l, rfl⟩ (by rw [h]; rfl)
  ne_infinity sign h := by
    have hpart : isLiteralPart 'I' = true :=
      l.isLiteralPart_of_mem (by rw [h]; exact List.mem_append_right _ List.mem_cons_self)
    cases hpart
  ne_radix r capital ds h := by
    have hpart : isLiteralPart (r.letter capital) = true :=
      l.isLiteralPart_of_mem (by rw [h]; exact List.mem_cons_of_mem _ List.mem_cons_self)
    cases r <;> cases capital <;> cases hpart

theorem readSliced_literal (decimal : Reader) (l : Literal) :
    readSliced decimal l.text = .ok ((decimal l.text).getD .nan) := by
  rw [readSliced_plain decimal l.plain,
    if_pos (List.all_eq_true.2 fun c hc => l.isLiteralPart_of_mem hc)]

theorem decimalReader_getD (cs : List Char) : (decimalReader cs).getD .nan = readDecimal cs := by
  rw [decimalReader]
  cases readDecimal cs <;> rfl

theorem decimalReader_text (l : Literal) :
    decimalReader l.text = some (.signed l.negative l.decimal.nearest) := by
  rw [decimalReader, readDecimal_text]

theorem decimalReader_accepts : decimalReader.Accepts where
  isSome_iff {cs} _ := by
    rw [← readDecimal_ne_nan_iff, decimalReader]
    cases readDecimal cs <;> simp
  ne_nan {cs} _ := by
    rw [decimalReader]
    cases readDecimal cs <;> simp

theorem decimalReader_rounds : decimalReader.Rounds := fun l =>
  ⟨l.decimal.nearest, decimalReader_text l, l.decimal.nearest_rounds⟩

theorem readSliced_decimalReader (cs : List Char) :
    readSliced decimalReader cs = .ok (readTrimmed cs) := by
  cases shape cs with
  | empty => rfl
  | infinity sign => rw [readSliced_infinity, readTrimmed_infinity]
  | radix r capital ds => rw [readSliced_radix, readTrimmed_radix]
  | plain h =>
    rw [readSliced_plain decimalReader h, readTrimmed_plain h, decimalReader_getD]
    split
    · rfl
    · next hparts =>
      by_contra hread
      obtain ⟨l, rfl⟩ := readDecimal_ne_nan_iff.1 fun h => hread (by rw [h])
      exact hparts (List.all_eq_true.2 fun c hc => l.isLiteralPart_of_mem hc)

theorem ofTextThrough_decimalReader (s : String) :
    Number.ofTextThrough decimalReader s = .ok (.ofText s) :=
  readSliced_decimalReader _

theorem readRadix_ne_nan_iff {r : Radix} {capital : Bool} {ds : List Char} :
    readRadix r.base ds ≠ .nan ↔ Numeric ('0' :: r.letter capital :: ds) := by
  constructor
  · intro h
    have hne : ds ≠ [] := by
      rintro rfl
      exact h rfl
    have hdigits : ∀ c ∈ ds, r.isDigit c = true := by
      by_contra hnot
      obtain ⟨c, hmem, hc⟩ : ∃ c ∈ ds, r.isDigit c = false := by simpa using hnot
      apply h
      rw [readRadix, if_neg (by simpa using hne)]
      exact foldRadix_of_not_digit hmem hc _
    exact .radix ⟨r, capital, ds, hne, hdigits⟩
  · intro h
    rw [← readTrimmed_radix r capital ds]
    generalize hcs : '0' :: r.letter capital :: ds = cs at h ⊢
    cases h with
    | empty => cases hcs
    | infinity sign =>
      rw [readTrimmed_infinity]
      exact Number.noConfusion
    | radix n =>
      rw [n.readTrimmed_text, Number.ofNat_eq]
      exact Number.noConfusion
    | decimal l => exact absurd hcs.symm (l.plain.ne_radix r capital ds)

/-- Reading by bytes does not panic, and it gives a number for the numeric texts alone when the
reader takes the decimal literals. -/
theorem readSliced_numeric (decimal : Reader) (cs : List Char) :
    ∃ n, readSliced decimal cs = .ok n ∧ (decimal.Accepts → (n ≠ .nan ↔ Numeric cs)) := by
  cases shape cs with
  | empty => exact ⟨.zero, rfl, fun _ => iff_of_true Number.noConfusion .empty⟩
  | infinity sign =>
    exact ⟨_, readSliced_infinity decimal sign, fun _ =>
      iff_of_true Number.noConfusion (.infinity sign)⟩
  | radix r capital ds =>
    exact ⟨_, readSliced_radix decimal r capital ds, fun _ => readRadix_ne_nan_iff⟩
  | plain hplain =>
    refine ⟨_, readSliced_plain decimal hplain, fun h => ⟨fun hnum => ?_, ?_⟩⟩
    · split at hnum
      · next hparts =>
        have hsome : (decimal cs).isSome := by
          cases hread : decimal cs with
          | none => exact absurd (by rw [hread]; rfl) hnum
          | some n => rfl
        obtain ⟨l, rfl⟩ := (h.isSome_iff (List.all_eq_true.1 hparts)).1 hsome
        exact .decimal l
      · exact absurd rfl hnum
    · intro hnumeric
      cases hnumeric with
      | empty => exact absurd rfl hplain.ne_nil
      | infinity sign => exact absurd rfl (hplain.ne_infinity sign)
      | radix n => exact absurd rfl (hplain.ne_radix n.radix n.capital n.digits)
      | decimal l =>
        have hparts : ∀ c ∈ l.text, isLiteralPart c = true := fun c hc => l.isLiteralPart_of_mem hc
        rw [if_pos (List.all_eq_true.2 hparts)]
        have hsome := (h.isSome_iff hparts).2 ⟨l, rfl⟩
        cases hread : decimal l.text with
        | none =>
          rw [hread] at hsome
          cases hsome
        | some n => exact fun hnan => h.ne_nan hparts (hread.trans (congrArg some hnan))

/-- A text is read as a number, and not as NaN, exactly when what is left of it without the blanks
at its ends is numeric. By its bytes it is read without a panic whatever reader takes the decimal
numerals, and with the same outcome if that reader takes the decimal literals. -/
theorem ofText_numeric :
    (∀ s : String, Number.ofText s ≠ .nan ↔ Numeric (Text.trim s.toList)) ∧
      ∀ (decimal : Reader) (s : String), ∃ n, Number.ofTextThrough decimal s = .ok n ∧
        (decimal.Accepts → (n ≠ .nan ↔ Numeric (Text.trim s.toList))) := by
  refine ⟨fun s => ?_, fun decimal s => readSliced_numeric decimal _⟩
  obtain ⟨n, hread, hnumeric⟩ := readSliced_numeric decimalReader (Text.trim s.toList)
  cases (ofTextThrough_decimalReader s).symm.trans hread
  exact hnumeric decimalReader_accepts

def namingReader : Reader := fun cs =>
  if cs = "inf".toList then some .infinity
  else if cs = "nan".toList then some .nan
  else decimalReader cs

theorem namingReader_eq {cs : List Char} (h : ∀ c ∈ cs, isLiteralPart c = true) :
    namingReader cs = decimalReader cs := by
  have hne : ∀ c name, isLiteralPart c = false → cs ≠ c :: name := by
    rintro c name hc rfl
    rw [h c List.mem_cons_self] at hc
    cases hc
  exact (if_neg (hne 'i' _ rfl)).trans (if_neg (hne 'n' _ rfl))

theorem namingReader_accepts : namingReader.Accepts where
  isSome_iff h := by rw [namingReader_eq h, decimalReader_accepts.isSome_iff h]
  ne_nan h := by
    rw [namingReader_eq h]
    exact decimalReader_accepts.ne_nan h

theorem namingReader_rounds : namingReader.Rounds := fun l => by
  rw [namingReader_eq fun c hc => l.isLiteralPart_of_mem hc]
  exact decimalReader_rounds l

theorem ofText_numeric_names :
    namingReader.Accepts ∧ namingReader "inf".toList = some .infinity ∧
      ¬ Numeric (Text.trim " inf".toList) ∧ ¬ Numeric (Text.trim "0é1".toList) ∧
      ∃ n, Number.ofTextThrough namingReader "\t+.5e3 " = .ok n ∧ n ≠ .nan := by
  have haccepts := namingReader_accepts
  obtain ⟨-, hthrough⟩ := ofText_numeric
  have hnot : ∀ s : String, Number.ofTextThrough namingReader s = .ok .nan →
      ¬ Numeric (Text.trim s.toList) := by
    intro s hs h
    obtain ⟨n, hread, hnumeric⟩ := hthrough namingReader s
    rw [hs] at hread
    cases hread
    exact (hnumeric haccepts).2 h rfl
  have hnumeric : Numeric (Text.trim "\t+.5e3 ".toList) :=
    .decimal ⟨some .plus, .fraction (.single '5' rfl), some ⟨false, none, .single '3' rfl⟩⟩
  refine ⟨haccepts, rfl, hnot " inf" (by decide), hnot "0é1" (by decide), ?_⟩
  obtain ⟨n, hread, hn⟩ := hthrough namingReader "\t+.5e3 "
  exact ⟨n, hread, (hn haccepts).2 hnumeric⟩

end Numeral

end Coercive
