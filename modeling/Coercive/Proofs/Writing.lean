import Coercive.Numeral.Write
import Coercive.Proofs.Composition
import Coercive.Proofs.Numeric

namespace Coercive

namespace Numeral

theorem natOfDigits_append_zeros (ds : List Char) (n : Nat) :
    Decimal.natOfDigits (ds ++ zeros n) = Decimal.natOfDigits ds * 10 ^ n :=
  calc Nat.ofDigitChars 10 (ds ++ zeros n) 0
      = Nat.ofDigitChars 10 (zeros n) (Nat.ofDigitChars 10 ds 0) := Nat.ofDigitChars_append 0
    _ = 10 ^ n * Nat.ofDigitChars 10 ds 0 := Nat.ofDigitChars_replicate_zero
    _ = Nat.ofDigitChars 10 ds 0 * 10 ^ n := Nat.mul_comm _ _

theorem natOfDigits_zeros_append (ds : List Char) (n : Nat) :
    Decimal.natOfDigits (zeros n ++ ds) = Decimal.natOfDigits ds :=
  calc Nat.ofDigitChars 10 (zeros n ++ ds) 0
      = Nat.ofDigitChars 10 ds (Nat.ofDigitChars 10 (zeros n) 0) := Nat.ofDigitChars_append 0
    _ = Nat.ofDigitChars 10 ds 0 := by
      rw [zeros, Nat.ofDigitChars_replicate_zero, Nat.mul_zero]

namespace Digits

structure Proper (d : Digits) : Prop where
  ne_nil : d.digits ≠ []
  digits : ∀ c ∈ d.digits, isDigit c = true

def value (d : Digits) : ℚ :=
  Decimal.natOfDigits d.digits * (10 : ℚ) ^ (d.point - d.digits.length)

theorem exists_zeros (cs : List Char) :
    ∃ n, cs = (cs.reverse.dropWhile (· == '0')).reverse ++ zeros n := by
  obtain ⟨n, hn⟩ : ∃ n, cs.reverse.takeWhile (· == '0') = zeros n := ⟨_, List.eq_replicate_iff.2
    ⟨rfl, fun c hc => eq_of_beq (List.all_eq_true.1 List.all_takeWhile c hc)⟩⟩
  refine ⟨n, ?_⟩
  calc cs = (cs.reverse.takeWhile (· == '0') ++ cs.reverse.dropWhile (· == '0')).reverse := by
        rw [List.takeWhile_append_dropWhile, List.reverse_reverse]
    _ = (cs.reverse.dropWhile (· == '0')).reverse ++ (cs.reverse.takeWhile (· == '0')).reverse :=
        List.reverse_append
    _ = (cs.reverse.dropWhile (· == '0')).reverse ++ zeros n := by
        rw [hn, zeros, List.reverse_replicate]

theorem ofDecimal_value {d : Decimal} (h : d.coefficient ≠ 0) :
    (ofDecimal d).Proper ∧ (ofDecimal d).value = d.value := by
  obtain ⟨n, hn⟩ := exists_zeros (Nat.toDigits 10 d.coefficient)
  have hcoefficient : Decimal.natOfDigits (ofDecimal d).digits * 10 ^ n = d.coefficient := by
    rw [← natOfDigits_append_zeros, ofDecimal, ← hn]
    exact Nat.ofDigitChars_ten_toDigits
  have hpoint : (ofDecimal d).point = (ofDecimal d).digits.length + n + d.exponent := by
    have hlength := congrArg List.length hn
    rw [List.length_append, zeros, List.length_replicate] at hlength
    rw [ofDecimal, hlength]
    push_cast
    ring
  refine ⟨⟨fun hnil => h ?_, fun c hc => ?_⟩, ?_⟩
  · rw [← hcoefficient, hnil]
    exact Nat.zero_mul _
  · have hmem : c ∈ Nat.toDigits 10 d.coefficient := by
      rw [hn]
      exact List.mem_append_left _ hc
    exact (DigitRun.ofNat d.coefficient).digits c hmem
  · rw [value, Decimal.value, ← hcoefficient, hpoint,
      show ∀ a b c : ℤ, a + b + c - a = b + c by intros; ring, zpow_add₀ (by norm_num),
      zpow_natCast]
    push_cast
    ring

theorem isDigit_zeros (n : Nat) : ∀ c ∈ zeros n, isDigit c = true := by
  intro c hc
  rw [List.eq_of_mem_replicate hc]
  rfl

variable {d : Digits}

theorem exists_spelling (whole fraction : List Char) (hne : whole ≠ [])
    (hwhole : ∀ c ∈ whole, isDigit c = true) (hfraction : ∀ c ∈ fraction, isDigit c = true)
    (power : Option Power) :
    ∃ s : Spelling,
      s.text = whole ++ ((if fraction = [] then [] else '.' :: fraction) ++
        power.elim [] Power.text) ∧
      s.decimal.value = Decimal.natOfDigits (whole ++ fraction) *
        (10 : ℚ) ^ (power.elim 0 Power.value - (fraction.length : ℤ)) := by
  by_cases hnil : fraction = []
  · refine ⟨⟨⟨whole, hne, hwhole⟩, none, power⟩, ?_, ?_⟩
    · rw [if_pos hnil]
      rfl
    · rw [hnil]
      rfl
  · refine ⟨⟨⟨whole, hne, hwhole⟩, some ⟨fraction, hnil, hfraction⟩, power⟩, ?_, rfl⟩
    rw [if_neg hnil]
    rfl

def writtenPower (n : Int) : Power :=
  ⟨false, some (if n < 0 then .minus else .plus), .ofNat n.natAbs⟩

theorem value_writtenPower (n : Int) : (writtenPower n).value = n :=
  Power.value_natAbs (by split <;> simp_all) false

theorem Proper.scientific (h : d.Proper) :
    ∃ s : Spelling, s.text = d.scientific ∧ s.decimal.value = d.value := by
  obtain ⟨ds, point⟩ := d
  obtain ⟨first, rest, rfl⟩ := List.exists_cons_of_ne_nil h.ne_nil
  obtain ⟨hfirst, hrest⟩ := List.forall_mem_cons.1 h.digits
  obtain ⟨s, htext, hvalue⟩ := exists_spelling [first] rest (List.cons_ne_nil first [])
    (by simpa using hfirst) hrest (some (writtenPower (point - 1)))
  have hsign : (writtenPower (point - 1)).text =
      'e' :: (if point - 1 < 0 then '-' else '+') :: Nat.toDigits 10 (point - 1).natAbs := by
    rw [writtenPower]
    split <;> rfl
  refine ⟨s, ?_, ?_⟩
  · rw [htext, Digits.scientific, Option.elim_some, hsign]
    cases rest <;> rfl
  · rw [hvalue, value, Option.elim_some, value_writtenPower]
    congr 2
    rw [List.length_cons]
    push_cast
    ring

/-- Digits in whatever layout are spelled, with the same value. -/
theorem Proper.layout (h : d.Proper) :
    ∃ s : Spelling, s.text = d.layout ∧ s.decimal.value = d.value := by
  have hpos : 0 < d.digits.length := List.length_pos_iff.2 h.ne_nil
  rw [Digits.layout, value]
  split_ifs with hwhole hpoint hfraction
  -- zeros up to the point, which is not written
  · obtain ⟨n, hn⟩ := Int.eq_ofNat_of_zero_le (show 0 ≤ d.point - d.digits.length by omega)
    obtain ⟨s, htext, hvalue⟩ := exists_spelling (d.digits ++ zeros n) [] (by simp [h.ne_nil])
      (List.forall_mem_append.2 ⟨h.digits, isDigit_zeros n⟩) (fun c hc => nomatch hc) none
    refine ⟨s, ?_, ?_⟩
    · rw [htext, hn]
      simp
    · rw [hvalue, List.append_nil, natOfDigits_append_zeros, hn]
      simp
  -- the point between two digits
  · have hlt : d.point.toNat < d.digits.length := by omega
    obtain ⟨s, htext, hvalue⟩ := exists_spelling (d.digits.take d.point.toNat)
      (d.digits.drop d.point.toNat) (by simp [h.ne_nil]; omega)
      (fun c hc => h.digits c (List.mem_of_mem_take hc))
      (fun c hc => h.digits c (List.mem_of_mem_drop hc)) none
    refine ⟨s, ?_, ?_⟩
    · rw [htext, if_neg (by simp; omega)]
      simp
    · rw [hvalue, List.take_append_drop, List.length_drop, Option.elim_none]
      congr 2
      omega
  -- zeros between the point and the digits
  · obtain ⟨n, hn⟩ := Int.eq_ofNat_of_zero_le (show 0 ≤ -d.point by omega)
    obtain ⟨s, htext, hvalue⟩ := exists_spelling ['0'] (zeros n ++ d.digits)
      (List.cons_ne_nil '0' []) (isDigit_zeros 1)
      (List.forall_mem_append.2 ⟨isDigit_zeros n, h.digits⟩) none
    refine ⟨s, ?_, ?_⟩
    · rw [htext, if_neg (by simp [h.ne_nil]), hn]
      simp
    · rw [hvalue, ← List.append_assoc, show ['0'] ++ zeros n = zeros (n + 1) from rfl,
        natOfDigits_zeros_append, Option.elim_none, List.length_append, zeros,
        List.length_replicate]
      congr 2
      push_cast
      omega
  · exact h.scientific

end Digits

end Numeral

theorem Decimal.nearest_shortest (m : Magnitude) : (shortest m).nearest = m := by
  rw [shortest]
  cases hfind : (List.range 17).findSome? fun (n : Nat) =>
      (neighbours m (leading m - n)).find? fun d => d.nearest == m with
  | none => exact nearest_exact m
  | some d =>
    obtain ⟨n, -, hn⟩ := List.exists_of_findSome?_eq_some hfind
    have hnearest := List.find?_some hn
    exact eq_of_beq hnearest

theorem Numeral.exists_writeMagnitude {m : Magnitude} (hzero : m ≠ .zero)
    (hfinite : m ≠ .infinite) :
    ∃ s : Spelling, writeMagnitude m = s.text ∧ m.Rounds s.decimal.value := by
  have hnearest := Decimal.nearest_shortest m
  have hcoefficient : (Decimal.shortest m).coefficient ≠ 0 := fun h => by
    rw [Decimal.nearest, if_pos h] at hnearest
    exact hzero hnearest.symm
  obtain ⟨hproper, hvalue⟩ := Digits.ofDecimal_value hcoefficient
  obtain ⟨s, htext, hspelled⟩ := hproper.layout
  refine ⟨s, ?_, ?_⟩
  · rw [writeMagnitude, if_neg (mt Magnitude.isZero_iff.1 hzero),
      if_neg (mt Magnitude.isInfinite_iff.1 hfinite), htext]
  · have hround := (Decimal.shortest m).nearest_rounds
    rwa [hnearest, ← hvalue, ← hspelled] at hround

namespace Numeral

abbrev Writer := Number → List Char

/-- A writer spells finite numbers, with a sign before negative ones, by decimals that round to
them. -/
structure Writer.Conforms (w : Writer) : Prop where
  nan : w .nan = "NaN".toList
  infinite (negative : Bool) :
    w (.signed negative .infinite) = (if negative then ['-'] else []) ++ "Infinity".toList
  finite (negative : Bool) {m : Magnitude} : m ≠ .zero → m ≠ .infinite →
    ∃ s : Spelling, w (.signed negative m) = (if negative then ['-'] else []) ++ s.text ∧
      m.Rounds s.decimal.value

theorem write_conforms : Writer.Conforms write where
  nan := rfl
  infinite negative := by
    have hnonzero : Magnitude.infinite ≠ .zero := by decide
    have hmagnitude : writeMagnitude .infinite = "Infinity".toList := by
      rw [writeMagnitude, if_neg (mt Magnitude.isZero_iff.1 hnonzero),
        if_pos (Magnitude.isInfinite_iff.2 rfl)]
    cases negative <;> rw [write, hmagnitude] <;> rfl
  finite negative {m} hzero hfinite := by
    obtain ⟨s, htext, hround⟩ := exists_writeMagnitude hzero hfinite
    refine ⟨s, ?_, hround⟩
    have hnonzero : m.isZero = false := by
      rw [← Bool.not_eq_true]
      exact mt Magnitude.isZero_iff.1 hzero
    rw [write, htext, hnonzero]
    cases negative <;> rfl

end Numeral

/-- Writes a number, zero apart, with a given writer. -/
def Number.textThrough (w : Numeral.Writer) (n : Number) : String :=
  if n.equal .zero then "0" else String.ofList (w n)

theorem Number.textThrough_write (n : Number) : n.textThrough Numeral.write = n.text := by
  rw [textThrough]
  split
  · next h =>
    obtain ⟨negative, rfl⟩ := equal_zero_iff.1 h
    cases negative <;> rfl
  · rfl

namespace Numeral

variable {decimal : Reader}

theorem ofTextThrough_trimmed {cs : List Char} (h : ∀ c ∈ cs, 0x21 ≤ c.toNat ∧ c.toNat ≤ 0x7e) :
    Number.ofTextThrough decimal (String.ofList cs) = readSliced decimal cs := by
  rw [Number.ofTextThrough, String.toList_ofList, Text.trim_of_forall]
  exact fun c hc => Text.isBlank_of_visible (h c hc).1 (h c hc).2

theorem ofTextThrough_literal (h : decimal.Rounds) (l : Literal) {m : Magnitude}
    (hm : m.Rounds l.decimal.value) :
    Number.ofTextThrough decimal (String.ofList l.text) = .ok (.signed l.negative m) := by
  obtain ⟨m', hread, hm'⟩ := h l
  rw [ofTextThrough_trimmed, readSliced_literal, hread, hm.unique hm']
  · rfl
  · intro c hc
    have hpart := isLiteralPart_iff.1 (l.isLiteralPart_of_mem hc)
    omega

theorem ofTextThrough_infinity (sign : Option Sign) :
    Number.ofTextThrough decimal (String.ofList (infinityText sign)) =
      .ok (.signed (sign == some .minus) .infinite) := by
  rw [ofTextThrough_trimmed, readSliced_infinity]
  have hvisible : (infinityText sign).all (fun c => 0x21 ≤ c.toNat && c.toNat ≤ 0x7e) = true := by
    rcases sign with _ | _ | _ <;> rfl
  intro c hc
  simpa using List.all_eq_true.1 hvisible c hc

theorem ofTextThrough_nan : Number.ofTextThrough decimal "NaN" = .ok .nan := rfl

end Numeral

namespace Source

theorem parse_number (s : Numeral.Spelling) :
    parse (String.ofList s.text) = .ok (.literal (.number (.signed false s.value))) := by
  have hscan := scan_number s detached_nil scan_nil
  rw [List.append_nil] at hscan
  exact parse_of_scan String.toList_ofList hscan
    ((row?_leaf rfl rfl false .nil).trans (closes_nil false _))

theorem parse_signed_number (sign : Sign) (s : Numeral.Spelling) :
    parse (String.ofList (sign.char :: s.text)) =
      .ok (.unary sign (.literal (.number (.signed false s.value)))) := by
  have hscan := scan_number s detached_nil scan_nil
  rw [List.append_nil] at hscan
  have hchain : row? false (.leaf (.operator sign.operator)
      (.leaf (.number (.signed false s.value)) .nil)) =
        some (.signed sign (.last (.literal (.number (.signed false s.value)))), []) := by
    rw [row?_sign, row?_leaf rfl rfl, closes_nil]
    rfl
  exact parse_of_scan String.toList_ofList (scan_sign sign hscan) hchain

end Source

/-- The text of a number is read back: as a string it gives an equal number, and as a source that of
a finite number is a literal, behind a minus sign for a negative one. -/
structure ReadsBack (n : Number) (text : String) (read : Number) : Prop where
  nan : n = .nan → read = .nan
  equal : n ≠ .nan → n.equal read = true
  zero (negative : Bool) : n = .signed negative .zero → read = .zero
  literal {m : Magnitude} : n = .signed false m → m ≠ .infinite →
    Source.parse text = .ok (.literal (.number n))
  negated {m : Magnitude} : n = .signed true m → m ≠ .infinite → m ≠ .zero →
    Source.parse text = .ok (.unary .minus (.literal (.number (.signed false m))))

namespace Numeral

def writtenSign (negative : Bool) : Option Sign := if negative then some .minus else none

theorem text_writtenSign (negative : Bool) :
    (writtenSign negative).toList.map Sign.char = if negative then ['-'] else [] := by
  cases negative <;> rfl

theorem writtenSign_eq_minus (negative : Bool) :
    (writtenSign negative == some .minus) = negative := by
  cases negative <;> rfl

variable {w : Writer} {decimal : Reader}

theorem ofTextThrough_spelling (h : decimal.Rounds) (s : Spelling) (negative : Bool) {m : Magnitude}
    (hm : m.Rounds s.decimal.value) :
    Number.ofTextThrough decimal (String.ofList ((if negative then ['-'] else []) ++ s.text)) =
      .ok (.signed negative m) := by
  have hread := ofTextThrough_literal h (s.literal (writtenSign negative))
    (by rwa [s.decimal_literal])
  rw [Literal.text, s.unsignedText_literal] at hread
  rw [← text_writtenSign]
  refine hread.trans ?_
  rw [Literal.negative, Spelling.literal, writtenSign_eq_minus]

theorem readsBack_spelling (s : Spelling) (negative : Bool) {m : Magnitude} (hzero : m ≠ .zero)
    (hm : m.Rounds s.decimal.value) :
    ReadsBack (.signed negative m) (String.ofList ((if negative then ['-'] else []) ++ s.text))
      (.signed negative m) := by
  have hvalue : s.value = m := Decimal.nearest_of_value hm
  constructor
  case nan => exact fun h => nomatch h
  case equal => exact fun _ => Number.equal_self negative m
  case zero =>
    intro _ h
    cases h
    exact absurd rfl hzero
  case literal =>
    intro _ h _
    cases h
    rw [← hvalue]
    exact Source.parse_number s
  case negated =>
    intro _ h _ _
    cases h
    rw [← hvalue]
    exact Source.parse_signed_number .minus s

def zeroSpelling : Spelling := ⟨.single '0' rfl, none, none⟩

theorem zero_rounds : Magnitude.zero.Rounds zeroSpelling.decimal.value := by
  have hround := zeroSpelling.decimal.nearest_rounds
  rwa [Decimal.nearest, if_pos (show zeroSpelling.decimal.coefficient = 0 from rfl)] at hround

theorem readsBack_zero (negative : Bool) : ReadsBack (.signed negative .zero) "0" .zero := by
  constructor
  case nan => exact fun h => nomatch h
  case equal => exact fun _ => Number.equal_zero_iff.2 ⟨negative, rfl⟩
  case zero => exact fun _ _ => rfl
  case literal =>
    intro _ h _
    cases h
    have hvalue : zeroSpelling.value = .zero := Decimal.nearest_of_value zero_rounds
    rw [← hvalue]
    exact Source.parse_number zeroSpelling
  case negated =>
    intro m h _ hzero
    cases h
    exact absurd rfl hzero

theorem readsBack_through (hw : w.Conforms) (hr : decimal.Rounds) (n : Number) :
    ∃ read, Number.ofTextThrough decimal (n.textThrough w) = .ok read ∧
      ReadsBack n (n.textThrough w) read := by
  rw [Number.textThrough]
  split
  · next hzero =>
    obtain ⟨negative, rfl⟩ := Number.equal_zero_iff.1 hzero
    exact ⟨.zero, ofTextThrough_spelling hr zeroSpelling false zero_rounds, readsBack_zero negative⟩
  · next hzero =>
    cases n with
    | nan =>
      refine ⟨.nan, ?_, fun _ => rfl, fun h => absurd rfl h, nofun, nofun, nofun⟩
      rw [hw.nan]
      exact ofTextThrough_nan
    | signed negative m =>
      have hm : m ≠ .zero := fun h => hzero (Number.equal_zero_iff.2 ⟨negative, by rw [h]⟩)
      refine ⟨.signed negative m, ?_⟩
      by_cases hfinite : m = .infinite
      · subst hfinite
        constructor
        · rw [hw.infinite, ← text_writtenSign, ← infinityText, ofTextThrough_infinity,
            writtenSign_eq_minus]
        · refine ⟨nofun, fun _ => Number.equal_self _ _, nofun, ?_, ?_⟩
          · intro _ h hfinite
            cases h
            exact absurd rfl hfinite
          · intro _ h hfinite
            cases h
            exact absurd rfl hfinite
      · obtain ⟨s, htext, hround⟩ := hw.finite negative hm hfinite
        rw [htext]
        exact ⟨ofTextThrough_spelling hr s negative hround, readsBack_spelling s negative hm hround⟩

/-- The text of every number is read back, and so it is with any writer that spells numbers which
round to them and any reader that rounds. -/
theorem text_reads_back :
    (∀ n : Number, ReadsBack n n.text (.ofText n.text)) ∧
      ∀ (w : Writer) (decimal : Reader), w.Conforms → decimal.Rounds → ∀ n : Number,
        ∃ read, Number.ofTextThrough decimal (n.textThrough w) = .ok read ∧
          ReadsBack n (n.textThrough w) read := by
  refine ⟨fun n => ?_, fun w decimal hw hr n => readsBack_through hw hr n⟩
  obtain ⟨read, hread, hback⟩ := readsBack_through write_conforms decimalReader_rounds n
  rw [Number.textThrough_write] at hread hback
  cases (ofTextThrough_decimalReader n.text).symm.trans hread
  exact hback

theorem text_reads_back_least :
    let least : Number := .signed true ⟨1, by decide⟩
    Writer.Conforms write ∧ namingReader.Rounds ∧ least.textThrough write = "-5e-324" ∧
      ∃ read, Number.ofTextThrough namingReader (least.textThrough write) = .ok read ∧
        ReadsBack least (least.textThrough write) read := by
  intro least
  have htext : least.textThrough write = "-5e-324" := by decide +kernel
  exact ⟨write_conforms, namingReader_rounds, htext,
    text_reads_back.2 write namingReader write_conforms namingReader_rounds least⟩

end Numeral

end Coercive
