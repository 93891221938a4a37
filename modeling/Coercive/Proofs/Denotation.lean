import Coercive.Proofs.Casts
import Coercive.Proofs.Matching
import Coercive.Proofs.Writing
import Coercive.Step

namespace Coercive

namespace Numeral

variable {m : Grammar.Mode} {cs : List Char} {ps : List Grammar.Pair}

/-- A text that the rule for numbers matches in full is the spelling of a number. -/
theorem exists_spelling_of_derives (h : Grammar.Derives m (.rule .number) cs (some (ps, []))) :
    ∃ s : Spelling, s.text = cs := by
  have hscan := Grammar.derives_number cs
  cases h with
  | rule h =>
    cases hnumber : Source.number? cs with
    | none =>
      rw [hnumber] at hscan
      cases h.unique hscan
    | some found =>
      obtain ⟨n, rest⟩ := found
      rw [hnumber] at hscan
      cases h.unique hscan
      obtain ⟨s, -, hcs⟩ := Source.exists_spelling_of_number? hnumber
      exact ⟨s, by rw [hcs, List.append_nil]⟩

/-- What every reader that rounds makes of the spelling of a number, directly and as a string. -/
theorem Spelling.read (s : Spelling) {decimal : Reader} (h : decimal.Rounds) :
    decimal s.text = some (.signed false s.value) ∧
      Number.ofTextThrough decimal (String.ofList s.text) = .ok (.signed false s.value) := by
  obtain ⟨m, hread, hround⟩ := h (s.literal none)
  rw [s.decimal_literal] at hround
  have hvalue : s.value = m := Decimal.nearest_of_value hround
  refine ⟨?_, ?_⟩
  · rw [Literal.text, s.unsignedText_literal] at hread
    rw [hvalue]
    exact hread
  · rw [hvalue]
    exact ofTextThrough_spelling h s false hround

end Numeral

def Style.singleQuoted : Style where
  quote _ := '\''
  quote_cases _ := .inl rfl
  numeral := .exact
  value_numeral := Numeral.Spelling.value_exact

section

variable {s : String} (h : ∀ c ∈ s.toList, Numeral.isLiteralPart c = true)

include h

theorem Source.quoted_literal : quoted '\'' s = '\'' :: (s.toList ++ ['\'']) := by
  have hescape : ∀ c ∈ s.toList, escape '\'' c = [c] := by
    intro c hc
    have hne : ∀ d, Numeral.isLiteralPart d = false → c ≠ d := by
      rintro d hd rfl
      rw [h c hc] at hd
      cases hd
    rw [escape, if_neg (not_or.2 ⟨hne _ rfl, hne _ rfl⟩), if_neg (hne _ rfl), if_neg (hne _ rfl),
      if_neg (hne _ rfl)]
  rw [quoted, List.flatMap_congr hescape, List.flatMap_singleton']

theorem Expr.parse_plus_string :
    Source.parse ("+'" ++ s ++ "'") = .ok (.unary .plus (.literal (.string s))) := by
  have hparse := Source.parse?_chars .singleQuoted (.unary .plus (.string s))
  have hchars : (unary .plus (literal (.string s))).chars .singleQuoted =
      '+' :: Source.quoted '\'' s := rfl
  have htext : ("+'" ++ s ++ "'").toList = '+' :: Source.quoted '\'' s := by
    rw [Source.quoted_literal h]
    simp
  rw [hchars, ← htext] at hparse
  exact Source.parse_eq_ok.2 hparse

theorem Expr.parse_call_string :
    Source.parse ("Number('" ++ s ++ "')") =
      .ok (.call (.name "Number") [.literal (.string s)]) := by
  have hname : (Expr.name "Number").WellFormed := .name (by decide) (by decide)
  have hparse := Source.parse?_chars .singleQuoted
    (.call hname fun a ha => List.mem_singleton.1 ha ▸ .string s)
  have hchars : (call (.name "Number") [literal (.string s)]).chars .singleQuoted =
      "Number(".toList ++ (Source.quoted '\'' s ++ [')']) := rfl
  have htext : ("Number('" ++ s ++ "')").toList =
      "Number(".toList ++ (Source.quoted '\'' s ++ [')']) := by
    rw [Source.quoted_literal h]
    simp
  rw [hchars, ← htext] at hparse
  exact Source.parse_eq_ok.2 hparse

end

/-- A text that the rule for numbers matches in full is read as the literal of the number that it
converts to as a string. Every reader that rounds makes the same number of it, directly and as a
string. To evaluate it, the string of it behind a plus sign, or the call that converts that string
gives this number and does nothing else. -/
theorem literal_denotes {s : String} {m : Grammar.Mode} {ps : List Grammar.Pair}
    (h : Grammar.Derives m (.rule .number) s.toList (some (ps, []))) :
    Source.parse s = .ok (.literal (.number (.ofText s))) ∧
      (∀ decimal : Numeral.Reader, decimal.Rounds →
        decimal s.toList = some (.ofText s) ∧ Number.ofTextThrough decimal s = .ok (.ofText s)) ∧
      ∀ (invoke : Invoker) (limit : Nat) (t : State),
        evaluate invoke s limit t = (.ok (.number (.ofText s)), t) ∧
          evaluate invoke ("+'" ++ s ++ "'") limit t = (.ok (.number (.ofText s)), t) ∧
          (t.scope.get? "Number" = none →
            evaluate invoke ("Number('" ++ s ++ "')") limit t =
              (.ok (.number (.ofText s)), t)) := by
  obtain ⟨sp, hsp⟩ := Numeral.exists_spelling_of_derives h
  have hparts : ∀ c ∈ s.toList, Numeral.isLiteralPart c = true := by
    rw [← hsp, ← sp.unsignedText_literal none]
    exact fun c hc => (sp.literal none).isLiteralPart_of_mem hc
  have hs : s = String.ofList sp.text := by rw [hsp, String.ofList_toList]
  have hvalue : Number.ofText s = .signed false sp.value := by
    obtain ⟨-, hread⟩ := sp.read Numeral.decimalReader_rounds
    rw [← hs, Numeral.ofTextThrough_decimalReader] at hread
    exact Except.ok.inj hread
  have hparse : Source.parse s = .ok (.literal (.number (.ofText s))) := by
    rw [hvalue, hs]
    exact Source.parse_number sp
  refine ⟨hparse, fun decimal hd => ?_, fun invoke limit t => ⟨?_, ?_, fun hscope => ?_⟩⟩
  · have hread := sp.read hd
    rwa [← hs, ← hvalue, hsp] at hread
  · rw [evaluate_of_parse hparse]
    rfl
  · rw [evaluate_of_parse (Expr.parse_plus_string hparts)]
    rfl
  · rw [evaluate_of_parse (Expr.parse_call_string hparts), Expr.eval_number hscope]
    rfl

theorem literal_denotes_overflow :
    let s := "007.50E+999"
    ∃ ps, Grammar.Derives .spaced (.rule .number) s.toList (some (ps, [])) ∧
      Source.parse s = .ok (.literal (.number .infinity)) ∧
      Numeral.namingReader.Rounds ∧
      Number.ofTextThrough Numeral.namingReader s = .ok .infinity ∧
      evaluate (invokeWithin 0) "+'007.50E+999'" 0 {} = (.ok (.number .infinity), {}) ∧
      evaluate (invokeWithin 0) "Number('007.50E+999')" 0 {} = (.ok (.number .infinity), {}) := by
  intro s
  have hinfinity : Number.ofText s = .infinity := by decide +kernel
  have hnumber : Source.number? s.toList = some (.infinity, []) := by decide +kernel
  obtain ⟨p, -, hderives⟩ := Grammar.derives_number_some hnumber
  obtain ⟨hparse, hread, heval⟩ := literal_denotes hderives
  obtain ⟨-, hplus, hcall⟩ := heval (invokeWithin 0) 0 {}
  rw [hinfinity] at hparse hread hplus hcall
  have hrounds := Numeral.namingReader_rounds
  exact ⟨_, hderives, hparse, hrounds, (hread _ hrounds).2, hplus, hcall rfl⟩

end Coercive
