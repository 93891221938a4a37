import Coercive.Proofs.Layout

namespace Coercive

namespace Numeral

variable {cs rest : List Char}

theorem exists_run_of_digits {ds : List Char} (h : digits cs = (ds, rest)) (hne : ds ≠ []) :
    ∃ d : DigitRun, d.chars = ds ∧ cs = d.chars ++ rest := by
  obtain ⟨rfl, rfl⟩ := Prod.mk.inj h
  exact ⟨⟨_, hne, List.all_eq_true.1 List.all_takeWhile⟩, rfl,
    List.takeWhile_append_dropWhile.symm⟩

theorem exists_run_of_nat? {n : Nat} (h : nat? cs = some (n, rest)) :
    ∃ d : DigitRun, d.value = n ∧ cs = d.chars ++ rest := by
  unfold nat? at h
  split at h
  · cases h
  · next ds tail hne hdigits =>
    cases h
    obtain ⟨d, rfl, hcs⟩ := exists_run_of_digits hdigits (fun hnil => hne hnil)
    exact ⟨d, rfl, hcs⟩

theorem exists_sign_of_signedInt? {n : Int} (h : signedInt? cs = some (n, rest)) :
    ∃ (sign : Option Sign) (d : DigitRun),
      (Power.mk false sign d).value = n ∧ cs = sign.toList.map Sign.char ++ (d.chars ++ rest) := by
  unfold signedInt? at h
  split at h <;> obtain ⟨⟨m, tail⟩, hm, heq⟩ := Option.map_eq_some_iff.1 h <;> cases heq <;>
    obtain ⟨d, rfl, rfl⟩ := exists_run_of_nat? hm
  · exact ⟨some .plus, d, rfl, rfl⟩
  · exact ⟨some .minus, d, rfl, rfl⟩
  · exact ⟨none, d, rfl, rfl⟩

theorem exists_power_of_power? {n : Int} (h : power? cs = some (n, rest)) :
    ∃ p : Power, p.value = n ∧ cs = p.text ++ rest := by
  unfold power? at h
  split at h
  · obtain ⟨sign, d, hn, rfl⟩ := exists_sign_of_signedInt? h
    exact ⟨⟨false, sign, d⟩, hn, by simp [Power.text, Power.letter]⟩
  · obtain ⟨sign, d, hn, rfl⟩ := exists_sign_of_signedInt? h
    exact ⟨⟨true, sign, d⟩, hn, by simp [Power.text, Power.letter]⟩
  · cases h

end Numeral

namespace Source

variable {cs rest : List Char}

theorem exists_run_of_fraction {ds : List Char} (h : fraction cs = (ds, rest)) :
    ∃ f : Option Numeral.DigitRun, f.elim [] Numeral.DigitRun.chars = ds ∧
      cs = f.elim [] (fun d => '.' :: d.chars) ++ rest := by
  unfold fraction at h
  split at h
  · next tail =>
    split at h
    · cases h
      exact ⟨none, rfl, rfl⟩
    · next ds' tail' hne hdigits =>
      cases h
      obtain ⟨d, rfl, rfl⟩ := Numeral.exists_run_of_digits hdigits (fun hnil => hne hnil)
      exact ⟨some d, rfl, rfl⟩
  · cases h
    exact ⟨none, rfl, rfl⟩

theorem exists_power_of_getD {n : Int} (h : (Numeral.power? cs).getD (0, cs) = (n, rest)) :
    ∃ p : Option Numeral.Power, p.elim 0 Numeral.Power.value = n ∧
      cs = p.elim [] Numeral.Power.text ++ rest := by
  cases hpower : Numeral.power? cs with
  | none =>
    rw [hpower] at h
    cases h
    exact ⟨none, rfl, rfl⟩
  | some q =>
    rw [hpower, Option.getD_some] at h
    obtain ⟨p, hn, hcs⟩ := Numeral.exists_power_of_power? (hpower.trans (congrArg some h))
    exact ⟨some p, hn, hcs⟩

theorem exists_spelling_of_number? {n : Number} (h : number? cs = some (n, rest)) :
    ∃ s : Numeral.Spelling, n = .signed false s.value ∧ cs = s.text ++ rest := by
  unfold number? at h
  split at h
  · cases h
  · next whole tail hne hdigits =>
    obtain ⟨w, rfl, rfl⟩ := Numeral.exists_run_of_digits hdigits (fun hnil => hne hnil)
    obtain ⟨⟨ds, tail'⟩, hfraction⟩ : ∃ p, fraction tail = p := ⟨_, rfl⟩
    obtain ⟨⟨n', rest'⟩, hpower⟩ :
        ∃ p, (Numeral.power? tail').getD (0, tail') = p := ⟨_, rfl⟩
    obtain ⟨f, rfl, rfl⟩ := exists_run_of_fraction hfraction
    obtain ⟨p, rfl, rfl⟩ := exists_power_of_getD hpower
    simp only [hfraction, hpower, Option.some.injEq, Prod.mk.injEq] at h
    obtain ⟨rfl, rfl⟩ := h
    refine ⟨⟨w, f, p⟩, rfl, ?_⟩
    simp only [Numeral.Spelling.text, Numeral.Spelling.fractionText, Numeral.Spelling.powerText,
      List.append_assoc]

theorem exists_parts_of_string? {quote : Char} {content : List Char}
    (h : string? quote cs = some (content, rest)) :
    ∃ parts : List (StringPart quote), content = parts.map StringPart.value ∧
      cs = parts.flatMap StringPart.text ++ quote :: rest := by
  fun_induction string? quote cs generalizing content with
  | case1 | case3 | case5 => cases h
  | case2 c tail hc =>
    cases h
    exact ⟨[], rfl, by rw [eq_of_beq hc]; rfl⟩
  | case4 c _ hb d tail ih =>
    obtain ⟨⟨content, rest⟩, hs, heq⟩ := Option.map_eq_some_iff.1 h
    cases heq
    obtain ⟨parts, rfl, rfl⟩ := ih hs
    exact ⟨.escaped d :: parts, rfl, by rw [eq_of_beq hb]; rfl⟩
  | case6 c tail hc hb hn ih =>
    obtain ⟨⟨content, rest⟩, hs, heq⟩ := Option.map_eq_some_iff.1 h
    cases heq
    obtain ⟨parts, rfl, rfl⟩ := ih hs
    exact ⟨.plain c ⟨by simpa using hc, by simpa using hb, by simpa using hn⟩ :: parts, rfl, rfl⟩

theorem text_of_operator? {op : Operator} (h : operator? cs = some (op, rest)) :
    cs = op.text ++ rest := by
  unfold operator? at h
  split at h <;> cases h <;> rfl

theorem isIdentifier_takeWhile {c : Char} (hc : isWordStart c = true) (cs : List Char) :
    isIdentifier (String.ofList (c :: cs.takeWhile isWordPart)) = true := by
  simp only [isIdentifier, String.toList_ofList, hc, List.all_takeWhile, Bool.and_self]

/-- A token that is scanned is written in front of the rest. -/
theorem exists_lexeme_of_token? {t : Token} (h : token? cs = some (t, rest)) :
    ∃ l : Lexeme, l.token? = some t ∧ cs = l.text ++ rest := by
  cases cs with
  | nil => cases h
  | cons c cs =>
    by_cases hmark : c ∈ marks
    · simp only [marks, List.mem_cons, List.not_mem_nil, or_false] at hmark
      rcases hmark with rfl | rfl | rfl | rfl | rfl | rfl <;> cases h
      · exact ⟨.dot, rfl, rfl⟩
      · exact ⟨.comma, rfl, rfl⟩
      · exact ⟨.opening .round, rfl, rfl⟩
      · exact ⟨.closing .round, rfl, rfl⟩
      · exact ⟨.opening .square, rfl, rfl⟩
      · exact ⟨.closing .square, rfl, rfl⟩
    · rw [token?_cons hmark] at h
      split at h
      · next hquote =>
        obtain ⟨⟨content, tail⟩, hs, heq⟩ := Option.map_eq_some_iff.1 h
        cases heq
        obtain ⟨parts, rfl, rfl⟩ := exists_parts_of_string? hs
        have hcases : c = '\'' ∨ c = '"' := by simpa using hquote
        exact ⟨.string ⟨c, hcases, parts⟩, rfl, by simp [Lexeme.text, Quotation.text]⟩
      · split at h
        · next hstart =>
          cases h
          refine ⟨.word _ (isIdentifier_takeWhile hstart cs), rfl, ?_⟩
          rw [Lexeme.text, String.toList_ofList, List.cons_append, List.takeWhile_append_dropWhile]
        · split at h <;> obtain ⟨⟨x, tail⟩, hx, heq⟩ := Option.map_eq_some_iff.1 h <;> cases heq
          · obtain ⟨s, rfl, htext⟩ := exists_spelling_of_number? hx
            exact ⟨.number s, rfl, htext⟩
          · exact ⟨.operator x, rfl, text_of_operator? hx⟩

end Source

end Coercive
