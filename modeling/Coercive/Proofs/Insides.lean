import Coercive.Proofs.Grammar
import Coercive.Proofs.Lexing

namespace Coercive.Grammar

open Source Peg

variable {m : Mode} {cs : List Char}

theorem Derives.behind {a b : Peg} {mid : List Char} {out : Outcome}
    (ha : Derives m a cs (some ([], mid))) (hb : Derives m b mid out) :
    Derives m (.seq a b) cs out := by
  cases out with
  | none => exact .seqRight ha hb
  | some found => exact .seq ha hb

theorem Derives.optional {a : Peg} {out : Outcome} (ha : Derives m a cs out) :
    Derives m (.opt a) cs (some (out.getD ([], cs))) := by
  cases out with
  | none => exact .missing ha
  | some found => exact .present ha

theorem derives_many_one (m : Mode) (p : Char → Bool) (cs : List Char) :
    Derives m (.many (.one p)) cs (some ([], cs.dropWhile p)) := by
  induction cs with
  | nil => exact .done (.oneFail (by simp))
  | cons c cs ih =>
    by_cases hc : p c = true
    · rw [List.dropWhile_cons_of_pos hc]
      exact .again (.one hc) ih
    · rw [List.dropWhile_cons_of_neg hc]
      exact .done (.oneFail (by simpa using hc))

theorem derives_blanks (cs : List Char) :
    Derives .atomic (.many (.rule .blank)) cs (some ([], cs.dropWhile isBlank)) := by
  induction cs with
  | nil => exact .done (.ruleFail (.oneFail (by simp)))
  | cons c cs ih =>
    by_cases hc : isBlank c = true
    · rw [List.dropWhile_cons_of_pos hc]
      exact .again (.rule (.one hc)) ih
    · rw [List.dropWhile_cons_of_neg hc]
      exact .done (.ruleFail (.oneFail (by simpa using hc)))

theorem derives_comment (cs : List Char) :
    Derives .atomic (.rule .comment) ('/' :: '/' :: cs)
      (some ([], cs.dropWhile (· != '\n'))) := by
  have hline : Derives .atomic (.many (.seq (.absent (.text ['\n'])) (.one fun _ => true))) cs
      (some ([], cs.dropWhile (· != '\n'))) := by
    induction cs with
    | nil => exact .done (.seqRight (.absent (.textFail (by simp))) (.oneFail (by simp)))
    | cons c cs ih =>
      by_cases hc : c = '\n'
      · subst hc
        exact .done (.seqLeft (.absentFail (.text rfl)))
      · rw [List.dropWhile_cons_of_pos (by simpa using hc)]
        exact .again (.seq (.absent (.textFail (by simpa using Ne.symm hc))) (.one rfl)) ih
  exact .rule (.seq (.text rfl) hline)

theorem skip_dropWhile_isBlank (cs : List Char) :
    skip false (cs.dropWhile isBlank) = skip false cs := by
  induction cs with
  | nil => rfl
  | cons c cs ih =>
    by_cases hc : isBlank c = true
    · rw [List.dropWhile_cons_of_pos hc, ih, skip, if_neg (by simp), if_pos hc]
    · rw [List.dropWhile_cons_of_neg hc]

theorem skip_dropWhile_line (cs : List Char) :
    skip false (cs.dropWhile (· != '\n')) = skip true cs := by
  induction cs with
  | nil => rfl
  | cons c cs ih =>
    by_cases hc : c = '\n'
    · subst hc
      rfl
    · have hinside : (c != '\n') = true := by simpa using hc
      rw [List.dropWhile_cons, if_pos hinside, ih, skip, if_pos rfl, hinside]

theorem skip_of_no_comment (hblank : ∀ c ∈ cs.head?, isBlank c = false)
    (hcomment : ¬ ['/', '/'] <+: cs) : skip false cs = cs := by
  cases cs with
  | nil => rfl
  | cons c cs =>
    have hc : ¬ isBlank c = true := by simpa using hblank
    have hslash : ¬ (c == '/' && cs.head? == some '/') = true := by
      simp only [Bool.and_eq_true, beq_iff_eq]
      rintro ⟨rfl, hcs⟩
      obtain ⟨tail, rfl⟩ := List.head?_eq_some_iff.1 hcs
      exact hcomment ⟨tail, rfl⟩
    rw [skip, if_neg (by simp), if_neg hc, if_neg hslash]

theorem derives_comments (n : Nat) {cs : List Char} (hn : cs.length ≤ n) :
    Derives .atomic (.many (.seq (.rule .comment) (.many (.rule .blank)))) (cs.dropWhile isBlank)
      (some ([], skip false cs)) := by
  -- a round takes a whole comment, so the induction is on a bound for the length
  induction n generalizing cs with
  | zero =>
    cases List.length_eq_zero_iff.1 (Nat.le_zero.1 hn)
    exact .done (.seqLeft (.ruleFail (.seqLeft (.textFail (by simp)))))
  | succ n ih =>
    have hdrop := (List.dropWhile_sublist isBlank (l := cs)).length_le
    rw [← skip_dropWhile_isBlank]
    by_cases hcomment : ['/', '/'] <+: cs.dropWhile isBlank
    · obtain ⟨tail, htail⟩ := hcomment
      rw [← htail] at hdrop ⊢
      have hskip : skip false (['/', '/'] ++ tail) = skip false (tail.dropWhile (· != '\n')) := by
        rw [skip_dropWhile_line]
        rfl
      have hshort : (tail.dropWhile (· != '\n')).length ≤ n := by
        have hline := (List.dropWhile_sublist (· != '\n') (l := tail)).length_le
        rw [List.length_append, List.length_cons, List.length_singleton] at hdrop
        omega
      rw [hskip]
      exact .again (.seq (derives_comment tail) (derives_blanks _)) (ih hshort)
    · have hblank : ∀ c ∈ (cs.dropWhile isBlank).head?, isBlank c = false := by
        intro c hc
        have hhead := List.head?_dropWhile_not isBlank cs
        rw [Option.mem_def.1 hc] at hhead
        simpa using hhead
      rw [skip_of_no_comment hblank hcomment]
      exact .done (.seqLeft (.ruleFail (.seqLeft (.textFail hcomment))))

/-- A gap is what the scanner skips. -/
theorem derives_gap (cs : List Char) : Derives .spaced .gap cs (some ([], skip false cs)) :=
  .gap (.seq (derives_blanks cs) (derives_comments cs.length (Nat.le_refl _)))

theorem derives_digits (m : Mode) (cs : List Char) :
    Derives m digits cs ((Numeral.nat? cs).map fun p => ([], p.2)) := by
  cases cs with
  | nil => exact .seqLeft (.oneFail (by simp))
  | cons c cs =>
    by_cases hc : Numeral.isDigit c = true
    · have hread : (Numeral.nat? (c :: cs)).map (fun p => (([] : List Pair), p.2)) =
          some ([], cs.dropWhile Numeral.isDigit) := by
        simp [Numeral.nat?, Numeral.digits, hc]
      rw [hread]
      exact .seq (.one hc) (derives_many_one m _ cs)
    · have hread : Numeral.nat? (c :: cs) = none := by
        simp [Numeral.nat?, Numeral.digits, hc]
      rw [hread]
      exact .seqLeft (.oneFail (by simpa using hc))

theorem derives_fraction (m : Mode) (cs : List Char) :
    Derives m (.opt (.seq (.text ['.']) digits)) cs (some ([], (fraction cs).2)) := by
  cases cs with
  | nil => exact .missing (.seqLeft (.textFail (by simp)))
  | cons c cs =>
    by_cases hc : c = '.'
    · subst hc
      have hpart : Derives m (.seq (.text ['.']) digits) ('.' :: cs) _ :=
        .behind (.text rfl) (derives_digits m cs)
      rw [fraction]
      rw [Numeral.nat?] at hpart
      generalize Numeral.digits cs = found at hpart ⊢
      rcases found with ⟨_ | ⟨d, ds⟩, rest⟩
      · exact hpart.optional
      · exact hpart.optional
    · have hnone : fraction (c :: cs) = ([], c :: cs) := by simp [fraction, hc]
      rw [hnone]
      exact .missing (.seqLeft (.textFail (by simpa using Ne.symm hc)))

theorem derives_signedInt (m : Mode) (cs : List Char) :
    Derives m (.seq (.opt (.alt (.text ['+']) (.text ['-']))) digits) cs
      ((Numeral.signedInt? cs).map fun p => ([], p.2)) := by
  unfold Numeral.signedInt?
  split
  · next rest =>
    rw [Option.map_map]
    exact .behind (.present (.first (.text rfl))) (derives_digits m rest)
  · next rest =>
    rw [Option.map_map]
    exact .behind (.present (.second (.textFail (by simp)) (.text rfl))) (derives_digits m rest)
  · next hplus hminus =>
    rw [Option.map_map]
    refine .behind (.missing (.second (.textFail ?_) (.textFail ?_))) (derives_digits m cs)
    · rintro ⟨tail, rfl⟩
      exact hplus tail rfl
    · rintro ⟨tail, rfl⟩
      exact hminus tail rfl

theorem derives_power (m : Mode) (cs : List Char) :
    Derives m (.opt (.seq (.one fun c => c == 'e' || c == 'E')
      (.seq (.opt (.alt (.text ['+']) (.text ['-']))) digits))) cs
      (some ([], ((Numeral.power? cs).getD (0, cs)).2)) := by
  have hpart : Derives m (.seq (.one fun c => c == 'e' || c == 'E')
      (.seq (.opt (.alt (.text ['+']) (.text ['-']))) digits)) cs
      ((Numeral.power? cs).map fun p => ([], p.2)) := by
    unfold Numeral.power?
    split
    · exact .behind (.one rfl) (derives_signedInt m _)
    · exact .behind (.one rfl) (derives_signedInt m _)
    · next hsmall hcapital =>
      apply Derives.seqLeft
      apply Derives.oneFail
      intro c hc
      obtain ⟨tail, rfl⟩ := List.head?_eq_some_iff.1 hc
      have hne : c ≠ 'e' ∧ c ≠ 'E' := by
        constructor
        · rintro rfl
          exact hsmall tail rfl
        · rintro rfl
          exact hcapital tail rfl
      simpa using hne
  cases hpower : Numeral.power? cs with
  | none | some found =>
    rw [hpower] at hpart
    exact hpart.optional

theorem derives_number (cs : List Char) :
    Derives .atomic Rule.number.body cs ((number? cs).map fun p => ([], p.2)) := by
  have hdigits := derives_digits .atomic cs
  rw [Numeral.nat?] at hdigits
  rw [number?]
  generalize Numeral.digits cs = found at hdigits ⊢
  rcases found with ⟨_ | ⟨d, ds⟩, rest⟩
  · exact .seqLeft hdigits
  · exact .behind hdigits (.behind (derives_fraction .atomic rest) (derives_power .atomic _))

section

variable {quote : Char}

theorem derives_quotedPart_plain {c : Char} (hc : c ≠ quote ∧ c ≠ '\\' ∧ c ≠ '\n')
    (m : Mode) (cs : List Char) : Derives m (quotedPart quote) (c :: cs) (some ([], cs)) := by
  obtain ⟨hquote, hback, hline⟩ := hc
  have hne : ∀ {d : Char}, c ≠ d → Derives m (.text [d]) (c :: cs) none := by
    intro d hd
    exact .textFail (by simpa using Ne.symm hd)
  have hstop : Derives m (.alt (.text [quote]) (.alt (.text ['\\']) (.text ['\n'])))
      (c :: cs) none :=
    .second (hne hquote) (.second (hne hback) (hne hline))
  exact .second (.seqLeft (hne hback)) (.behind (.absent hstop) (.one rfl))

theorem derives_quotedPart_escaped (m : Mode) (c : Char) (cs : List Char) :
    Derives m (quotedPart quote) ('\\' :: c :: cs) (some ([], cs)) :=
  .first (.seq (.text rfl) (.one rfl))

theorem derives_quotedPart_none (hquote : '\\' ≠ quote) (m : Mode)
    (h : cs = ['\\'] ∨ ∀ c ∈ cs.head?, c ≠ '\\' ∧ (c = quote ∨ c = '\n')) :
    Derives m (quotedPart quote) cs none := by
  have hne : ∀ {c d : Char} {tail : List Char}, c ≠ d → Derives m (.text [d]) (c :: tail) none := by
    intro c d tail hcd
    exact .textFail (by simpa using Ne.symm hcd)
  rcases h with rfl | h
  · exact .second (.seqRight (.text rfl) (.oneFail (by simp)))
      (.seqLeft (.absentFail (.second (hne hquote) (.first (.text rfl)))))
  · cases cs with
    | nil =>
      have hnil : ∀ d : Char, Derives m (.text [d]) [] none := fun d => .textFail (by simp)
      exact .second (.seqLeft (hnil _)) (.seqRight
        (.absent (.second (hnil _) (.second (hnil _) (hnil _)))) (.oneFail (by simp)))
    | cons c tail =>
      obtain ⟨hback, hstop⟩ := h c rfl
      refine .second (.seqLeft (hne hback)) (.seqLeft ?_)
      by_cases hc : c = quote
      · subst hc
        exact .absentFail (.first (.text rfl))
      · obtain rfl : c = '\n' := hstop.resolve_left hc
        exact .absentFail (.second (hne hc) (.second (hne hback) (.text rfl)))

/-- The inside of a string reaches up to the closing quote, if there is one. -/
theorem derives_quoted (hquote : '\\' ≠ quote) (m : Mode) (cs : List Char) :
    ∃ mid, Derives m (.many (quotedPart quote)) cs (some ([], mid)) ∧
      (match string? quote cs with
        | some (_, rest) => mid = quote :: rest
        | none => mid.head? ≠ some quote) := by
  fun_induction string? quote cs with
  | case1 => exact ⟨[], .done (derives_quotedPart_none hquote m (.inr (by simp))), by simp⟩
  | case2 c rest hc =>
    have hc : c = quote := eq_of_beq hc
    subst hc
    exact ⟨_, .done (derives_quotedPart_none hquote m (.inr (by simpa using Ne.symm hquote))), rfl⟩
  | case3 c hc hback =>
    have hback : c = '\\' := eq_of_beq hback
    subst hback
    exact ⟨_, .done (derives_quotedPart_none hquote m (.inl rfl)), by simpa using hquote⟩
  | case4 c hc hback d rest ih =>
    have hback : c = '\\' := eq_of_beq hback
    subst hback
    obtain ⟨mid, hmid, hstring⟩ := ih
    refine ⟨mid, .again (derives_quotedPart_escaped m d rest) hmid, ?_⟩
    cases hs : string? quote rest with
    | none | some found =>
      rw [hs] at hstring
      exact hstring
  | case5 c rest hc hback hline =>
    have hline : c = '\n' := eq_of_beq hline
    subst hline
    refine ⟨_, .done (derives_quotedPart_none hquote m (.inr (by simp))), ?_⟩
    simpa using hc
  | case6 c rest hc hback hline ih =>
    obtain ⟨mid, hmid, hstring⟩ := ih
    have hplain : c ≠ quote ∧ c ≠ '\\' ∧ c ≠ '\n' := by simp_all
    refine ⟨mid, .again (derives_quotedPart_plain hplain m rest) hmid, ?_⟩
    cases hs : string? quote rest with
    | none | some found =>
      rw [hs] at hstring
      exact hstring

end

end Coercive.Grammar
