import Coercive.Proofs.Lexeme

namespace Coercive.Source

/-- The characters that are part of no token outside a string. -/
def ends : List Char := [' ', '\t', '\r', '\n', '\x7d']

theorem forall_ends {q : Char → Prop} (h : q ' ' ∧ q '\t' ∧ q '\r' ∧ q '\n' ∧ q '\x7d') :
    ∀ c ∈ ends, q c := by
  simpa [ends] using h

/-- A text that continues no token. -/
def Closed (k : List Char) : Prop := ∀ c ∈ k.head?, c ∈ ends

namespace Closed

theorem nil : Closed [] := by simp [Closed]

theorem cons {c : Char} (hc : c ∈ ends) (cs : List Char) : Closed (c :: cs) := by
  simpa [Closed] using hc

theorem cases {k : List Char} (h : Closed k) :
    k = [] ∨ ∃ c rest, k = c :: rest ∧ (c = ' ' ∨ c = '\t' ∨ c = '\r' ∨ c = '\n' ∨ c = '\x7d') := by
  cases k with
  | nil => exact .inl rfl
  | cons c rest => exact .inr ⟨c, rest, rfl, by simpa [ends] using h c rfl⟩

end Closed

section

variable {k k' : List Char}

theorem cut_closed {p : Char → Bool} (hp : ∀ c ∈ ends, p c = false) (hk : Closed k)
    (pre : List Char) :
    (pre ++ k).takeWhile p = pre.takeWhile p ∧ (pre ++ k).dropWhile p = pre.dropWhile p ++ k := by
  induction pre with
  | nil =>
    cases k with
    | nil => exact ⟨rfl, rfl⟩
    | cons c rest => simp [hp c (hk c rfl)]
  | cons c pre ih => by_cases hc : p c = true <;> simp [hc, ih]

theorem digits_closed (hk : Closed k) (pre : List Char) :
    Numeral.digits (pre ++ k) = ((Numeral.digits pre).1, (Numeral.digits pre).2 ++ k) := by
  obtain ⟨htake, hdrop⟩ := cut_closed (p := Numeral.isDigit) (forall_ends (by decide)) hk pre
  rw [Numeral.digits, htake, hdrop]
  rfl

theorem nat?_closed (hk : Closed k) (pre : List Char) :
    Numeral.nat? (pre ++ k) = (Numeral.nat? pre).map fun (n, rest) => (n, rest ++ k) := by
  simp only [Numeral.nat?, digits_closed hk pre]
  rcases Numeral.digits pre with ⟨_ | ⟨d, ds⟩, rest⟩ <;> rfl

theorem signedInt?_closed (hk : Closed k) (pre : List Char) :
    Numeral.signedInt? (pre ++ k) =
      (Numeral.signedInt? pre).map fun (n, rest) => (n, rest ++ k) := by
  have hplain : ∀ cs : List Char, cs.head? ≠ some '+' → cs.head? ≠ some '-' →
      Numeral.signedInt? cs = (Numeral.nat? cs).map fun (n, rest) => ((n : Int), rest) := by
    intro cs hplus hminus
    unfold Numeral.signedInt?
    split
    · exact (hplus rfl).elim
    · exact (hminus rfl).elim
    · rfl
  cases pre with
  | nil => rcases hk.cases with rfl | ⟨c, rest, rfl, rfl | rfl | rfl | rfl | rfl⟩ <;> rfl
  | cons c pre =>
    by_cases hplus : c = '+'
    · subst hplus
      simp [Numeral.signedInt?, nat?_closed hk, Function.comp_def]
    · by_cases hminus : c = '-'
      · subst hminus
        simp [Numeral.signedInt?, nat?_closed hk, Function.comp_def]
      · rw [hplain (c :: pre ++ k) (by simpa using hplus) (by simpa using hminus),
          hplain (c :: pre) (by simpa using hplus) (by simpa using hminus), nat?_closed hk]
        simp [Function.comp_def]

theorem power?_closed (hk : Closed k) (pre : List Char) :
    Numeral.power? (pre ++ k) = (Numeral.power? pre).map fun (n, rest) => (n, rest ++ k) := by
  cases pre with
  | nil => rcases hk.cases with rfl | ⟨c, rest, rfl, rfl | rfl | rfl | rfl | rfl⟩ <;> rfl
  | cons c pre =>
    by_cases hc : c = 'e' ∨ c = 'E'
    · rcases hc with rfl | rfl <;> exact signedInt?_closed hk pre
    · rw [not_or] at hc
      simp [Numeral.power?, hc.1, hc.2]

theorem fraction_closed (hk : Closed k) (pre : List Char) :
    fraction (pre ++ k) = ((fraction pre).1, (fraction pre).2 ++ k) := by
  cases pre with
  | nil => rcases hk.cases with rfl | ⟨c, rest, rfl, rfl | rfl | rfl | rfl | rfl⟩ <;> rfl
  | cons c pre =>
    by_cases hc : c = '.'
    · subst hc
      simp only [List.cons_append, fraction, digits_closed hk pre]
      rcases Numeral.digits pre with ⟨_ | ⟨d, ds⟩, rest⟩ <;> rfl
    · simp [fraction, hc]

theorem number?_closed (hk : Closed k) (pre : List Char) :
    number? (pre ++ k) = (number? pre).map fun (n, rest) => (n, rest ++ k) := by
  simp only [number?, digits_closed hk pre]
  rcases Numeral.digits pre with ⟨_ | ⟨d, ds⟩, rest⟩
  · rfl
  · simp only [fraction_closed hk rest, power?_closed hk]
    cases Numeral.power? (fraction rest).2 <;> rfl

def operatorStarts : List Char := ['=', '!', '<', '>', '+', '-', '*', '/', '%']

theorem operator?_of_not_start {c : Char} (hc : c ∉ operatorStarts) (cs : List Char) :
    operator? (c :: cs) = none := by
  simp_all [operatorStarts, operator?]

theorem operator?_single {cs : List Char} (hnext : ∀ d ∈ cs.head?, d ≠ '=' ∧ d ≠ '*') (c : Char) :
    operator? (c :: cs) = (operator? [c]).map fun (op, _) => (op, cs) := by
  have hpair : ∀ rest, cs ≠ '=' :: rest ∧ cs ≠ '*' :: rest := by
    refine fun rest => ⟨?_, ?_⟩ <;> rintro rfl
    · exact (hnext _ rfl).1 rfl
    · exact (hnext _ rfl).2 rfl
  by_cases hc : c ∈ operatorStarts
  · simp only [operatorStarts, List.mem_cons, List.not_mem_nil, or_false] at hc
    rcases hc with rfl | rfl | rfl | rfl | rfl | rfl | rfl | rfl | rfl <;> simp [operator?, hpair]
  · rw [operator?_of_not_start hc, operator?_of_not_start hc]
    rfl

theorem operator?_closed (hk : Closed k) (pre : List Char) :
    operator? (pre ++ k) = (operator? pre).map fun (op, rest) => (op, rest ++ k) := by
  have hnext : ∀ d ∈ k.head?, d ≠ '=' ∧ d ≠ '*' := by
    have hends : ∀ d ∈ ends, d ≠ '=' ∧ d ≠ '*' := forall_ends (by decide)
    exact fun d hd => hends d (hk d hd)
  rcases pre with _ | ⟨c, _ | ⟨d, pre⟩⟩
  · rcases hk.cases with rfl | ⟨c, rest, rfl, rfl | rfl | rfl | rfl | rfl⟩ <;> rfl
  · rw [List.singleton_append, operator?_single hnext, @operator?_single [] (by simp)]
    simp [Function.comp_def]
  · by_cases hd : d = '=' ∨ d = '*'
    · by_cases hc : c ∈ operatorStarts
      · simp only [operatorStarts, List.mem_cons, List.not_mem_nil, or_false] at hc
        rcases hd with rfl | rfl <;>
          rcases hc with rfl | rfl | rfl | rfl | rfl | rfl | rfl | rfl | rfl <;> rfl
      · rw [operator?_of_not_start hc, List.cons_append, operator?_of_not_start hc]
        rfl
    · have hother : ∀ rest : List Char, ∀ d' ∈ (d :: rest).head?, d' ≠ '=' ∧ d' ≠ '*' := by
        rintro rest d' ⟨⟩
        exact not_or.1 hd
      rw [List.cons_append, List.cons_append, operator?_single (hother _),
        operator?_single (hother _)]
      simp [Function.comp_def]

end

theorem string?_body {quote : Char} (hquote : '\\' ≠ quote) {cs content rest : List Char}
    (h : string? quote cs = some (content, rest)) :
    ∃ body, cs = body ++ rest ∧ ∀ k, string? quote (body ++ k) = some (content, k) := by
  fun_induction string? quote cs generalizing content with
  | case1 | case3 | case5 => cases h
  | case2 c tail hc =>
    cases h
    rw [eq_of_beq hc]
    exact ⟨[quote], rfl, string?_close quote⟩
  | case4 c _ hb d tail ih =>
    obtain ⟨⟨content, rest⟩, hs, heq⟩ := Option.map_eq_some_iff.1 h
    cases heq
    obtain ⟨body, rfl, hbody⟩ := ih hs
    rw [eq_of_beq hb]
    exact ⟨'\\' :: d :: body, rfl, fun k => by
      rw [List.cons_append, List.cons_append, string?_backslash hquote, hbody k]; rfl⟩
  | case6 c tail hc hb hn ih =>
    obtain ⟨⟨content, rest⟩, hs, heq⟩ := Option.map_eq_some_iff.1 h
    cases heq
    obtain ⟨body, rfl, hbody⟩ := ih hs
    have hplain : c ≠ quote ∧ c ≠ '\\' ∧ c ≠ '\n' :=
      ⟨by simpa using hc, by simpa using hb, by simpa using hn⟩
    exact ⟨c :: body, rfl, fun k => by rw [List.cons_append, string?_plain hplain, hbody k]; rfl⟩

section

variable {k k' : List Char}

theorem token?_closed (hk : Closed k) (hk' : Closed k') {pre rest : List Char} {t : Token}
    (h : token? (pre ++ k) = some (t, rest ++ k)) : token? (pre ++ k') = some (t, rest ++ k') := by
  cases pre with
  | nil => rcases hk.cases with rfl | ⟨c, tail, rfl, rfl | rfl | rfl | rfl | rfl⟩ <;> cases h
  | cons c cs =>
    by_cases hc : c ∈ marks
    · simp only [marks, List.mem_cons, List.not_mem_nil, or_false] at hc
      rcases hc with rfl | rfl | rfl | rfl | rfl | rfl <;> simp_all [token?]
    · rw [List.cons_append, token?_cons hc] at h ⊢
      split at h
      · next hquote =>
        rw [if_pos hquote]
        have hback : '\\' ≠ c := by rintro rfl; simp at hquote
        obtain ⟨⟨content, rest'⟩, hs, heq⟩ := Option.map_eq_some_iff.1 h
        cases heq
        obtain ⟨body, hcs, hbody⟩ := string?_body hback hs
        rw [← List.append_assoc, List.append_left_inj] at hcs
        rw [hcs, List.append_assoc, hbody]
        rfl
      · next hquote =>
        rw [if_neg hquote]
        split at h
        · next hword =>
          rw [if_pos hword]
          obtain ⟨htake, hdrop⟩ := cut_closed (p := isWordPart) (forall_ends (by decide)) hk cs
          obtain ⟨htake', hdrop'⟩ := cut_closed (p := isWordPart) (forall_ends (by decide)) hk' cs
          rw [htake, hdrop] at h
          rw [htake', hdrop']
          simp_all
        · next hword =>
          rw [if_neg hword]
          split at h
          · next hdigit =>
            rw [if_pos hdigit]
            rw [← List.cons_append, number?_closed hk] at h
            rw [← List.cons_append, number?_closed hk']
            simpa using h
          · next hdigit =>
            rw [if_neg hdigit]
            rw [← List.cons_append, operator?_closed hk] at h
            rw [← List.cons_append, operator?_closed hk']
            simpa using h

/-- Skipping stops inside a text, or goes on behind it in or outside a comment. -/
theorem skip_append (comment : Bool) (pre : List Char) :
    (∃ rest, rest ≠ [] ∧ ∀ k, Closed k → skip comment (pre ++ k) = rest ++ k) ∨
      ∃ within, ∀ k, Closed k → skip comment (pre ++ k) = skip within k := by
  induction pre generalizing comment with
  | nil => exact .inr ⟨comment, fun _ _ => rfl⟩
  | cons c pre ih =>
    by_cases hcomment : comment = true
    · subst hcomment
      exact ih (c != '\n')
    · by_cases hblank : isBlank c = true
      · simpa [skip, hcomment, hblank] using ih false
      · by_cases hslash : c = '/' ∧ pre.head? = some '/'
        · obtain ⟨rfl, hhead⟩ := hslash
          simpa [skip, hcomment, hblank, List.head?_append, hhead] using ih true
        · -- No closed text makes a single slash at the end a comment.
          have hk : ∀ k, Closed k → ¬ (c = '/' ∧ (pre ++ k).head? = some '/') := by
            rintro k hk ⟨hc, hhead⟩
            cases pre with
            | nil => exact absurd (hk _ hhead) (by decide)
            | cons => exact hslash ⟨hc, hhead⟩
          refine .inl ⟨c :: pre, by simp, fun k hclosed => ?_⟩
          have := hk k hclosed
          simp only [List.cons_append, skip, hcomment, hblank]
          simp_all

end

theorem skip_suffix (comment : Bool) (cs : List Char) : skip comment cs <:+ cs := by
  fun_induction skip comment cs with
  | case1 => exact List.suffix_refl _
  | case2 _ _ ih => exact ih.trans (List.suffix_cons _ _)
  | case3 _ _ _ _ _ ih => exact ih.trans (List.suffix_cons _ _)
  | case4 _ _ _ _ _ _ ih => exact ih.trans (List.suffix_cons _ _)
  | case5 => exact List.suffix_refl _

theorem digits_suffix {cs ds rest : List Char} (h : Numeral.digits cs = (ds, rest)) :
    rest <:+ cs := by
  cases h
  exact List.dropWhile_suffix _

theorem nat?_suffix {cs rest : List Char} {n : Nat} (h : Numeral.nat? cs = some (n, rest)) :
    rest <:+ cs := by
  unfold Numeral.nat? at h
  split at h
  · cases h
  · next heq =>
    cases h
    exact digits_suffix heq

theorem signedInt?_suffix {cs rest : List Char} {n : Int}
    (h : Numeral.signedInt? cs = some (n, rest)) : rest <:+ cs := by
  unfold Numeral.signedInt? at h
  split at h <;> obtain ⟨⟨m, tail⟩, hm, heq⟩ := Option.map_eq_some_iff.1 h <;> cases heq
  · exact (nat?_suffix hm).trans (List.suffix_cons _ _)
  · exact (nat?_suffix hm).trans (List.suffix_cons _ _)
  · exact nat?_suffix hm

theorem power?_suffix {cs rest : List Char} {n : Int} (h : Numeral.power? cs = some (n, rest)) :
    rest <:+ cs := by
  unfold Numeral.power? at h
  split at h
  · exact (signedInt?_suffix h).trans (List.suffix_cons _ _)
  · exact (signedInt?_suffix h).trans (List.suffix_cons _ _)
  · cases h

theorem fraction_suffix (cs : List Char) : (fraction cs).2 <:+ cs := by
  unfold fraction
  split
  · next rest =>
    split
    · exact List.suffix_refl _
    · next heq => exact (digits_suffix heq).trans (List.suffix_cons _ _)
  · exact List.suffix_refl _

theorem number?_suffix {cs rest : List Char} {n : Number} (h : number? cs = some (n, rest)) :
    rest <:+ cs := by
  unfold number? at h
  split at h
  · cases h
  · next whole tail _ heq =>
    have hfraction := (fraction_suffix tail).trans (digits_suffix heq)
    simp only [Option.some.injEq, Prod.mk.injEq] at h
    rw [← h.2]
    cases hp : Numeral.power? (fraction tail).2 with
    | none => exact hfraction
    | some p => exact (power?_suffix hp).trans hfraction

theorem operator?_suffix {cs rest : List Char} {op : Operator}
    (h : operator? cs = some (op, rest)) : rest <:+ cs := by
  unfold operator? at h
  split at h <;> cases h
  all_goals first
    | exact List.suffix_cons _ _
    | exact (List.suffix_cons _ _).trans (List.suffix_cons _ _)

theorem token?_suffix {cs rest : List Char} {t : Token} (h : token? cs = some (t, rest)) :
    rest <:+ cs := by
  cases cs with
  | nil => cases h
  | cons c cs =>
    by_cases hc : c ∈ marks
    · simp only [marks, List.mem_cons, List.not_mem_nil, or_false] at hc
      rcases hc with rfl | rfl | rfl | rfl | rfl | rfl <;> cases h <;> exact List.suffix_cons _ _
    · rw [token?_cons hc] at h
      split at h
      · next hquote =>
        obtain ⟨⟨content, tail⟩, hs, heq⟩ := Option.map_eq_some_iff.1 h
        cases heq
        have hback : '\\' ≠ c := by rintro rfl; simp at hquote
        obtain ⟨body, rfl, _⟩ := string?_body hback hs
        exact (List.suffix_append body _).trans (List.suffix_cons _ _)
      · split at h
        · cases h
          exact (List.dropWhile_suffix _).trans (List.suffix_cons _ _)
        · split at h <;> obtain ⟨⟨x, tail⟩, hx, heq⟩ := Option.map_eq_some_iff.1 h <;> cases heq
          · exact number?_suffix hx
          · exact operator?_suffix hx

theorem scan_suffix (cs : List Char) : (scan cs).2 <:+ cs := by
  fun_induction scan cs with
  | case1 => exact skip_suffix false _
  | case2 cs t rest h ts stop hscan ih =>
    rw [hscan] at ih
    exact ih.trans ((token?_suffix h).trans (skip_suffix false cs))

/-- The end of a text can be exchanged if scanning stops right before it. Where a skip that leaves
all of it leaves of the other end what stands before `next`, the tokens of `next` follow. -/
theorem scan_closed {k k' : List Char} (next : List Char) (hk : Closed k) (hk' : Closed k')
    (hskip : ∀ comment, skip comment k = k → skip comment k' = skip false next)
    {pre : List Char} {ts : List Token} (h : scan (pre ++ k) = (ts, k)) :
    scan (pre ++ k') = (ts ++ (scan next).1, (scan next).2) := by
  induction hlength : pre.length using Nat.strongRecOn generalizing pre ts with
  | _ n ih =>
    rw [scan_eq] at h ⊢
    rcases skip_append false pre with ⟨rest, hrest, happend⟩ | ⟨within, hwithin⟩
    · rw [happend k hk] at h
      rw [happend k' hk']
      cases htoken : token? (rest ++ k) with
      | none =>
        rw [htoken] at h
        simp_all
      | some p =>
        obtain ⟨t, tail⟩ := p
        rw [htoken] at h
        obtain ⟨hts, hscan⟩ := Prod.mk.inj h
        obtain ⟨pre', rfl⟩ : k <:+ tail := hscan ▸ scan_suffix tail
        have hshorter : pre'.length < n := by
          have htail := length_token?_lt htoken
          have hle := length_skip_le false (pre ++ k)
          rw [happend k hk] at hle
          simp only [List.length_append] at htail hle
          omega
        rw [token?_closed hk hk' htoken]
        have hrun := ih _ hshorter (Prod.ext rfl hscan) rfl
        simp only [hrun, ← hts, List.cons_append]
    · rw [hwithin k hk] at h
      rw [hwithin k' hk']
      cases htoken : token? (skip within k) with
      | none =>
        rw [htoken] at h
        obtain ⟨hts, hwhole⟩ := Prod.mk.inj h
        rw [hskip within hwhole, ← hts, List.nil_append, ← scan_eq]
      | some p =>
        -- A token that is read from `k` itself takes some of it.
        obtain ⟨t, tail⟩ := p
        rw [htoken] at h
        have hlt := length_token?_lt htoken
        have hle := length_skip_le within k
        have hscan := length_scan_le tail
        rw [(Prod.mk.inj h).2] at hscan
        omega

theorem scan_line {cs : List Char} {ts : List Token} (h : scan cs = (ts, []))
    (rest : List Char) : scan (cs ++ '\n' :: rest) = (ts ++ (scan rest).1, (scan rest).2) := by
  have hline : Closed ('\n' :: rest) := .cons (by decide) rest
  apply scan_closed rest .nil hline
  · intro comment _
    cases comment <;> rfl
  · rwa [List.append_nil]

end Coercive.Source
