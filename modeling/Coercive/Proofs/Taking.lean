import Coercive.Proofs.Choosing

namespace Coercive.Grammar

open Source Peg

variable {a b : Peg} {r : Rule} {cs mid rest : List Char} {ps qs : List Pair}

theorem skip_skip (comment : Bool) (cs : List Char) :
    skip false (skip comment cs) = skip comment cs := by
  fun_induction skip comment cs <;> simp_all [skip]

/-- No gap stands at the front of the text. -/
def Clean (cs : List Char) : Prop := skip false cs = cs

theorem clean_skip (cs : List Char) : Clean (skip false cs) := skip_skip false cs

/-- A part leaves the given pairs and, behind it and a gap, the given rest. -/
def Takes (a : Peg) (cs : List Char) (ps : List Pair) (rest : List Char) : Prop :=
  ∃ left, Derives .spaced a cs (some (ps, left)) ∧ skip false left = rest

def Fails (a : Peg) (cs : List Char) : Prop := Derives .spaced a cs none

namespace Takes

theorem clean (h : Takes a cs ps rest) : Clean rest := by
  obtain ⟨left, -, rfl⟩ := h
  exact clean_skip left

theorem length_le (h : Takes a cs ps rest) : rest.length ≤ cs.length := by
  obtain ⟨left, hleft, rfl⟩ := h
  exact Nat.le_trans (length_skip_le false left) hleft.suffix.length_le

theorem not_fails (h : Takes a cs ps rest) : ¬ Fails a cs := by
  obtain ⟨left, hleft, -⟩ := h
  intro hfail
  cases hleft.unique hfail

theorem of_derives {left : List Char} (h : Takes a cs ps rest)
    (hderives : Derives .spaced a cs (some (qs, left))) : ps = qs ∧ skip false left = rest := by
  obtain ⟨left', hleft, rfl⟩ := h
  cases hleft.unique hderives
  exact ⟨rfl, rfl⟩

end Takes

theorem derives_before {left : List Char} :
    Derives .spaced (a.before b) cs (some (ps, left)) ↔
      ∃ qs mid rs, Takes a cs qs mid ∧ Derives .spaced b mid (some (rs, left)) ∧ ps = qs ++ rs := by
  constructor
  · intro hseq
    cases hseq with
    | seq ha hb =>
      cases hb with
      | seq hgap hb =>
        cases hgap.unique (derives_gap _)
        exact ⟨_, _, _, ⟨_, ha, rfl⟩, hb, rfl⟩
  · rintro ⟨qs, mid, rs, ⟨left, ha, rfl⟩, hb, rfl⟩
    exact .seq ha (.seq (derives_gap left) hb)

theorem takes_before :
    Takes (a.before b) cs ps rest ↔
      ∃ qs mid rs, Takes a cs qs mid ∧ Takes b mid rs rest ∧ ps = qs ++ rs := by
  constructor
  · rintro ⟨left, hseq, rfl⟩
    obtain ⟨qs, mid, rs, ha, hb, rfl⟩ := derives_before.1 hseq
    exact ⟨qs, mid, rs, ha, ⟨left, hb, rfl⟩, rfl⟩
  · rintro ⟨qs, mid, rs, ha, ⟨left, hb, rfl⟩, rfl⟩
    exact ⟨left, derives_before.2 ⟨qs, mid, rs, ha, hb, rfl⟩, rfl⟩

theorem Fails.before (h : Fails a cs) : Fails (a.before b) cs := .seqLeft h

theorem Fails.behind (ha : Takes a cs ps mid) (hb : Fails b mid) : Fails (a.before b) cs := by
  obtain ⟨left, ha, rfl⟩ := ha
  exact .seqRight ha (.seqRight (derives_gap left) hb)

theorem takes_alt :
    Takes (.alt a b) cs ps rest ↔ Takes a cs ps rest ∨ Fails a cs ∧ Takes b cs ps rest := by
  constructor
  · rintro ⟨left, halt, rfl⟩
    cases halt with
    | first ha => exact .inl ⟨left, ha, rfl⟩
    | second ha hb => exact .inr ⟨ha, left, hb, rfl⟩
  · rintro (⟨left, ha, rfl⟩ | ⟨ha, left, hb, rfl⟩)
    · exact ⟨left, .first ha, rfl⟩
    · exact ⟨left, .second ha hb, rfl⟩

theorem takes_opt (hcs : Clean cs) :
    Takes (.opt a) cs ps rest ↔ Takes a cs ps rest ∨ Fails a cs ∧ ps = [] ∧ rest = cs := by
  constructor
  · rintro ⟨left, hopt, rfl⟩
    cases hopt with
    | present ha => exact .inl ⟨left, ha, rfl⟩
    | missing ha => exact .inr ⟨ha, rfl, hcs⟩
  · rintro (⟨left, ha, rfl⟩ | ⟨ha, rfl, rfl⟩)
    · exact ⟨left, .present ha, rfl⟩
    · exact ⟨_, .missing ha, hcs⟩

theorem takes_text {t : List Char} :
    Takes (.text t) cs ps rest ↔ ps = [] ∧ ∃ left, cs = t ++ left ∧ skip false left = rest := by
  constructor
  · rintro ⟨left, htext, rfl⟩
    cases htext with
    | text h => exact ⟨rfl, left, h, rfl⟩
  · rintro ⟨rfl, left, rfl, rfl⟩
    exact ⟨left, .text rfl, rfl⟩

theorem length_lt_of_text {c : Char} {t : List Char} (h : Takes (.text (c :: t)) cs ps rest) :
    rest.length < cs.length := by
  obtain ⟨-, left, rfl, rfl⟩ := takes_text.1 h
  have := length_skip_le false left
  simp only [List.length_append, List.length_cons]
  omega

theorem fails_text {c : Char} (h : cs.head? ≠ some c) : Fails (.text [c]) cs := by
  apply Derives.textFail
  rintro ⟨tail, rfl⟩
  exact h rfl

/-- A part takes a text as often as it matches. -/
inductive Repeats (a : Peg) : List Char → List Pair → List Char → Prop where
  | stop {cs : List Char} (h : Fails a cs) : Repeats a cs [] cs
  | step {cs mid rest : List Char} {ps qs : List Pair} (ha : Takes a cs ps mid)
      (hrest : Repeats a mid qs rest) : Repeats a cs (ps ++ qs) rest

theorem Repeats.clean (h : Repeats a cs ps rest) (hcs : Clean cs) : Clean rest := by
  induction h with
  | stop => exact hcs
  | step ha _ ih => exact ih ha.clean

theorem repeats_of_many {left : List Char}
    (h : Derives .spaced (.many (.seq .gap a)) cs (some (ps, left))) :
    Repeats a (skip false cs) ps (skip false left) := by
  -- by induction on the derivation, in which each round takes the gap in front of its part
  generalize hmode : Mode.spaced = m at h
  generalize hpeg : Peg.many (.seq .gap a) = peg at h
  generalize hout : some (ps, left) = out at h
  induction h generalizing ps left with
  | done ha =>
    cases hmode
    cases hpeg
    cases hout
    apply Repeats.stop
    cases ha with
    | seqLeft hgap => cases hgap.unique (derives_gap _)
    | seqRight hgap ha =>
      cases hgap.unique (derives_gap _)
      exact ha
  | again ha hrest _ ih =>
    cases hmode
    cases hpeg
    cases hout
    cases ha with
    | seq hgap ha =>
      cases hgap.unique (derives_gap _)
      exact .step ⟨_, ha, rfl⟩ (ih rfl rfl rfl)
  | gap | noGap | one | oneFail | text | textFail | rule | ruleFail | seq | seqLeft | seqRight
  | first | second | present | missing | absent | absentFail => cases hpeg

theorem many_of_repeats (h : Repeats a cs ps rest) {left : List Char}
    (hleft : skip false left = cs) :
    ∃ left', Derives .spaced (.many (.seq .gap a)) left (some (ps, left')) ∧
      skip false left' = rest := by
  induction h generalizing left with
  | stop ha =>
    subst hleft
    exact ⟨left, .done (.seqRight (derives_gap left) ha), rfl⟩
  | step ha _ ih =>
    subst hleft
    obtain ⟨mid, ha, rfl⟩ := ha
    obtain ⟨left', hmany, hrest⟩ := ih rfl
    exact ⟨left', .again (.seq (derives_gap left) ha) hmany, hrest⟩

theorem takes_repeated (hcs : Clean cs) :
    Takes (repeated a) cs ps rest ↔ Repeats a cs ps rest := by
  constructor
  · intro h
    rcases (takes_opt hcs).1 h with ⟨left, hseq, rfl⟩ | ⟨ha, rfl, rfl⟩
    · cases hseq with
      | seq ha hmany => exact .step ⟨_, ha, rfl⟩ (repeats_of_many hmany)
    · apply Repeats.stop
      cases ha with
      | seqLeft ha => exact ha
      | seqRight ha hmany => cases hmany
  · intro h
    cases h with
    | stop ha => exact (takes_opt hcs).2 (.inr ⟨.seqLeft ha, rfl, rfl⟩)
    | step ha hrest =>
      obtain ⟨left, ha, rfl⟩ := ha
      obtain ⟨left', hmany, rfl⟩ := many_of_repeats hrest rfl
      exact ⟨left', .present (.seq ha hmany), rfl⟩

theorem takes_silent (hkind : r.kind = .silent) :
    Takes (.rule r) cs ps rest ↔ Takes r.body cs ps rest := by
  have hmode : r.kind.mode .spaced = .spaced := by rw [hkind]; rfl
  have hleave : ∀ text inner, r.leave .spaced text inner = inner := by
    intro text inner
    simp only [Rule.leave, hkind]
  constructor
  · rintro ⟨left, hrule, rfl⟩
    cases hrule with
    | rule hbody =>
      rw [hleave]
      exact ⟨left, hmode ▸ hbody, rfl⟩
  · rintro ⟨left, hbody, rfl⟩
    rw [← hleave (consumed cs left) ps]
    exact ⟨left, .rule (hmode.symm ▸ hbody), rfl⟩

/-- A plain rule leaves one pair, with the pairs of its parts inside. -/
theorem derives_plain (hkind : r.kind = .plain) :
    Derives .spaced (.rule r) cs (some (ps, rest)) ↔
      ∃ inner, Derives .spaced r.body cs (some (inner, rest)) ∧
        ps = [.mk r (consumed cs rest) inner] := by
  have hmode : r.kind.mode .spaced = .spaced := by rw [hkind]; rfl
  have hleave : ∀ text inner, r.leave .spaced text inner = [.mk r text inner] := by
    intro text inner
    simp only [Rule.leave, hkind]
  constructor
  · intro hrule
    cases hrule with
    | rule hbody => exact ⟨_, hmode ▸ hbody, hleave _ _⟩
  · rintro ⟨inner, hbody, rfl⟩
    rw [← hleave (consumed cs rest) inner]
    exact .rule (hmode.symm ▸ hbody)

theorem Takes.of_plain (hkind : r.kind = .plain) (h : Takes (.rule r) cs ps rest) :
    ∃ text inner, ps = [.mk r text inner] ∧ Takes r.body cs inner rest := by
  obtain ⟨left, hrule, rfl⟩ := h
  obtain ⟨inner, hbody, rfl⟩ := (derives_plain hkind).1 hrule
  exact ⟨_, inner, rfl, left, hbody, rfl⟩

theorem Takes.plain (hkind : r.kind = .plain) (h : Takes r.body cs qs rest) :
    ∃ ps, Takes (.rule r) cs ps rest := by
  obtain ⟨left, hbody, rfl⟩ := h
  exact ⟨_, left, (derives_plain hkind).2 ⟨qs, hbody, rfl⟩, rfl⟩

theorem Fails.rule (hmode : r.kind.mode .spaced = .spaced) (h : Fails r.body cs) :
    Fails (.rule r) cs := .ruleFail (hmode.symm ▸ h)

end Coercive.Grammar
