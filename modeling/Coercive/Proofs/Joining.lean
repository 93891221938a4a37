import Coercive.Proofs.Locality
import Coercive.Template

namespace Coercive

/-- The first text does not end with the dollar of an opening whose bracket begins the second. -/
def Apart (a b : List Char) : Prop := ¬ (a.getLast? = some '$' ∧ b.head? = some '\x7b')

theorem Apart.of_suffix {a a' b : List Char} (h : Apart a b) (hsuffix : a' <:+ a) : Apart a' b := by
  rintro ⟨hlast, hhead⟩
  obtain ⟨front, rfl⟩ := hsuffix
  exact h ⟨by simp [List.getLast?_append, hlast], hhead⟩

namespace Template

def Complete : Template → Prop
  | .text _ => True
  | .hole _ _ rest => rest.Complete
  | .malformed _ _ => False

def prependText (cs : List Char) : Template → Template
  | .text ds => .text (cs ++ ds)
  | .hole before e rest => .hole (cs ++ before) e rest
  | .malformed before source => .malformed (cs ++ before) source

/-- The parts of one template and then those of another. Nothing comes after a malformed hole. -/
def append : Template → Template → Template
  | .text cs, u => u.prependText cs
  | .hole before e rest, u => .hole before e (rest.append u)
  | .malformed before source, _ => .malformed before source

theorem fill_prependText (invoke : Invoker) (cs : List Char) (u : Template) :
    (u.prependText cs).fill invoke = (cs ++ ·) <$> u.fill invoke := by
  cases u with
  | text ds => rfl
  | malformed before source => rfl
  | hole before e rest => simp [prependText, fill, List.append_assoc]

theorem fill_append (invoke : Invoker) (t u : Template) :
    (t.append u).fill invoke = do
      let x ← t.fill invoke
      let y ← u.fill invoke
      return x ++ y := by
  induction t with
  | text cs => simp [append, fill_prependText, fill]
  | malformed before source => rfl
  | hole before e rest ih => simp only [append, fill, ih, bind_assoc, pure_bind, List.append_assoc]

theorem ofText_text {cs : List Char} (h : split? cs = none) : ofText cs = .text cs := by
  rw [ofText]
  split <;> simp_all

theorem ofText_hole {cs before source rest : List Char} {e : Expr}
    (h : split? cs = some (before, source)) (hhole : Source.parseHole? source = some (e, rest)) :
    ofText cs = .hole before e (ofText rest) := by
  rw [ofText]
  split
  · simp_all
  · next hs =>
    cases h.symm.trans hs
    split
    · simp_all
    · next hh =>
      cases hhole.symm.trans hh
      rfl

theorem ofText_malformed {cs before source : List Char}
    (h : split? cs = some (before, source)) (hhole : Source.parseHole? source = none) :
    ofText cs = .malformed before source := by
  rw [ofText]
  split
  · simp_all
  · next hs =>
    cases h.symm.trans hs
    split <;> simp_all

theorem split?_cons {c : Char} {cs : List Char} (h : ¬ (c = '$' ∧ cs.head? = some '\x7b')) :
    split? (c :: cs) = (split? cs).map fun (before, after) => (c :: before, after) := by
  rw [split?]
  rintro rest rfl rfl
  exact h ⟨rfl, rfl⟩

theorem split?_eq_some {cs before after : List Char} (h : split? cs = some (before, after)) :
    cs = before ++ '$' :: '\x7b' :: after ∧
      ∀ ds, split? (before ++ '$' :: '\x7b' :: ds) = some (before, ds) := by
  fun_induction split? cs generalizing before with
  | case1 => cases h
  | case2 rest =>
    cases h
    exact ⟨rfl, fun _ => rfl⟩
  | case3 c rest hopening ih =>
    obtain ⟨⟨before, after⟩, hs, heq⟩ := Option.map_eq_some_iff.1 h
    cases heq
    obtain ⟨rfl, hafter⟩ := ih hs
    refine ⟨rfl, fun ds => ?_⟩
    have hhead : ¬ (c = '$' ∧ (before ++ '$' :: '\x7b' :: ds).head? = some '\x7b') := by
      rintro ⟨rfl, hhead⟩
      cases before with
      | nil => cases hhead
      | cons d before =>
        cases hhead
        exact hopening _ rfl rfl
    rw [List.cons_append, split?_cons hhead, hafter ds]
    rfl

theorem split?_append {cs before after : List Char} (h : split? cs = some (before, after))
    (ds : List Char) : split? (cs ++ ds) = some (before, after ++ ds) := by
  obtain ⟨rfl, hafter⟩ := split?_eq_some h
  rw [List.append_assoc]
  exact hafter (after ++ ds)

theorem split?_before {cs before after : List Char} (h : split? cs = some (before, after)) :
    split? before = none := by
  cases hb : split? before with
  | none => rfl
  | some p =>
    obtain ⟨before', after'⟩ := p
    have hearlier := split?_append hb ('$' :: '\x7b' :: after)
    rw [← (split?_eq_some h).1, h] at hearlier
    have hlength := congrArg List.length (split?_eq_some hb).1
    have hsame : before = before' := by simp_all
    simp [← hsame] at hlength

theorem split?_append_of_none {cs ds : List Char} (h : split? cs = none) (hapart : Apart cs ds) :
    split? (cs ++ ds) = (split? ds).map fun (before, after) => (cs ++ before, after) := by
  fun_induction split? cs with
  | case1 => simp
  | case2 => cases h
  | case3 c rest hopening ih =>
    have hhead : ¬ (c = '$' ∧ (rest ++ ds).head? = some '\x7b') := by
      rintro ⟨rfl, hhead⟩
      cases rest with
      | nil => exact hapart ⟨rfl, hhead⟩
      | cons d rest =>
        cases hhead
        exact hopening rest rfl rfl
    rw [List.cons_append, split?_cons hhead, ih (Option.map_eq_none_iff.1 h)
      (hapart.of_suffix (List.suffix_cons c rest))]
    simp [Function.comp_def]

/-- A complete text joined to another is cut into the parts of the one and then of the other. -/
theorem ofText_append {a b : List Char} (h : (ofText a).Complete) (hapart : Apart a b) :
    ofText (a ++ b) = (ofText a).append (ofText b) := by
  fun_induction ofText a with
  | case1 a hs =>
    have hsplit := split?_append_of_none hs hapart
    cases hb : split? b with
    | none =>
      rw [hb] at hsplit
      rw [ofText_text hsplit, ofText_text hb]
      rfl
    | some p =>
      obtain ⟨before, source⟩ := p
      rw [hb] at hsplit
      cases hhole : Source.parseHole? source with
      | none =>
        rw [ofText_malformed hsplit hhole, ofText_malformed hb hhole]
        rfl
      | some found =>
        rw [ofText_hole hsplit hhole, ofText_hole hb hhole]
        rfl
  | case2 => exact h.elim
  | case3 a before source hs e rest hhole ih =>
    obtain ⟨pre, rfl, _, hafter⟩ := Source.parseHole?_eq_some hhole
    have hsuffix : rest <:+ a := by
      rw [(split?_eq_some hs).1]
      exact ⟨before ++ '$' :: '\x7b' :: pre ++ ['\x7d'], by simp⟩
    have hrest : Source.parseHole? (pre ++ '\x7d' :: rest ++ b) = some (e, rest ++ b) := by
      rw [List.append_assoc]
      exact hafter (rest ++ b)
    rw [ofText_hole (split?_append hs b) hrest, ih h (hapart.of_suffix hsuffix)]
    rfl

theorem complete_or_malformed (a : List Char) : (ofText a).Complete ∨
    ∃ front source, a = front ++ '$' :: '\x7b' :: source ∧ (ofText front).Complete ∧
      Source.parseHole? source = none := by
  fun_induction ofText a with
  | case1 => exact .inl trivial
  | case2 a before source hs hhole =>
    refine .inr ⟨before, source, (split?_eq_some hs).1, ?_, hhole⟩
    rw [ofText_text (split?_before hs)]
    trivial
  | case3 a before source hs e rest hhole ih =>
    obtain ⟨rfl, hopening⟩ := split?_eq_some hs
    obtain ⟨pre, rfl, _, hafter⟩ := Source.parseHole?_eq_some hhole
    rcases ih with hcomplete | ⟨front, source', rfl, hcomplete, hmalformed⟩
    · exact .inl hcomplete
    · refine .inr ⟨before ++ '$' :: '\x7b' :: (pre ++ '\x7d' :: front), source', by simp, ?_,
        hmalformed⟩
      rw [ofText_hole (hopening _) (hafter front)]
      exact hcomplete

end Template

end Coercive
