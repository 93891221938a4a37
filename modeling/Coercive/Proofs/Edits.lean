import Coercive.Object

namespace Coercive.Record

/-- The record has the field, the hook or the method that an edit brings. -/
def Has (r : Record) : Edit → Prop
  | .field name v => r.fields.get? name = some v
  | .hook routine => r.hook = some routine
  | .custom c routine => r.slot c = .custom routine
  | .className _ | .remove _ => False

theorem slot_setSlot (r : Record) (c c' : Conversion) (slot : Slot Routine) :
    (r.setSlot c slot).slot c' = if c' = c then slot else r.slot c' := by
  cases c <;> cases c' <;> rfl

theorem Has.of_setSlot {r : Record} {c : Conversion} {slot : Slot Routine} {e : Edit}
    (h : (r.setSlot c slot).Has e) : r.Has e ∨ ∃ routine, e = .custom c routine ∧
      slot = .custom routine := by
  cases e with
  | field name v => cases c <;> exact .inl h
  | hook routine => cases c <;> exact .inl h
  | className | remove => exact h.elim
  | custom c' routine =>
    simp only [Has, slot_setSlot] at h
    split at h
    · next heq => exact .inr ⟨routine, by rw [heq], h⟩
    · exact .inl h

/-- An edit brings nothing but its own. -/
theorem Has.of_edit {r : Record} {e e' : Edit} (h : (r.edit e).Has e') : r.Has e' ∨ e' = e := by
  cases e with
  | className name => cases e' <;> exact .inl h
  | field name v =>
    cases e' with
    | field name' w =>
      by_cases hname : name' = name
      · subst hname
        have hsame := (Table.get?_insert_self _ _ _).symm.trans h
        cases hsame
        exact .inr rfl
      · exact .inl ((Table.get?_insert_of_ne _ _ hname).symm.trans h)
    | className | remove => exact h.elim
    | hook | custom => exact .inl h
  | hook routine =>
    cases e' with
    | hook routine' =>
      cases h
      exact .inr rfl
    | className | remove => exact h.elim
    | field | custom => exact .inl h
  | custom c routine =>
    rcases h.of_setSlot with hr | ⟨routine', rfl, hslot⟩
    · exact .inl hr
    · cases hslot
      exact .inr rfl
  | remove c =>
    rcases h.of_setSlot with hr | ⟨_, -, hslot⟩
    · exact .inl hr
    · cases hslot

theorem not_has_empty (e : Edit) : ¬ ({} : Record).Has e := by
  cases e with
  | custom c => cases c <;> exact nofun
  | field | className | hook | remove => exact nofun

theorem Has.mem {edits : List Edit} {e : Edit} (h : (ofEdits edits).Has e) : e ∈ edits := by
  suffices ∀ r : Record, (edits.foldl edit r).Has e → r.Has e ∨ e ∈ edits from
    (this {} h).resolve_left (not_has_empty e)
  clear h
  induction edits with
  | nil => exact fun _ hr => .inl hr
  | cons first edits ih =>
    intro r hr
    rcases ih _ hr with hfirst | hmem
    · rcases hfirst.of_edit with hr | rfl
      · exact .inl hr
      · exact .inr (.head _)
    · exact .inr (.tail _ hmem)

theorem forall_mem_slotEdits {P : Edit → Prop} {c : Conversion} {slot : Slot Routine}
    (hremove : P (.remove c))
    (hcustom : ∀ routine, slot = .custom routine → P (.custom c routine)) :
    ∀ e ∈ slotEdits c slot, P e := by
  intro e he
  cases slot with
  | inherited => cases he
  | removed =>
    rw [List.mem_singleton.1 he]
    exact hremove
  | custom routine =>
    rw [List.mem_singleton.1 he]
    exact hcustom routine rfl

theorem forall_mem_edits {P : Edit → Prop} (id className : String) {fields : List (String × Value)}
    {hook : Option (Script Value)} {stringify valuate : Slot (Script Value)}
    (hname : P (.className className)) (hremove : ∀ c, P (.remove c))
    (hfields : ∀ f ∈ fields, P (.field f.1 f.2)) (hhook : ∀ body ∈ hook, P (.hook ⟨id, body⟩))
    (hstringify : ∀ body, stringify = .custom body → P (.custom .stringify ⟨id, body⟩))
    (hvaluate : ∀ body, valuate = .custom body → P (.custom .valuate ⟨id, body⟩)) :
    ∀ e ∈ .className className :: fields.map (fun (name, v) => .field name v)
        ++ (hook.map (Routine.mk id)).toList.map .hook
        ++ slotEdits .stringify (stringify.map (Routine.mk id))
        ++ slotEdits .valuate (valuate.map (Routine.mk id)), P e := by
  have hslot : ∀ c (slot : Slot (Script Value)),
      (∀ body, slot = .custom body → P (.custom c ⟨id, body⟩)) →
        ∀ e ∈ slotEdits c (slot.map (Routine.mk id)), P e := by
    intro c slot hcustom
    apply forall_mem_slotEdits (hremove c)
    intro routine hroutine
    cases slot with
    | inherited | removed => cases hroutine
    | custom body =>
      cases hroutine
      exact hcustom body rfl
  simp only [List.forall_mem_append, List.forall_mem_cons, List.forall_mem_map]
  refine ⟨⟨⟨⟨hname, hfields⟩, ?_⟩, hslot _ _ hstringify⟩, hslot _ _ hvaluate⟩
  intro routine hroutine
  obtain ⟨body, hbody, rfl⟩ := Option.map_eq_some_iff.1 (Option.mem_toList.1 hroutine)
  exact hhook body hbody

end Coercive.Record
