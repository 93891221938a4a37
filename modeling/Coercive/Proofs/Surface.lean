import Coercive.Proofs.Edits
import Coercive.Invocation

namespace Coercive.Record

variable {α : Type}

def Edit.value? (name : String) : Edit → Option Value
  | .field name' v => if name' = name then some v else none
  | _ => none

def Edit.slot? (c : Conversion) : Edit → Option (Slot Routine)
  | .custom c' routine => if c' = c then some (.custom routine) else none
  | .remove c' => if c' = c then some .removed else none
  | _ => none

def lastValue? (name : String) (edits : List Edit) : Option Value :=
  (edits.filterMap (Edit.value? name)).getLast?

/-- The form that the last edit of a slot brings it into. Methods are inherited at first. -/
def lastSlot (c : Conversion) (edits : List Edit) : Slot Routine :=
  (edits.filterMap (Edit.slot? c)).getLast?.getD .inherited

theorem get?_edit (r : Record) (e : Edit) (name : String) :
    (r.edit e).fields.get? name = (e.value? name).or (r.fields.get? name) := by
  cases e with
  | field name' v =>
    by_cases h : name' = name
    · subst h
      simp [edit, Edit.value?]
    · simp [edit, Edit.value?, h, Table.get?_insert_of_ne r.fields v (Ne.symm h)]
  | className | hook => rfl
  | custom c _ | remove c => cases c <;> rfl

theorem slot_edit (r : Record) (e : Edit) (c : Conversion) :
    some ((r.edit e).slot c) = (e.slot? c).or (some (r.slot c)) := by
  cases e with
  | className | field | hook => cases c <;> rfl
  | custom c' _ | remove c' =>
    by_cases h : c' = c
    · simp [edit, Edit.slot?, slot_setSlot, h]
    · simp [edit, Edit.slot?, slot_setSlot, h, Ne.symm h]

/-- What each edit replaces or keeps, the last one that replaces it decides. -/
theorem foldl_edit_last (get : Record → Option α) {tells? : Edit → Option α}
    (h : ∀ r e, get (r.edit e) = (tells? e).or (get r)) (edits : List Edit) (r : Record) :
    get (edits.foldl edit r) = (edits.filterMap tells?).getLast?.or (get r) := by
  induction edits generalizing r with
  | nil => rfl
  | cons e edits ih =>
    rw [List.foldl_cons, ih, h]
    cases he : tells? e with
    | none => simp [he]
    | some a =>
      cases hlast : (edits.filterMap tells?).getLast? <;> simp [he, List.getLast?_cons, hlast]

theorem get?_ofEdits (edits : List Edit) (name : String) :
    (ofEdits edits).fields.get? name = lastValue? name edits := by
  rw [ofEdits, foldl_edit_last (fun r => r.fields.get? name) fun r e => get?_edit r e name]
  exact Option.or_none

theorem slot_ofEdits (edits : List Edit) (c : Conversion) :
    (ofEdits edits).slot c = lastSlot c edits := by
  have hempty : ({} : Record).slot c = .inherited := by cases c <;> rfl
  have hlast := foldl_edit_last (fun r => some (r.slot c)) (fun r e => slot_edit r e c) edits {}
  rw [hempty, Option.or_some] at hlast
  exact Option.some.inj hlast

theorem shows_ofEdits_congr {edits edits' : List Edit}
    (hfields : ∀ name, lastValue? name edits = lastValue? name edits')
    (hslots : ∀ c, lastSlot c edits = lastSlot c edits') :
    (ofEdits edits).conversion? = (ofEdits edits').conversion? ∧
      (ofEdits edits).member = (ofEdits edits').member := by
  have hconversion : (ofEdits edits).conversion? = (ofEdits edits').conversion? := by
    funext c
    simp only [conversion?, slot_ofEdits, hslots]
  refine ⟨hconversion, ?_⟩
  funext name
  rw [member, member, get?_ofEdits, get?_ofEdits, hfields, hconversion]
  rfl

theorem member_of_field {r : Record} {name : String} {v : Value} (h : r.fields.get? name = some v) :
    r.member name = pure v := by
  rw [member, h]

/-- Where no field has its name, a conversion method is a member as a new function. -/
theorem member_of_conversion {r : Record} {c : Conversion} (h : r.fields.get? c.name = none) :
    r.member c.name = match r.conversion? c with
      | some m => Run.allocate (.function m)
      | none => .fail (.unknownMember "object" c.name) := by
  rw [member, h, Conversion.ofName?_name]
  rfl

theorem call_function {s : State} {ref : Nat} {m : Method} (h : s.object ref = .function m)
    (invoke : Invoker) (receiver : Value) (args : List Value) (limit : Nat) :
    (Value.object ref).call invoke receiver args limit s = invoke m receiver args limit s := by
  change (s.object ref).call invoke receiver args limit s = _
  rw [h]
  rfl

/-- A method of a record's own rejects arguments before anything else happens. -/
theorem conversion?_rejects {r : Record} {c : Conversion} {routine : Routine}
    (hslot : r.slot c = .custom routine) {m : Method} (hm : r.conversion? c = some m)
    {args : List Value} (hargs : args ≠ []) (invoke : Invoker) (receiver : Value) (limit : Nat)
    (s : State) :
    Method.run invoke m receiver args limit s = (.error (.failed (.arity .zero)), s) := by
  simp only [conversion?, hslot] at hm
  cases hm
  cases args with
  | nil => exact absurd rfl hargs
  | cons => cases c <;> rfl

/-- The last edits of a field and of a slot decide what a record shows. A field is the member of its
name. Without a field a conversion method's name is a member if and only if conversions find the
method, and then it is a new function that does what the method does, however it is called. -/
theorem shows_ofEdits (edits : List Edit) (c : Conversion) :
    (ofEdits edits).slot c = lastSlot c edits ∧
    (∀ edits', (∀ name, lastValue? name edits = lastValue? name edits') →
      (∀ c, lastSlot c edits = lastSlot c edits') →
        (ofEdits edits).conversion? = (ofEdits edits').conversion? ∧
          (ofEdits edits).member = (ofEdits edits').member) ∧
    (∀ v, lastValue? c.name edits = some v → ∀ limit s,
      (ofEdits edits).member c.name limit s = (.ok v, s)) ∧
    (lastValue? c.name edits = none → ∀ limit s,
      ((∃ f, ((ofEdits edits).member c.name limit s).1 = .ok f) ↔
        ((ofEdits edits).conversion? c).isSome) ∧
      ((ofEdits edits).conversion? c = none → (ofEdits edits).member c.name limit s =
        (.error (.failed (.unknownMember "object" c.name)), s)) ∧
      ∀ m, (ofEdits edits).conversion? c = some m →
        (ofEdits edits).member c.name limit s = (.ok (.object s.objects.size),
          { s with objects := s.objects.push (.function m) }) ∧
        ∀ t, t.object s.objects.size = .function m → ∀ invoke receiver args limit,
          (Value.object s.objects.size).call invoke receiver args limit t =
            invoke m receiver args limit t ∧
          ∀ routine, lastSlot c edits = .custom routine → args ≠ [] →
            (Value.object s.objects.size).call (Method.run invoke) receiver args limit t =
              (.error (.failed (.arity .zero)), t)) := by
  have hslot := slot_ofEdits edits c
  refine ⟨hslot, fun _ hfields hslots => shows_ofEdits_congr hfields hslots, ?_, ?_⟩
  · intro v hv limit s
    rw [member_of_field ((get?_ofEdits edits c.name).trans hv)]
    rfl
  · intro hnone limit s
    rw [member_of_conversion ((get?_ofEdits edits c.name).trans hnone)]
    cases hm : (ofEdits edits).conversion? c with
    | none =>
      refine ⟨⟨?_, nofun⟩, fun _ => rfl, nofun⟩
      rintro ⟨f, ⟨⟩⟩
    | some m =>
      refine ⟨⟨fun _ => rfl, fun _ => ⟨_, rfl⟩⟩, nofun, ?_⟩
      rintro m' ⟨⟩
      refine ⟨rfl, fun t ht invoke receiver args limit => ⟨call_function ht .., ?_⟩⟩
      intro routine hcustom hargs
      rw [call_function ht]
      exact conversion?_rejects (hslot.trans hcustom) hm hargs ..

theorem shows_ofEdits_replaced :
    let shown : Routine := ⟨"shown", .ret (.string "wallet")⟩
    let edits : List Edit := [.remove .stringify, .field "valuate" (.string "first"),
      .custom .stringify shown, .field "valuate" (.string "last")]
    let s : State := { objects := #[.record (ofEdits edits)] }
    let t : State := { s with objects := s.objects.push (.function (.routine .stringify shown)) }
    (ofEdits edits).member "valuate" 0 s = (.ok (.string "last"), s) ∧
      (ofEdits edits).conversion? .valuate = some (.inherited .valuate) ∧
      (ofEdits edits).member "stringify" 0 s = (.ok (.object 1), t) ∧
      ((Value.object 1).call (invokeWithin 1) (.object 0) [] 0 t).1 = .ok (.string "wallet") ∧
      (Value.object 1).call (invokeWithin 1) (.object 0) [.undefined] 0 t =
        (.error (.failed (.arity .zero)), t) := by
  intro shown edits s t
  obtain ⟨-, -, hfield, -⟩ := shows_ofEdits edits .valuate
  obtain ⟨-, -, -, hmethod⟩ := shows_ofEdits edits .stringify
  obtain ⟨-, -, hfound⟩ := hmethod rfl 0 s
  obtain ⟨hmember, hcall⟩ := hfound _ rfl
  refine ⟨hfield _ rfl 0 s, rfl, hmember, ?_, ?_⟩
  · exact congrArg Prod.fst (hcall t rfl (invokeWithin 1) (.object 0) [] 0).1
  · exact (hcall t rfl (invokeWithin 0) (.object 0) [.undefined] 0).2 _ rfl (by simp)

end Coercive.Record
