import Coercive.Proofs.Scoping
import Coercive.Proofs.Surface

namespace Coercive

variable {α β : Type} {ref : Nat} {r r' : Record}

/-- The records have the same hook, or no hook and the same class name and slots. -/
inductive Record.ConvertsLike (r r' : Record) : Prop
  | hook {routine : Routine} (h : r.hook = some routine) (h' : r'.hook = some routine)
  | slots (h : r.hook = none) (h' : r'.hook = none) (hclass : r'.className = r.className)
      (hslot : ∀ c, r'.slot c = r.slot c)

namespace Record.ConvertsLike

theorem refl (r : Record) : r.ConvertsLike r := by
  cases h : r.hook with
  | none => exact .slots h h rfl fun _ => rfl
  | some routine => exact .hook h h

theorem className_eq (h : r.ConvertsLike r') (hhook : r.hook = none) :
    r'.className = r.className := by
  cases h with
  | hook h => cases hhook.symm.trans h
  | slots _ _ hclass => exact hclass

theorem askEach_eq (hslot : ∀ c, r'.slot c = r.slot c) (invoke : Invoker) (receiver : Value)
    (cs : List Conversion) :
    (Object.record r').askEach invoke receiver cs =
      (Object.record r).askEach invoke receiver cs := by
  induction cs with
  | nil => rfl
  | cons c cs ih => simp only [Object.askEach, Object.conversion?, conversion?, hslot, ih]

theorem reduce_eq (h : r.ConvertsLike r') (invoke : Invoker) (receiver : Value) (hint : Hint) :
    (Object.record r').reduce invoke receiver hint =
      (Object.record r).reduce invoke receiver hint := by
  cases h with
  | hook h h' =>
    simp only [Object.reduce, Object.hook?, h, h', Option.map_some]
    rfl
  | slots h h' _ hslot =>
    simp only [Object.reduce, Object.hook?, h, h', Option.map_none]
    exact askEach_eq hslot invoke receiver _

end Record.ConvertsLike

namespace State

def replace (s : State) (ref : Nat) (o : Object) : State :=
  { s with objects := s.objects.setIfInBounds ref o }

theorem replace_self {s : State} {o : Object} (h : s.objects[ref]? = some o) :
    s.replace ref o = s := by
  obtain ⟨hlt, rfl⟩ := Array.getElem?_eq_some_iff.1 h
  simp [replace, Array.setIfInBounds, hlt]

theorem object_replace_of_ne (s : State) (o : Object) {i : Nat} (h : i ≠ ref) :
    (s.replace ref o).object i = s.object i := by
  simp [object, replace, Ne.symm h]

theorem object_replace_self {s : State} (o : Object) (h : ref < s.objects.size) :
    (s.replace ref o).object ref = o := by
  simp [object, replace, h]

theorem replace_push {s : State} (o p : Object) (h : ref < s.objects.size) :
    { s.replace ref o with objects := (s.replace ref o).objects.push p } =
      ({ s with objects := s.objects.push p } : State).replace ref o := by
  simp [replace, Array.setIfInBounds, h, Nat.lt_succ_of_lt h, Array.set_push]

end State

namespace Run

/-- The second computation does after the replacement what the first does before it, if that one
does not exhaust the budget. The record is still there at the end. -/
def Follows (ref : Nat) (r r' : Record) (x y : Run α) : Prop :=
  ∀ limit s, s.objects[ref]? = some (.record r) → (x limit s).1 ≠ .error .exhausted →
    y limit (s.replace ref (.record r')) =
        ((x limit s).1, (x limit s).2.replace ref (.record r')) ∧
      (x limit s).2.objects[ref]? = some (.record r)

namespace Follows

theorem step {f : State → α × State}
    (hkept : ∀ s, s.objects[ref]? = some (.record r) → (f s).2.objects[ref]? = some (.record r))
    (hreplace : ∀ s, s.objects[ref]? = some (.record r) →
      f (s.replace ref (.record r')) = ((f s).1, (f s).2.replace ref (.record r'))) :
    Follows ref r r' (Run.step f) (Run.step f) := by
  intro limit s hs _
  refine ⟨?_, hkept s hs⟩
  simp only [Run.step, hreplace s hs]

theorem allocate (o : Object) : Follows ref r r' (Run.allocate o) (Run.allocate o) := by
  refine .step (f := fun s => (Value.object s.objects.size,
    { s with objects := s.objects.push o })) (fun s hs => ?_) fun s hs => ?_
  · have hlt : ref < s.objects.size := (Array.getElem?_eq_some_iff.1 hs).1
    rw [Array.getElem?_push, if_neg (Nat.ne_of_lt hlt)]
    exact hs
  · rw [State.replace_push _ _ (Array.getElem?_eq_some_iff.1 hs).1]
    simp [State.replace]

theorem exhausted (y : Run α) : Follows ref r r' (Run.stop .exhausted) y :=
  fun _ _ _ h => absurd rfl h

theorem fail (f : Failure) : Follows ref r r' (Run.fail f : Run α) (Run.fail f) :=
  fun _ _ hs _ => ⟨rfl, hs⟩

theorem pure (v : α) : Follows ref r r' (Pure.pure v) (Pure.pure v) := fun _ _ hs _ => ⟨rfl, hs⟩

theorem bind {x y : Run α} {f g : α → Run β} (h : Follows ref r r' x y)
    (hnext : ∀ v, Follows ref r r' (f v) (g v)) : Follows ref r r' (x >>= f) (y >>= g) := by
  intro limit s hs hends
  rcases hrun : x limit s with ⟨e | v, t⟩
  · rw [bind_of_error hrun] at hends ⊢
    have hx := h limit s hs (by rw [hrun]; rintro ⟨⟩; exact hends rfl)
    rw [hrun] at hx
    exact ⟨bind_of_error hx.1, hx.2⟩
  · have hx := h limit s hs (by rw [hrun]; exact nofun)
    rw [hrun] at hx
    rw [bind_of_ok hrun] at hends ⊢
    rw [bind_of_ok hx.1]
    exact hnext v limit t hx.2 hends

theorem nested {x y : Run α} (h : Follows ref r r' x y) : Follows ref r r' x.nested y.nested := by
  intro limit s hs hends
  by_cases hdepth : s.depth < limit
  · rw [nested_of_lt x hdepth] at hends ⊢
    obtain ⟨heq, hkept⟩ := h limit s.enter hs hends
    have hinside : y limit (s.replace ref (.record r')).enter =
        ((x limit s.enter).1, (x limit s.enter).2.replace ref (.record r')) := heq
    rw [nested_of_lt y (s := s.replace ref (.record r')) hdepth, hinside]
    exact ⟨rfl, hkept⟩
  · have hle := Nat.le_of_not_lt hdepth
    rw [nested_of_le x hle, nested_of_le y (s := s.replace ref (.record r')) hle]
    exact ⟨rfl, hs⟩

theorem traced (call : Nat → Call) {x y : Run Value} (h : Follows ref r r' x y) :
    Follows ref r r' (get >>= fun s => Run.traced (call s.depth) x)
      (get >>= fun s => Run.traced (call s.depth) y) := by
  intro limit s hs hends
  let s' : State := { s with trace := .called (call s.depth) :: s.trace }
  obtain ⟨heq, hkept⟩ := h limit s' hs hends
  have hreturned := congrArg (fun r : Except Stop Value × State =>
    (r.1, ({ r.2 with trace := .returned (stop? r.1) :: r.2.trace } : State))) heq
  exact ⟨hreturned, hkept⟩

theorem object (i : Nat) {f g : Object → Run α}
    (hother : i ≠ ref → ∀ o, Follows ref r r' (f o) (g o))
    (hsame : i = ref → Follows ref r r' (f (.record r)) (g (.record r'))) :
    Follows ref r r' (Run.object i >>= f) (Run.object i >>= g) := by
  intro limit s hs hends
  change (f (s.object i) limit s).1 ≠ _ at hends
  change g ((s.replace ref (.record r')).object i) limit (s.replace ref (.record r')) =
    ((f (s.object i) limit s).1, (f (s.object i) limit s).2.replace ref (.record r')) ∧
      (f (s.object i) limit s).2.objects[ref]? = some (.record r)
  by_cases hi : i = ref
  · have hbefore : s.object i = .record r := by rw [hi, State.object, hs]; rfl
    have hafter : (s.replace ref (.record r')).object i = .record r' := by
      rw [hi]
      exact State.object_replace_self _ (Array.getElem?_eq_some_iff.1 hs).1
    rw [hbefore] at hends ⊢
    rw [hafter]
    exact hsame hi limit s hs hends
  · rw [State.object_replace_of_ne s _ hi]
    exact hother hi _ limit s hs hends

end Follows

end Run

def following (ref : Nat) (r r' : Record) : BodyRules .all where
  holds := Run.Follows ref r r'
  pure := .pure
  fail := .fail
  bind := .bind
  lookup {x} _ := .step (f := fun s => (s.scope.get? x, s)) (fun _ hs => hs) fun _ _ => rfl
  allocate _ := .allocate _
  count counter :=
    .step (f := fun s => ((s.counters.get? counter).getD 0 + 1,
      { s with counters := s.counters.insert counter ((s.counters.get? counter).getD 0 + 1) }))
      (fun _ hs => hs) fun _ _ => rfl
  depth := .step (f := fun s => (Value.number (.ofNat s.depth), s)) (fun _ hs => hs)
    fun _ _ => rfl
  traced call _ _ _ h := .traced call h

/-- Methods do the same. What the inherited ones show of the record must be the same. -/
def Invoker.Follows (ref : Nat) (r r' : Record) (invoke invoke' : Invoker) : Prop :=
  ∀ (m : Method) (receiver : Value) (args : List Value),
    (∀ c, m = .inherited c → receiver = .object ref → r'.className = r.className) →
      Run.Follows ref r r' (invoke m receiver args) (invoke' m receiver args)

namespace Run.Follows

variable {invoke invoke' : Invoker}

theorem member {v : Value} (h : v ≠ .object ref) (name : String) :
    Follows ref r r' (v.member name) (v.member name) := by
  cases v with
  | primitive p => exact .fail _
  | object i =>
    refine .object i (fun _ o => ?_) fun hi => absurd (congrArg Value.object hi) h
    cases o with
    | plain | function => exact .fail _
    | record r₁ =>
      simp only [Object.member, Record.member]
      split
      · exact .pure _
      · split
        · exact .allocate _
        · exact .fail _

theorem call (h : invoke.Follows ref r r' invoke') (f : Value) {receiver : Value}
    (hreceiver : receiver ≠ .object ref) (args : List Value) :
    Follows ref r r' (f.call invoke receiver args) (f.call invoke' receiver args) := by
  cases f with
  | primitive p => exact .fail _
  | object i =>
    refine .object i (fun _ o => ?_) fun _ => .fail _
    unfold Object.call
    split
    · exact h _ _ _ fun _ _ heq => absurd heq hreceiver
    · exact .fail _

theorem sparing (v : Value) (name : String) :
    Follows ref r r' (Accessor.sparing ref v name) (v.member name) := by
  unfold Accessor.sparing
  split
  · exact .exhausted _
  · next h => exact .member h name

theorem reduce (hlike : r.ConvertsLike r') (h : invoke.Follows ref r r' invoke') (v : Value)
    (hint : Hint) : Follows ref r r' (v.reduce invoke hint) (v.reduce invoke' hint) := by
  cases v with
  | primitive p => exact .pure p
  | object i =>
    simp only [Value.reduce]
    refine .nested (.object i (fun hi o => ?_) fun _ => ?_)
    · have hreceiver : Value.object i ≠ .object ref := by simpa using hi
      exact Laws.reduceObject (L := (following ref r r').toLaws)
        (fun _ _ _ => h _ _ _ fun _ _ heq => absurd heq hreceiver)
        (fun _ _ _ _ => h _ _ _ fun _ _ heq => absurd heq hreceiver) hint
    · rw [hlike.reduce_eq]
      refine Laws.reduceObject (L := (following ref r r').toLaws) (fun m args hm => ?_)
        (fun c m hnone _ => h _ _ _ fun _ _ _ => hlike.className_eq ?_) hint
      · obtain ⟨routine, -, rfl⟩ := Option.map_eq_some_iff.1 hm
        exact h _ _ _ nofun
      · exact Option.map_eq_none_iff.1 hnone

theorem inherited {c : Conversion} {receiver : Value}
    (h : receiver = .object ref → r'.className = r.className) :
    Follows ref r r' (c.inherited receiver) (c.inherited receiver) := by
  cases c with
  | valuate => exact .pure _
  | stringify =>
    cases receiver with
    | primitive p => exact .pure _
    | object i =>
      refine .object i (fun _ _ => .pure _) fun hi => ?_
      have hname : (Object.record r').className = (Object.record r).className :=
        h (congrArg Value.object hi)
      rw [hname]
      exact .pure _

theorem serves (hlike : r.ConvertsLike r') (h : invoke.Follows ref r r' invoke') :
    (following ref r r').Serves (.sparing ref) Value.member invoke invoke' where
  reduces := reduce hlike h
  member := sparing
  method _ v name _ _ hargs := by
    by_cases hv : v = .object ref
    · have hstop : Accessor.sparing ref v name = .stop .exhausted := if_pos hv
      rw [hstop]
      exact .exhausted _
    · exact (sparing v name).bind fun f => hargs.bind fun vs => call h f hv vs

end Run.Follows

/-- With every budget, methods whose bodies are kept from the record are followed by methods whose
bodies are not. -/
theorem invokeThrough_follows (hlike : r.ConvertsLike r') (budget : Nat) :
    (invokeThrough (.sparing ref) budget).Follows ref r r' (invokeWithin budget) := by
  rw [← invokeThrough_member]
  induction budget with
  | zero => exact fun _ _ _ _ => .exhausted _
  | succ budget ih =>
    intro m receiver args hname
    exact BodyRules.method (Run.Follows.serves hlike ih) m.within_all args fun c hc =>
      .inherited (hname c hc)

theorem following_reduces (ref : Nat) (hlike : r.ConvertsLike r') (budget : Nat) :
    (following ref r r').Reduces (invokeThrough (.sparing ref) budget) (invokeWithin budget) :=
  Run.Follows.reduce hlike (invokeThrough_follows hlike budget)

/-- The expression applies operators to names and literals. -/
inductive Expr.Operates : Expr → Prop
  | literal (p : Primitive) : Operates (.literal p)
  | name (x : String) : Operates (.name x)
  | unary (sign : Sign) {e : Expr} (h : e.Operates) : Operates (.unary sign e)
  | binary (op : Operator) {left right : Expr} (hl : left.Operates) (hr : right.Operates) :
    Operates (.binary op left right)

/-- Each hole of the template applies operators to names and literals. -/
inductive Template.Operates : Template → Prop
  | text (cs : List Char) : Operates (.text cs)
  | hole (before : List Char) {e : Expr} {rest : Template} (he : e.Operates)
    (hrest : rest.Operates) : Operates (.hole before e rest)
  | malformed (before source : List Char) : Operates (.malformed before source)

section Operates

variable {L : BodyRules .all} {invoke invoke' : Invoker} (h : L.Reduces invoke invoke')

include h

theorem Expr.Operates.eval {e : Expr} (he : e.Operates) :
    L.holds (e.eval invoke) (e.eval invoke') := by
  induction he with
  | literal p => exact L.pure _
  | name x => exact L.bind (BodyRules.binding trivial) fun b => BodyRules.toValue b
  | unary sign _ ih => exact L.bind ih fun v => Laws.map _ (Laws.cast h _ v)
  | binary op _ _ ihl ihr =>
    exact L.bind ihl fun v => L.bind ihr fun w => Laws.map _ (Laws.operate h op v w)

theorem Template.Operates.fill {t : Template} (ht : t.Operates) :
    L.holds (t.fill invoke) (t.fill invoke') := by
  induction ht with
  | text cs => exact L.pure cs
  | hole before he _ ih =>
    exact L.bind (he.eval h) fun v => L.bind (Laws.toText h v _) fun _ =>
      L.bind ih fun _ => L.pure _
  | malformed before source => exact L.fail _

end Operates

/-- If no body reads a member of the object, then the run ends, and with another object in its place
it ends the same: in the same state but for that object. -/
def State.Indifferent (s : State) (ref : Nat) (o : Object) (budget limit : Nat)
    (act : Invoker → Run α) : Prop :=
  Run.Spares ref budget act limit s →
    (act (invokeWithin budget) limit s).1 ≠ .error .exhausted ∧
      act (invokeWithin budget) limit (s.replace ref o) =
        ((act (invokeWithin budget) limit s).1, (act (invokeWithin budget) limit s).2.replace ref o)

section

variable {s : State} {budget limit : Nat}

theorem Run.Follows.eq_self {x y : Run α} (h : Run.Follows ref r r x y)
    (hs : s.objects[ref]? = some (.record r)) (hends : (x limit s).1 ≠ .error .exhausted) :
    y limit s = x limit s := by
  obtain ⟨heq, hkept⟩ := h limit s hs hends
  rw [State.replace_self hs, State.replace_self hkept] at heq
  exact heq

theorem State.Indifferent.of_follows {act : Invoker → Run α} {x : Run α}
    (hs : s.objects[ref]? = some (.record r)) (hlike : r.ConvertsLike r')
    (hx : act (invokeThrough (.sparing ref) budget) limit s = x limit s)
    (h : ∀ r₁, r.ConvertsLike r₁ → Run.Follows ref r r₁ x (act (invokeWithin budget))) :
    s.Indifferent ref (.record r') budget limit act := by
  intro hspares
  have hends : (x limit s).1 ≠ .error .exhausted := by
    rw [← hx]
    exact hspares
  rw [(h r (.refl r)).eq_self hs hends]
  exact ⟨hends, (h r' hlike limit s hs hends).1⟩

theorem Expr.eval_index_sparing {o : Expr} {invoke : Invoker}
    (h : (o.eval invoke limit s).1 ≠ .ok (.object ref)) (key : Expr) :
    (index o key).eval invoke limit s = (do
      let target ← o.eval invoke
      let name ← (← key.eval invoke).toText invoke .propertyKey
      Accessor.sparing ref target name : Run Value) limit s := by
  rw [eval]
  rcases hrun : o.eval invoke limit s with ⟨e | target, t⟩
  · rw [Run.bind_of_error hrun, Run.bind_of_error hrun]
  · have htarget : target ≠ .object ref := by
      rintro rfl
      exact h (by rw [hrun])
    rw [Run.bind_of_ok hrun, Run.bind_of_ok hrun]
    simp only [Accessor.sparing, if_neg htarget]

theorem Expr.Operates.index_indifferent (hs : s.objects[ref]? = some (.record r))
    (hlike : r.ConvertsLike r') {o key : Expr} (ho : o.Operates) (hkey : key.Operates)
    (htarget : (o.eval (invokeWithin budget) limit s).1 ≠ .ok (.object ref)) :
    s.Indifferent ref (.record r') budget limit fun invoke => (Expr.index o key).eval invoke := by
  have hguarded : (o.eval (invokeThrough (.sparing ref) budget) limit s).1 ≠ .ok (.object ref) := by
    intro hok
    have hreduces := following_reduces ref (.refl r) budget
    have hsame := Run.Follows.eq_self (ho.eval hreduces) hs (by rw [hok]; exact nofun)
    exact htarget (by rw [hsame, hok])
  -- Only this state tells that the target is another value, and a law would need it of every value.
  refine .of_follows hs hlike (Expr.eval_index_sparing hguarded key) fun r₁ h₁ => ?_
  have hreduces := following_reduces ref h₁ budget
  rw [Expr.eval]
  exact (ho.eval hreduces).bind fun v => (hkey.eval hreduces).bind fun w =>
    (Laws.toText hreduces w _).bind fun name => .sparing v name

/-- A field hides a method of its name from member access and from calls. -/
theorem field_shadows {name : String} {v : Value} (hs : s.objects[ref]? = some (.record r))
    (hfield : r.fields.get? name = some v) :
    (Value.object ref).member name limit s = (.ok v, s) ∧
      ∀ x, s.scope.get? x = some (.object ref) → ∀ invoke args,
        (Expr.call (.member (.name x) name) args).eval invoke limit s =
          (Expr.evalAll invoke args >>= v.call invoke (.object ref)) limit s := by
  have hobject : s.object ref = .record r := by rw [State.object, hs]; rfl
  have hmember : (Value.object ref).member name limit s = (.ok v, s) := by
    change (s.object ref).member name limit s = _
    rw [hobject, Object.member, Record.member_of_field hfield]
    rfl
  refine ⟨hmember, fun x hx invoke args => ?_⟩
  rw [Expr.eval, Run.bind_of_ok (Expr.eval_name hx invoke limit), Run.bind_of_ok hmember]

/-- Conversions, operators, accesses under a converted key and holes ask a record for its hook, and
without one for its class name and its slots. All else can be exchanged, also fields with the names
of conversion methods, which only members and calls of methods find. -/
theorem replaced_indifferent (hs : s.objects[ref]? = some (.record r)) (hlike : r.ConvertsLike r')
    (budget limit : Nat) :
    (∀ (v : Value) hint,
      s.Indifferent ref (.record r') budget limit fun invoke => v.reduce invoke hint) ∧
    (∀ (c : Cast) v, s.Indifferent ref (.record r') budget limit fun invoke => c.apply invoke v) ∧
    (∀ (op : Operator) v w,
      s.Indifferent ref (.record r') budget limit fun invoke => op.apply invoke v w) ∧
    (∀ e : Expr, e.Operates →
      s.Indifferent ref (.record r') budget limit fun invoke => e.eval invoke) ∧
    (∀ o key : Expr, o.Operates → key.Operates →
      (o.eval (invokeWithin budget) limit s).1 ≠ .ok (.object ref) →
        s.Indifferent ref (.record r') budget limit fun invoke => (Expr.index o key).eval invoke) ∧
    (∀ t : Template, t.Operates →
      s.Indifferent ref (.record r') budget limit fun invoke => t.fill invoke) ∧
    (∀ name v, r'.fields.get? name = some v →
      (Value.object ref).member name limit (s.replace ref (.record r')) =
        (.ok v, s.replace ref (.record r')) ∧
      ∀ x, s.scope.get? x = some (.object ref) → ∀ invoke args,
        (Expr.call (.member (.name x) name) args).eval invoke limit (s.replace ref (.record r')) =
          (Expr.evalAll invoke args >>= v.call invoke (.object ref)) limit
            (s.replace ref (.record r'))) := by
  have hreplaced : (s.replace ref (.record r')).objects[ref]? = some (.record r') := by
    have hlt : ref < s.objects.size := (Array.getElem?_eq_some_iff.1 hs).1
    simp [State.replace, hlt]
  have hreduces := fun r₁ (h₁ : r.ConvertsLike r₁) => following_reduces ref h₁ budget
  refine ⟨fun v hint => ?_, fun c v => ?_, fun op v w => ?_, fun e he => ?_, fun o key ho hkey =>
    ho.index_indifferent hs hlike hkey, fun t ht => ?_, fun name v hfield =>
    field_shadows hreplaced hfield⟩
  · exact .of_follows hs hlike rfl fun r₁ h₁ => hreduces r₁ h₁ v hint
  · exact .of_follows hs hlike rfl fun r₁ h₁ => Laws.cast (hreduces r₁ h₁) c v
  · exact .of_follows hs hlike rfl fun r₁ h₁ => Laws.operate (hreduces r₁ h₁) op v w
  · exact .of_follows hs hlike rfl fun r₁ h₁ => he.eval (hreduces r₁ h₁)
  · exact .of_follows hs hlike rfl fun r₁ h₁ => ht.fill (hreduces r₁ h₁)

/-- Two records with one hook that differ in all else, and two with one `valuate` that differ in a
field of its name. The hook reads a member of another record. -/
theorem replaced_indifferent_hidden :
    let hook : Routine := ⟨"hook", .operate .add (.member (.read "y") "k") .hint⟩
    let valuate : Routine := ⟨"valuate", .ret (.string "v")⟩
    let r : Record := { hook := some hook }
    let r' : Record :=
      { fields := [("valuate", .string "field")], className := "Box", hook := some hook,
        stringify := .removed }
    let q : Record := { fields := [("k", .string "n")], valuate := .custom valuate }
    let q' : Record := { fields := [("valuate", .string "field")], valuate := .custom valuate }
    let s : State :=
      { objects := #[.record r, .record q], scope := [("x", .object 0), ("y", .object 1)] }
    let e : Expr := .binary .add (.name "x") (.literal (.string "!"))
    let e' : Expr := .binary .eq (.literal (.string "v")) (.name "y")
    (e.eval (invokeWithin 1) 1 (s.replace 0 (.record r'))).1 = .ok (.string "ndefault!") ∧
      (e'.eval (invokeWithin 1) 1 (s.replace 1 (.record q'))).1 = .ok (.primitive (.bool true)) ∧
      (Value.object 1).member "valuate" 1 (s.replace 1 (.record q')) =
        (.ok (.string "field"), s.replace 1 (.record q')) := by
  intro hook valuate r r' q q' s e e'
  have hs : s.objects[0]? = some (.record r) := rfl
  have ht : s.objects[1]? = some (.record q) := rfl
  have hlike : r.ConvertsLike r' := .hook rfl rfl
  have hlike' : q.ConvertsLike q' := .slots rfl rfl rfl fun c => by cases c <;> rfl
  obtain ⟨-, -, -, hexpr, -, -, -⟩ := replaced_indifferent hs hlike 1 1
  obtain ⟨-, -, -, hexpr', -, -, hfield⟩ := replaced_indifferent ht hlike' 1 1
  have hrun : (e.eval (invokeThrough (.sparing 0) 1) 1 s).1 = .ok (.string "ndefault!") := rfl
  have hrun' : (e'.eval (invokeThrough (.sparing 1) 1) 1 s).1 = .ok (.primitive (.bool true)) :=
    rfl
  have hspares : Run.Spares 0 1 (fun invoke => e.eval invoke) 1 s := by
    rw [Run.Spares, hrun]
    exact nofun
  have hspares' : Run.Spares 1 1 (fun invoke => e'.eval invoke) 1 s := by
    rw [Run.Spares, hrun']
    exact nofun
  have hsame := (hexpr e (.binary _ (.name _) (.literal _)) hspares).2
  have hsame' := (hexpr' e' (.binary _ (.literal _) (.name _)) hspares').2
  exact ⟨congrArg Prod.fst hsame, congrArg Prod.fst hsame', (hfield "valuate" _ rfl).1⟩

end

end Coercive
