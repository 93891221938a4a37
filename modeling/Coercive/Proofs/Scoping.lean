import Coercive.Proofs.Likeness

namespace Coercive

variable {α β : Type} {a : Allowance} {scope scope' : Table String Value}

/-- Bodies may do everything but read some variables. -/
def Allowance.hiding (xs : List String) : Allowance where
  calls := True
  reads := (· ∉ xs)

def State.rescope (s : State) (scope : Table String Value) : State := { s with scope }

namespace Run

/-- Under either scope the computation does the same, and it leaves the variables as they are. -/
def Rescopes (a : Allowance) (scope scope' : Table String Value) (act : Run α) : Prop :=
  ∀ (limit : Nat) (s : State), s.Within a → s.scope = scope →
    act limit (s.rescope scope') = ((act limit s).1, (act limit s).2.rescope scope') ∧
      (act limit s).2.Within a ∧ (act limit s).2.scope = scope

namespace Rescopes

theorem step {f : State → α × State}
    (hf : ∀ s, s.Within a → (f s).2.Within a ∧ (f s).2.scope = s.scope)
    (hscope : ∀ s, s.scope = scope → f (s.rescope scope') = ((f s).1, (f s).2.rescope scope')) :
    Rescopes a scope scope' (Run.step f) := by
  intro limit s hs hscoped
  obtain ⟨hwithin, hkept⟩ := hf s hs
  refine ⟨?_, hwithin, hkept.trans hscoped⟩
  simp only [Run.step, hscope s hscoped]

theorem stop (e : Stop) : Rescopes a scope scope' (Run.stop e : Run α) :=
  fun _ _ hs hscoped => ⟨rfl, hs, hscoped⟩

theorem pure (v : α) : Rescopes a scope scope' (Pure.pure v) :=
  fun _ _ hs hscoped => ⟨rfl, hs, hscoped⟩

theorem bind {act : Run α} {next : α → Run β} (h : Rescopes a scope scope' act)
    (hnext : ∀ v, Rescopes a scope scope' (next v)) : Rescopes a scope scope' (act >>= next) := by
  intro limit s hs hscoped
  obtain ⟨heq, ht, hkept⟩ := h limit s hs hscoped
  rcases hrun : act limit s with ⟨e | v, t⟩ <;> rw [hrun] at heq ht hkept
  · rw [bind_of_error hrun, bind_of_error heq]
    exact ⟨rfl, ht, hkept⟩
  · rw [bind_of_ok hrun, bind_of_ok heq]
    exact hnext v limit t ht hkept

theorem nested {act : Run α} (h : Rescopes a scope scope' act) :
    Rescopes a scope scope' act.nested := by
  intro limit s hs hscoped
  by_cases hdepth : s.depth < limit
  · obtain ⟨heq, ht, hkept⟩ := h limit s.enter (hs.of_objects rfl) hscoped
    have hinside : act limit (s.rescope scope').enter =
        ((act limit s.enter).1, (act limit s.enter).2.rescope scope') := heq
    rw [nested_of_lt act hdepth, nested_of_lt act (s := s.rescope scope') hdepth, hinside]
    exact ⟨rfl, ht.of_objects rfl, hkept⟩
  · have hle := Nat.le_of_not_lt hdepth
    rw [nested_of_le act hle, nested_of_le act (s := s.rescope scope') hle]
    exact ⟨rfl, hs, hscoped⟩

theorem traced (call : Nat → Call) {act : Run Value} (h : Rescopes a scope scope' act) :
    Rescopes a scope scope' (get >>= fun s => Run.traced (call s.depth) act) := by
  intro limit s hs hscoped
  let s' : State := { s with trace := .called (call s.depth) :: s.trace }
  obtain ⟨heq, ht, hkept⟩ := h limit s' (hs.of_objects rfl) hscoped
  have hends := congrArg (fun r : Except Stop Value × State =>
    (r.1, ({ r.2 with trace := .returned (stop? r.1) :: r.2.trace } : State))) heq
  exact ⟨hends, ht.of_objects rfl, hkept⟩

end Rescopes

end Run

def rescoping (h : ∀ x, a.reads x → scope'.get? x = scope.get? x) : Rules a where
  holds act _ := act.Rescopes a scope scope'
  pure := .pure
  fail f := .stop _
  bind := .bind
  object ref _ _ hnext limit s hs hscoped := hnext _ (hs ref) limit s hs hscoped
  lookup {x} hx := .step (f := fun s => (s.scope.get? x, s)) (fun _ hs => ⟨hs, rfl⟩)
    fun s hscoped => by rw [hscoped, ← h x hx]; rfl
  allocate {o} ho :=
    .step (f := fun s => (Value.object s.objects.size, { s with objects := s.objects.push o }))
      (fun _ hs => ⟨hs.push ho, rfl⟩) fun _ _ => rfl
  count counter :=
    .step (f := fun s => ((s.counters.get? counter).getD 0 + 1,
      { s with counters := s.counters.insert counter ((s.counters.get? counter).getD 0 + 1) }))
      (fun _ hs => ⟨hs.of_objects rfl, rfl⟩) fun _ _ => rfl
  depth := .step (f := fun s => (Value.number (.ofNat s.depth), s)) (fun _ hs => ⟨hs, rfl⟩)
    fun _ _ => rfl
  traced call _ _ _ h := .traced call h

theorem rescoping_covers (h : ∀ x, a.reads x → scope'.get? x = scope.get? x) (budget : Nat) :
    (rescoping h).Covers (invokeWithin budget) (invokeWithin budget) :=
  Rules.covers_within Run.Rescopes.nested (Run.Rescopes.stop _) budget

def keepingScope (scope : Table String Value) : Rules .all :=
  rescoping fun x _ => (rfl : scope.get? x = scope.get? x)

theorem keepingScope_covers (scope : Table String Value) (budget : Nat) :
    (keepingScope scope).Covers (invokeWithin budget) (invokeWithin budget) :=
  rescoping_covers _ budget

namespace Expr

theorem eval_name {s : State} {x : String} {v : Value} (h : s.scope.get? x = some v)
    (invoke : Invoker) (limit : Nat) : (name x).eval invoke limit s = (.ok v, s) := by
  rw [eval, Run.bind_of_ok (Binding.find_of_some h limit)]
  rfl

theorem eval_name_builtin {s : State} {x : String} {b : Builtin} (h : s.scope.get? x = none)
    (hb : Builtin.ofName? x = some b) (invoke : Invoker) (limit : Nat) :
    (name x).eval invoke limit s =
      (.ok (.object s.objects.size),
        { s with objects := s.objects.push (.function (.builtin b)) }) := by
  rw [eval, Run.bind_of_ok (Binding.find_of_none h hb limit)]
  rfl

theorem eval_scope (e : Expr) (budget limit : Nat) (s : State) :
    (e.eval (invokeWithin budget) limit s).2.scope = s.scope :=
  (Rules.eval (keepingScope_covers s.scope budget) e (e.within_of_reads fun _ => trivial) limit s
    (fun _ => Object.within_all _) rfl).2.2

/-- Evaluation does not depend on variables that neither the expression nor a body reads. -/
theorem eval_rescope {e : Expr} {s : State} (he : e.Within a) (hs : s.Within a)
    (h : ∀ x, a.reads x → scope'.get? x = s.scope.get? x) (budget limit : Nat) :
    e.eval (invokeWithin budget) limit (s.rescope scope') =
      ((e.eval (invokeWithin budget) limit s).1,
        (e.eval (invokeWithin budget) limit s).2.rescope scope') :=
  (Rules.eval (rescoping_covers h budget) e he limit s hs rfl).1

end Expr

end Coercive
