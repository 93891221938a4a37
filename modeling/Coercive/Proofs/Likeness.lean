import Coercive.Proofs.BuildRules
import Coercive.Proofs.StepRules
import Mathlib.Tactic.Choose

namespace Coercive

/-- The state as it is when older events stand behind those of its trace. -/
def State.behind (s : State) (old : List Event) : State := { s with trace := s.trace ++ old }

theorem State.behind_nil (s : State) : s.behind [] = s := by rw [behind, List.append_nil]

namespace Run

variable {α β : Type}

theorem bind_of_ok {act : Run α} {next : α → Run β} {limit : Nat} {s t : State} {a : α}
    (h : act limit s = (.ok a, t)) : (act >>= next) limit s = next a limit t := by
  rw [bind_apply, h]

theorem bind_of_error {act : Run α} {next : α → Run β} {limit : Nat} {s t : State} {e : Stop}
    (h : act limit s = (.error e, t)) : (act >>= next) limit s = (.error e, t) := by
  rw [bind_apply, h]

theorem nested_of_lt (act : Run α) {limit : Nat} {s : State} (h : s.depth < limit) :
    act.nested limit s = ((act limit s.enter).1, (act limit s.enter).2.leave) := by
  simp [nested, h]

theorem nested_of_le (act : Run α) {limit : Nat} {s : State} (h : limit ≤ s.depth) :
    act.nested limit s = (.error (.failed (.depthExceeded limit)), s) := by
  simp [nested, Nat.not_lt.2 h, fail, stop]

theorem traced_apply (call : Nat → Call) (act : Run Value) (limit : Nat) (s : State) :
    (get >>= fun s => traced (call s.depth) act) limit s =
      match act limit { s with trace := .called (call s.depth) :: s.trace } with
      | (outcome, t) => (outcome, { t with trace := .returned (stop? outcome) :: t.trace }) := rfl

def step (f : State → α × State) : Run α := fun _ s => (.ok (f s).1, (f s).2)

/-- Only `nested` reads the limit and changes the depth, only `nested` and `traced` add to the
trace, and nothing reads the trace. -/
inductive Alike (leaf : Run Value → Run Value → Prop) : {α : Type} → Run α → Run α → Prop
  | leaf {x y : Run Value} (h : leaf x y) : Alike leaf x y
  | stop {α : Type} (e : Stop) : Alike leaf (Run.stop e : Run α) (Run.stop e)
  | step {α : Type} (f : State → α × State)
      (hf : ∀ s, (f s).2.depth = s.depth ∧ (f s).2.trace = s.trace)
      (hblind : ∀ s old, f (s.behind old) = ((f s).1, (f s).2.behind old)) :
      Alike leaf (Run.step f) (Run.step f)
  | bind {α β : Type} {x y : Run α} {f g : α → Run β} (hx : Alike leaf x y)
      (hf : ∀ a, Alike leaf (f a) (g a)) : Alike leaf (x >>= f) (y >>= g)
  | nested {α : Type} {x y : Run α} (hx : Alike leaf x y) : Alike leaf x.nested y.nested
  | traced {x y : Run Value} (call : Nat → Call) (hcall : ∀ depth, (call depth).depth = depth)
      (hx : Alike leaf x y) :
      Alike leaf (get >>= fun s => traced (call s.depth) x)
        (get >>= fun s => traced (call s.depth) y)

namespace Alike

variable {leaf : Run Value → Run Value → Prop}

theorem pure (a : α) : Alike leaf (Pure.pure a : Run α) (Pure.pure a) :=
  .step (fun s => (a, s)) (fun _ => ⟨rfl, rfl⟩) fun _ _ => rfl

theorem fail (f : Failure) : Alike leaf (Run.fail f : Run α) (Run.fail f) := .stop _

theorem object (ref : Nat) : Alike leaf (Run.object ref) (Run.object ref) :=
  .step (fun s => (s.object ref, s)) (fun _ => ⟨rfl, rfl⟩) fun _ _ => rfl

theorem lookup? (x : String) : Alike leaf (Run.lookup? x) (Run.lookup? x) :=
  .step (fun s => (s.scope.get? x, s)) (fun _ => ⟨rfl, rfl⟩) fun _ _ => rfl

theorem depth : Alike leaf (do return Value.number (.ofNat (← Run.get).depth))
    (do return Value.number (.ofNat (← Run.get).depth)) :=
  .step (fun s => (Value.number (.ofNat s.depth), s)) (fun _ => ⟨rfl, rfl⟩) fun _ _ => rfl

theorem allocate (o : Object) : Alike leaf (Run.allocate o) (Run.allocate o) :=
  .step (fun s => (Value.object s.objects.size, { s with objects := s.objects.push o }))
    (fun _ => ⟨rfl, rfl⟩) fun _ _ => rfl

theorem assign (x : String) (v : Value) : Alike leaf (Run.assign x v) (Run.assign x v) :=
  .step (fun s => ((), { s with scope := s.scope.insert x v })) (fun _ => ⟨rfl, rfl⟩)
    fun _ _ => rfl

theorem count (counter : Nat) : Alike leaf (Run.count counter) (Run.count counter) :=
  .step (fun s => ((s.counters.get? counter).getD 0 + 1,
    { s with counters := s.counters.insert counter ((s.counters.get? counter).getD 0 + 1) }))
    (fun _ => ⟨rfl, rfl⟩) fun _ _ => rfl

end Alike

-- Values are followed by conditions where they are built, for which `Alike` has no place.
/-- The computation cannot fail, keeps the depth and the trace, and reads neither the trace nor the
limit. -/
def Quiet (P : α → Prop) (act : Run α) : Prop :=
  ∀ s : State, ∃ (v : α) (t : State), P v ∧ t.depth = s.depth ∧ t.trace = s.trace ∧
    ∀ limit old, act limit (s.behind old) = (.ok v, t.behind old)

namespace Quiet

theorem pure {P : α → Prop} {v : α} (h : P v) : Quiet P (Pure.pure v) :=
  fun s => ⟨v, s, h, rfl, rfl, fun _ _ => rfl⟩

theorem bind {P : α → Prop} {Q : β → Prop} {act : Run α} {next : α → Run β} (h : Quiet P act)
    (hnext : ∀ v, P v → Quiet Q (next v)) : Quiet Q (act >>= next) := by
  intro s
  obtain ⟨v, t, hv, hdepth, htrace, hrun⟩ := h s
  obtain ⟨w, u, hw, hdepth', htrace', hrun'⟩ := hnext v hv t
  refine ⟨w, u, hw, hdepth'.trans hdepth, htrace'.trans htrace, fun limit old => ?_⟩
  rw [bind_of_ok (hrun limit old), hrun']

theorem allocate (o : Object) : Quiet (fun _ => True) (Run.allocate o) :=
  fun s => ⟨.object s.objects.size, { s with objects := s.objects.push o }, trivial, rfl, rfl,
    fun _ _ => rfl⟩

/-- Nothing that is built fails, and building runs no method. -/
def building : BuildRules .all where
  keeps _ _ := True
  holds n P := Quiet (P n)
  primitive _ := trivial
  mono _ _ := trivial
  pure := .pure
  bind {_ _ n _ _ _ _} h hnext := h.bind fun v hv => hnext n v (Nat.le_refl n) hv
  lookup {_ x} _ := fun s => ⟨s.scope.get? x, s, fun _ _ => trivial, rfl, rfl, fun _ _ => rfl⟩
  plain _ _ := .allocate _
  function _ _ _ := .allocate _
  record _ := .allocate _

theorem build (b : Blueprint) : Quiet (fun _ => True) b.build :=
  BuildRules.build (L := building) (n := 0) b b.within_all

theorem alike {P : α → Prop} {act : Run α} (h : Quiet P act)
    (leaf : Run Value → Run Value → Prop) : Alike leaf act act := by
  choose v t _ hdepth htrace hrun using h
  have hstep : act = Run.step fun s => (v s, t s) := by
    funext limit s
    have hrun := hrun s limit []
    rwa [State.behind_nil, State.behind_nil] at hrun
  rw [hstep]
  refine .step _ (fun s => ⟨hdepth s, htrace s⟩) fun s old => ?_
  have hbehind := hrun s 0 old
  rw [hstep] at hbehind
  obtain ⟨hvalue, hstate⟩ := Prod.mk.inj hbehind
  exact Prod.ext (Except.ok.inj hvalue) hstate

end Quiet

end Run

def Run.alike (leaf : Run Value → Run Value → Prop) : Rules .all where
  holds := Run.Alike leaf
  pure := .pure
  fail := .fail
  bind := .bind
  object ref _ _ hnext := .bind (.object ref) fun o => hnext o o.within_all
  lookup _ := .lookup? _
  allocate _ := .allocate _
  count := .count
  depth := .depth
  traced call hcall _ _ h := .traced call hcall h

/-- Two ways of running methods that are alike for every call. -/
def Invoker.Alike (leaf : Run Value → Run Value → Prop) (invoke invoke' : Invoker) : Prop :=
  ∀ m receiver args, Run.Alike leaf (invoke m receiver args) (invoke' m receiver args)

namespace Invoker.Alike

variable {leaf : Run Value → Run Value → Prop} {invoke invoke' : Invoker}

theorem reduceObject (h : Alike leaf invoke invoke') (o : Object) (receiver : Value) (hint : Hint) :
    Run.Alike leaf (o.reduce invoke receiver hint) (o.reduce invoke' receiver hint) :=
  Rules.reduceObject (L := Run.alike leaf) (fun m _ => h m) o.within_all receiver hint

theorem reduce (h : Alike leaf invoke invoke') (v : Value) (hint : Hint) :
    Run.Alike leaf (v.reduce invoke hint) (v.reduce invoke' hint) :=
  Rules.reduces (L := Run.alike leaf) .nested (fun m _ => h m) v hint

theorem covers (h : Alike leaf invoke invoke') : (Run.alike leaf).Covers invoke invoke' where
  reduces := h.reduce
  invokes m _ := h m

theorem method (h : Alike leaf invoke invoke') :
    Alike leaf (Method.run invoke) (Method.run invoke') :=
  fun m => Rules.method h.covers.reduces (fun _ => h.covers.invokes) m m.within_all

theorem step (h : Alike leaf invoke invoke') (step : Step) :
    Run.Alike leaf (step.run invoke) (step.run invoke') :=
  Rules.step h.covers (fun _ => trivial) .assign step fun b _ => (Run.Quiet.build b).alike leaf

theorem define (definitions : List (String × Blueprint)) :
    Run.Alike leaf (Session.define definitions) (Session.define definitions) :=
  Rules.define (L := Run.alike leaf) .assign definitions fun d _ => (Run.Quiet.build d.2).alike leaf

theorem within (budget : Nat) : Alike leaf (invokeWithin budget) (invokeWithin budget) := by
  induction budget with
  | zero => exact fun _ _ _ => .stop _
  | succ budget ih => exact ih.method

theorem more (hleaf : ∀ x, leaf (.stop .exhausted) x) (budget extra : Nat) :
    Alike leaf (invokeWithin budget) (invokeWithin (budget + extra)) := by
  induction budget with
  | zero => exact fun _ _ _ => .leaf (hleaf _)
  | succ budget ih =>
    rw [Nat.succ_add]
    exact ih.method

end Invoker.Alike

end Coercive
