import Coercive.Proofs.BuildRules
import Coercive.Proofs.Limit
import Coercive.Proofs.StepRules

namespace Coercive

variable {α β : Type} {a : Allowance} {limit level : Nat}

namespace Run

/-- Started at a level, among objects that keep to the allowance, the computation ends with a value
or a failure, at the same level and among such objects. -/
def Finishes (a : Allowance) (limit level : Nat) (Q : α → Prop) (act : Run α) : Prop :=
  ∀ s : State, s.Within a → s.depth = level → ∃ t : State, t.Within a ∧ t.depth = level ∧
    ((∃ v, act limit s = (.ok v, t) ∧ Q v) ∨ ∃ f, act limit s = (.error (.failed f), t))

namespace Finishes

theorem ends {Q : α → Prop} {act : Run α} (h : Finishes a limit level Q act) {s : State}
    (hs : s.Within a) (hd : s.depth = level) :
    (act limit s).1 ≠ .error .exhausted ∧ (act limit s).2.Within a := by
  obtain ⟨t, ht, -, ⟨v, hrun, -⟩ | ⟨f, hrun⟩⟩ := h s hs hd
  · rw [hrun]
    exact ⟨by simp, ht⟩
  · rw [hrun]
    exact ⟨by simp, ht⟩

theorem step {Q : α → Prop} {f : State → α × State}
    (hf : ∀ s, s.Within a → (f s).2.Within a ∧ (f s).2.depth = s.depth ∧ Q (f s).1) :
    Finishes a limit level Q (Run.step f) := by
  intro s hs hd
  obtain ⟨hafter, hdepth, hvalue⟩ := hf s hs
  exact ⟨(f s).2, hafter, hdepth.trans hd, .inl ⟨(f s).1, rfl, hvalue⟩⟩

theorem fail {Q : α → Prop} (f : Failure) : Finishes a limit level Q (Run.fail f) :=
  fun s hs hd => ⟨s, hs, hd, .inr ⟨f, rfl⟩⟩

theorem bind {P : α → Prop} {Q : β → Prop} {act : Run α} {next : α → Run β}
    (h : Finishes a limit level P act) (hnext : ∀ v, P v → Finishes a limit level Q (next v)) :
    Finishes a limit level Q (act >>= next) := by
  intro s hs hd
  obtain ⟨t, ht, htd, ⟨v, hrun, hv⟩ | ⟨f, hrun⟩⟩ := h s hs hd
  · rw [bind_of_ok hrun]
    exact hnext v hv t ht htd
  · rw [bind_of_error hrun]
    exact ⟨t, ht, htd, .inr ⟨f, rfl⟩⟩

theorem andThen {Q : β → Prop} {act : Run α} {next : α → Run β}
    (h : Finishes a limit level (fun _ => True) act)
    (hnext : ∀ v, Finishes a limit level Q (next v)) : Finishes a limit level Q (act >>= next) :=
  h.bind fun v _ => hnext v

theorem pure {Q : α → Prop} {v : α} (h : Q v) : Finishes a limit level Q (Pure.pure v) :=
  .step (f := fun s => (v, s)) fun _ hs => ⟨hs, rfl, h⟩

theorem object (ref : Nat) : Finishes a limit level (Object.Within a) (Run.object ref) :=
  .step (f := fun s => (s.object ref, s)) fun _ hs => ⟨hs, rfl, hs ref⟩

theorem lookup {Q : Option Value → Prop} (x : String) (h : ∀ found, Q found) :
    Finishes a limit level Q (Run.lookup? x) :=
  .step (f := fun s => (s.scope.get? x, s)) fun _ hs => ⟨hs, rfl, h _⟩

theorem depth : Finishes a limit level (fun _ => True)
    (do return Value.number (.ofNat (← Run.get).depth)) :=
  .step (f := fun s => (Value.number (.ofNat s.depth), s)) fun _ hs => ⟨hs, rfl, trivial⟩

theorem allocate {o : Object} (ho : o.Within a) :
    Finishes a limit level (fun _ => True) (Run.allocate o) :=
  .step (f := fun s => (Value.object s.objects.size, { s with objects := s.objects.push o }))
    fun _ hs => ⟨hs.push ho, rfl, trivial⟩

theorem assign (x : String) (v : Value) :
    Finishes a limit level (fun _ => True) (Run.assign x v) :=
  .step (f := fun s => ((), { s with scope := s.scope.insert x v }))
    fun _ hs => ⟨hs.of_objects rfl, rfl, trivial⟩

theorem count (counter : Nat) : Finishes a limit level (fun _ => True) (Run.count counter) :=
  .step (f := fun s => ((s.counters.get? counter).getD 0 + 1,
    { s with counters := s.counters.insert counter ((s.counters.get? counter).getD 0 + 1) }))
    fun _ hs => ⟨hs.of_objects rfl, rfl, trivial⟩

theorem traced (call : Nat → Call) {act : Run Value}
    (h : Finishes a limit level (fun _ => True) act) :
    Finishes a limit level (fun _ => True)
      (get >>= fun s => Run.traced (call s.depth) act) := by
  intro s hs hd
  have hcalled : { s with trace := .called (call s.depth) :: s.trace }.Within a := hs.of_objects rfl
  obtain ⟨t, ht, htd, hends⟩ := h _ hcalled hd
  rw [traced_apply]
  rcases hends with ⟨v, hrun, hv⟩ | ⟨f, hrun⟩
  · refine ⟨{ t with trace := .returned none :: t.trace }, ht.of_objects rfl, htd, .inl ⟨v, ?_, hv⟩⟩
    rw [hrun]
    rfl
  · refine ⟨{ t with trace := .returned (some (.failed f)) :: t.trace }, ht.of_objects rfl, htd,
      .inr ⟨f, ?_⟩⟩
    rw [hrun]
    rfl

theorem nested {Q : α → Prop} {act : Run α}
    (h : level < limit → Finishes a limit (level + 1) Q act) :
    Finishes a limit level Q act.nested := by
  intro s hs hd
  by_cases hlimit : level < limit
  · obtain ⟨t, ht, htd, hends⟩ := h hlimit s.enter (hs.of_objects rfl) (by rw [← hd]; rfl)
    rw [nested_of_lt act (hd ▸ hlimit)]
    refine ⟨t.leave, ht.of_objects rfl, by rw [State.leave, htd]; rfl, ?_⟩
    rcases hends with ⟨v, hrun, hv⟩ | ⟨f, hrun⟩
    · exact .inl ⟨v, by rw [hrun], hv⟩
    · exact .inr ⟨f, by rw [hrun]⟩
  · rw [nested_of_le act (by omega)]
    exact ⟨s, hs, hd, .inr ⟨_, rfl⟩⟩

def building (a : Allowance) (limit level : Nat) : BuildRules a where
  keeps _ _ := True
  holds n P := Finishes a limit level (P n)
  primitive _ := trivial
  mono _ _ := trivial
  pure := .pure
  bind {_ _ n _ _ _ _} h hnext := h.bind fun v hv => hnext n v (Nat.le_refl n) hv
  lookup _ := .lookup _ fun _ _ _ => trivial
  plain _ _ := .allocate trivial
  function _ _ h := .allocate h
  record h := .allocate (Record.within_ofEdits h)

theorem build {b : Blueprint} (hb : b.Within a) :
    Finishes a limit level (fun _ => True) b.build :=
  BuildRules.build (L := building a limit level) (n := 0) b hb

end Finishes

end Run

def finishing (a : Allowance) (limit level : Nat) : Rules a where
  holds x _ := Run.Finishes a limit level (fun _ => True) x
  pure _ := .pure trivial
  fail := .fail
  bind h hnext := h.andThen hnext
  object ref _ _ hnext := (Run.Finishes.object ref).bind hnext
  lookup {x} _ := .lookup x fun _ => trivial
  allocate := .allocate
  count := .count
  depth := .depth
  traced call _ _ _ := .traced call

/-- A conversion ends if the methods called one level deeper do. -/
theorem finishing_reduces {invoke : Invoker}
    (h : level < limit → (finishing a limit (level + 1)).Invokes invoke invoke) :
    (finishing a limit level).Reduces invoke invoke := by
  intro v hint
  cases v with
  | primitive p => exact .pure trivial
  | object ref =>
    have hinside : level < limit → (finishing a limit (level + 1)).holds
        (Run.object ref >>= fun o => o.reduce invoke (.object ref) hint)
        (Run.object ref >>= fun o => o.reduce invoke (.object ref) hint) := fun hlimit =>
      Rules.object _ ref fun o ho => Rules.reduceObject (h hlimit) ho _ hint
    exact Run.Finishes.nested hinside

/-- Calls nest at most as deep as levels are left, and one deeper. -/
theorem invokeWithin_finishing (hcalls : ¬ a.calls) {budget : Nat} (h : limit - level < budget) :
    (finishing a limit level).Invokes (invokeWithin budget) (invokeWithin budget) := by
  induction budget generalizing level with
  | zero => exact absurd h (Nat.not_lt_zero _)
  | succ budget ih =>
    apply Rules.method
    · exact finishing_reduces fun hlimit => ih (by omega)
    · exact fun hallowed => absurd hallowed hcalls

theorem invokeWithin_covers (hcalls : ¬ a.calls) {budget : Nat} (h : limit - level < budget) :
    (finishing a limit level).Covers (invokeWithin budget) (invokeWithin budget) where
  reduces := finishing_reduces fun _ => invokeWithin_finishing hcalls (by omega)
  invokes := invokeWithin_finishing hcalls h

theorem step_finishes {step : Step} {s : State} {budget : Nat} (hstep : step.Within .conversions)
    (hs : s.Within .conversions) (h : limit - s.depth < budget) :
    step.Ends limit s (step.run (invokeWithin budget) limit s) ∧
      (step.run (invokeWithin budget) limit s).2.Within .conversions := by
  have hfinishes : Run.Finishes .conversions limit s.depth (fun _ => True)
      (step.run (invokeWithin budget)) :=
    Rules.step (invokeWithin_covers not_false h) (fun _ => trivial) .assign step
      fun b hb => .build (hstep b hb)
  obtain ⟨houtcome, hafter⟩ := hfinishes.ends hs rfl
  exact ⟨⟨budget, rfl, houtcome⟩, hafter⟩

namespace Session

theorem reports_finish (limit : Nat) {steps : List Step} {s : State}
    (hsteps : ∀ step ∈ steps, step.Within .conversions) (hs : s.Within .conversions) :
    ∀ r ∈ reports limit steps s, r.outcome ≠ .error .exhausted := by
  induction steps generalizing s with
  | nil => simp [reports]
  | cons step steps ih =>
    have hbudget : limit - s.depth < callBudget limit := by
      unfold callBudget
      omega
    have hstart : { s with trace := [] }.Within .conversions := hs.of_objects rfl
    obtain ⟨⟨_, hends, houtcome⟩, hafter⟩ := step_finishes (hsteps step (.head _)) hstart hbudget
    intro r hr
    rcases List.mem_cons.1 hr with rfl | hr
    · exact houtcome
    · exact ih (fun step' hstep' => hsteps step' (.tail _ hstep')) hafter r hr

theorem within_define {definitions : List (String × Blueprint)}
    (h : ∀ d ∈ definitions, d.2.Within .conversions) (limit : Nat) :
    (define definitions limit {}).2.Within .conversions := by
  have hfinishes : Run.Finishes .conversions limit 0 (fun _ => True) (define definitions) :=
    Rules.define (L := finishing .conversions limit 0) .assign definitions
      fun d hd => .build (h d hd)
  exact (hfinishes.ends .empty rfl).2

end Session

/-- If bodies do not call methods themselves, every step ends with a value or a failure, and so does
each that follows it. It suffices that calls may nest one deeper than levels are left, as they may
in a session. -/
theorem conversions_terminate :
    (∀ (limit budget : Nat) (step : Step) (s : State), step.Within .conversions →
      s.Within .conversions → limit - s.depth < budget →
      step.Ends limit s (step.run (invokeWithin budget) limit s) ∧
        (step.run (invokeWithin budget) limit s).2.Within .conversions) ∧
    (∀ session : Session, session.Within .conversions →
      ∀ r ∈ session.run, r.outcome ≠ .error .exhausted) :=
  ⟨fun _ _ _ _ hstep hs hbudget => step_finishes hstep hs hbudget,
    fun _ h => Session.reports_finish _ h.steps (Session.within_define h.definitions _)⟩

/-- Two objects whose hooks convert each other go round until the limit stops them. -/
theorem conversions_terminate_cycle :
    let first : Blueprint :=
      .record "" "" [] (some (.coerce (.read "second") none)) .inherited .inherited
    let second : Blueprint :=
      .record "" "" [] (some (.coerce (.read "first") none)) .inherited .inherited
    let step : Step := .reduce (.read "first") .number
    let session : Session :=
      { limit := 3, definitions := [("first", first), ("second", second)], steps := [step] }
    let s := (Session.define session.definitions 3 {}).2
    step.Within .conversions ∧ s.Within .conversions ∧ session.Within .conversions ∧
      3 - s.depth < 4 ∧ (step.run (invokeWithin 4) 3 s).1 = .error (.failed (.depthExceeded 3)) ∧
      step.Ends 3 s (step.run (invokeWithin 4) 3 s) ∧
      ∀ r ∈ session.run, r.outcome ≠ .error .exhausted := by
  intro first second step session s
  have hrecord : ∀ x, (Blueprint.record "" "" [] (some (.coerce (.read x) none)) .inherited
      .inherited).Within .conversions := by
    intro x
    refine .record (by simp) (fun body hbody => ?_) (fun _ h => nomatch h) fun _ h => nomatch h
    cases hbody
    exact .coerce (.read trivial)
  have hdefinitions : ∀ d ∈ session.definitions, d.2.Within .conversions := by
    simpa [session, first, second] using ⟨hrecord "second", hrecord "first"⟩
  have hstep : step.Within .conversions := by
    intro b hb
    rw [List.mem_singleton.1 hb]
    exact .read trivial
  have hs : s.Within .conversions := Session.within_define hdefinitions 3
  have hsession : session.Within .conversions := by
    refine ⟨hdefinitions, fun step' hstep' => ?_⟩
    rw [List.mem_singleton.1 hstep']
    exact hstep
  have hroom : 3 - s.depth < 4 := by decide
  obtain ⟨hends, hreports⟩ := conversions_terminate
  exact ⟨hstep, hs, hsession, hroom, rfl, (hends 3 4 step s hstep hs hroom).1,
    hreports session hsession⟩

end Coercive
