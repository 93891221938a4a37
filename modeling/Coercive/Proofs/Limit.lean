import Coercive.Proofs.Likeness

namespace Coercive

variable {α β : Type}

namespace State

@[simp] theorem calls_enter (s : State) : s.enter.calls = s.calls := by
  simp [enter, calls, Event.call?]

@[simp] theorem calls_leave (s : State) : s.leave.calls = s.calls := by
  simp [leave, calls, Event.call?]

theorem calls_called (s : State) (call : Call) :
    { s with trace := .called call :: s.trace }.calls = s.calls ++ [call] := by
  simp [calls, Event.call?]

@[simp] theorem calls_returned (s : State) (stop : Option Stop) :
    { s with trace := .returned stop :: s.trace }.calls = s.calls := by
  simp [calls, Event.call?]

end State

namespace Run

theorem calls_traced (call : Nat → Call) (act : Run Value) (limit : Nat) (s : State) :
    ((get >>= fun s => traced (call s.depth) act) limit s).2.calls =
      (act limit { s with trace := .called (call s.depth) :: s.trace }).2.calls :=
  State.calls_returned _ _

theorem Alike.calls_extend {x y : Run α} (h : Alike (fun _ _ => False) x y) (limit : Nat)
    (s : State) : s.calls <+: (x limit s).2.calls := by
  induction h generalizing s with
  | leaf h => exact h.elim
  | stop e => exact List.prefix_refl _
  | step f hf => simp only [Run.step, State.calls, (hf s).2, List.prefix_refl]
  | @bind α β x y f g _ _ ihx ihf =>
    have hx := ihx s
    rcases hrun : x limit s with ⟨e | a, t⟩ <;> rw [hrun] at hx
    · rw [bind_of_error hrun]
      exact hx
    · rw [bind_of_ok hrun]
      exact hx.trans (ihf a t)
  | @nested α x y _ ih =>
    by_cases hs : s.depth < limit
    · rw [nested_of_lt x hs]
      simpa using ih s.enter
    · have heq := nested_of_le x (Nat.le_of_not_lt hs)
      simp only [heq, List.prefix_refl]
  | @traced x y call _ _ ih =>
    have hbody := ih { s with trace := .called (call s.depth) :: s.trace }
    rw [State.calls_called] at hbody
    rw [calls_traced]
    exact (List.prefix_append _ _).trans hbody

/-- Under the smaller limit a computation does the same, or the guard refuses and it has made the
first of the calls that it makes under the larger limit. -/
def Truncates (act : Run α) : Prop :=
  ∀ (limit limit' : Nat) (s : State), limit ≤ limit' → act limit s = act limit' s ∨
    (act limit s).1 = .error (.failed (.depthExceeded limit)) ∧
      (act limit s).2.calls <+: (act limit' s).2.calls

theorem Truncates.bind {act : Run α} {next : α → Run β} (h : Truncates act)
    (hnext : ∀ a, Truncates (next a))
    (hcalls : ∀ a limit s, s.calls <+: (next a limit s).2.calls) : Truncates (act >>= next) := by
  intro limit limit' s hle
  rcases h limit limit' s hle with heq | ⟨hrefused, hprefix⟩
  · rcases hrun : act limit s with ⟨e | a, t⟩ <;> rw [hrun] at heq
    · rw [bind_of_error hrun, bind_of_error heq.symm]
      exact .inl rfl
    · rw [bind_of_ok hrun, bind_of_ok heq.symm]
      exact hnext a limit limit' t hle
  · -- The longer run may go on, and only adds calls to those it has in common with the shorter one.
    right
    rcases hrun : act limit s with ⟨outcome, t⟩
    rw [hrun] at hrefused hprefix
    cases hrefused
    rw [bind_of_error hrun]
    refine ⟨rfl, hprefix.trans ?_⟩
    rcases hrun' : act limit' s with ⟨e | a, u⟩
    · simp only [bind_of_error hrun', List.prefix_refl]
    · rw [bind_of_ok hrun']
      exact hcalls a limit' u

theorem Truncates.nested {act : Run α} (h : Truncates act)
    (hcalls : ∀ limit s, s.calls <+: (act.nested limit s).2.calls) : Truncates act.nested := by
  intro limit limit' s hle
  by_cases hs : s.depth < limit
  · rw [nested_of_lt act hs, nested_of_lt act (Nat.lt_of_lt_of_le hs hle)]
    rcases h limit limit' s.enter hle with heq | ⟨hrefused, hprefix⟩
    · exact .inl (by rw [heq])
    · exact .inr ⟨hrefused, by simpa using hprefix⟩
  · rw [nested_of_le act (Nat.le_of_not_lt hs)]
    exact .inr ⟨rfl, hcalls limit' s⟩

theorem Truncates.traced {act : Run Value} (call : Nat → Call) (h : Truncates act) :
    Truncates (get >>= fun s => traced (call s.depth) act) := by
  intro limit limit' s hle
  have hbody := h limit limit' { s with trace := .called (call s.depth) :: s.trace } hle
  rcases hbody with heq | hrefused
  · exact .inl (by rw [traced_apply, traced_apply, heq])
  · rw [calls_traced, calls_traced]
    exact .inr hrefused

theorem Alike.truncates {x y : Run α} (h : Alike (fun _ _ => False) x y) : Truncates x := by
  induction h with
  | leaf h => exact h.elim
  | stop e => exact fun _ _ _ _ => .inl rfl
  | step f hf => exact fun _ _ _ _ => .inl rfl
  | bind _ hf ihx ihf => exact ihx.bind ihf fun a => (hf a).calls_extend
  | nested hx ih => exact ih.nested hx.nested.calls_extend
  | traced call _ _ ih => exact ih.traced call

/-- More budget makes no difference to a run that does not use up the smaller one. -/
theorem Alike.finished {x y : Run α} (h : Alike (fun x _ => x = .stop .exhausted) x y)
    {limit : Nat} {s : State} (hfinished : (x limit s).1 ≠ .error .exhausted) :
    y limit s = x limit s := by
  induction h generalizing s with
  | leaf h =>
    rw [h] at hfinished
    exact (hfinished rfl).elim
  | stop e => rfl
  | step f hf => rfl
  | @bind α β x y f g _ _ ihx ihf =>
    rcases hrun : x limit s with ⟨e | a, t⟩
    · rw [bind_of_error hrun] at hfinished ⊢
      have heq := ihx (s := s) (by rw [hrun]; exact fun h => hfinished (by cases h; rfl))
      exact bind_of_error (heq.trans hrun)
    · rw [bind_of_ok hrun] at hfinished ⊢
      have heq := ihx (s := s) (by rw [hrun]; simp)
      rw [bind_of_ok (heq.trans hrun)]
      exact ihf a hfinished
  | @nested α x y _ ih =>
    by_cases hs : s.depth < limit
    · rw [nested_of_lt x hs] at hfinished ⊢
      rw [nested_of_lt y hs, ih hfinished]
    · rw [nested_of_le x (Nat.le_of_not_lt hs), nested_of_le y (Nat.le_of_not_lt hs)]
  | @traced x y call _ _ ih =>
    have heq := ih (s := { s with trace := .called (call s.depth) :: s.trace }) hfinished
    rw [traced_apply, traced_apply, heq]

end Run

/-- A step ends with an outcome in a state when it is given calls as deep as it needs. -/
def Step.Ends (step : Step) (limit : Nat) (s : State) (r : Except Stop Answer × State) : Prop :=
  ∃ budget, step.run (invokeWithin budget) limit s = r ∧ r.1 ≠ .error .exhausted

namespace Step.Ends

variable {step : Step} {limit : Nat} {s : State} {r r' : Except Stop Answer × State}

theorem unique (h : step.Ends limit s r) (h' : step.Ends limit s r') : r = r' := by
  obtain ⟨budget, rfl, hr⟩ := h
  obtain ⟨budget', rfl, hr'⟩ := h'
  have hmore := ((Invoker.Alike.more (fun _ => rfl) budget budget').step step).finished hr
  have hmore' := ((Invoker.Alike.more (fun _ => rfl) budget' budget).step step).finished hr'
  rw [← hmore, ← hmore', Nat.add_comm]

end Step.Ends

/-- If a step ends under the larger limit, it ends under the smaller one, in the same way or with
the refusal of the guard after the first of its calls. Unless the guard refuses under the smaller
limit, the larger one makes no difference. -/
theorem step_truncates (step : Step) {limit limit' : Nat} (hlimit : limit < limit') (s : State) :
    (∀ r', step.Ends limit' s r' → (∃ r, step.Ends limit s r) ∧ ∀ r, step.Ends limit s r →
      r = r' ∨ r.1 = .error (.failed (.depthExceeded limit)) ∧ r.2.calls <+: r'.2.calls) ∧
    (∀ r, step.Ends limit s r → r.1 ≠ .error (.failed (.depthExceeded limit)) →
      step.Ends limit' s r) := by
  have htruncates : ∀ budget, (step.run (invokeWithin budget)).Truncates := fun budget =>
    ((Invoker.Alike.within budget).step step).truncates
  constructor
  · rintro r' ⟨budget, rfl, hr'⟩
    have hends : ∃ r, step.Ends limit s r ∧
        (r = step.run (invokeWithin budget) limit' s ∨
          r.1 = .error (.failed (.depthExceeded limit)) ∧
            r.2.calls <+: (step.run (invokeWithin budget) limit' s).2.calls) := by
      rcases htruncates budget limit limit' s (Nat.le_of_lt hlimit) with heq | hrefused
      · exact ⟨_, ⟨budget, heq, hr'⟩, .inl rfl⟩
      · exact ⟨_, ⟨budget, rfl, by rw [hrefused.1]; simp⟩, .inr hrefused⟩
    obtain ⟨r, hr, hcompare⟩ := hends
    exact ⟨⟨r, hr⟩, fun r₂ hr₂ => by rw [hr₂.unique hr]; exact hcompare⟩
  · rintro r ⟨budget, rfl, hr⟩ hnot
    rcases htruncates budget limit limit' s (Nat.le_of_lt hlimit) with heq | hrefused
    · exact ⟨budget, heq.symm, hr⟩
    · exact (hnot hrefused.1).elim

/-- A hook that converts a second object needs two levels. With one of them the step is refused. -/
theorem step_truncates_second_level :
    let inner : Object := .record { valuate := .custom ⟨"inner", .ret (.string "five")⟩ }
    let outer : Object := .record { hook := some ⟨"outer", .coerce (.read "inner") none⟩ }
    let s : State :=
      { objects := #[inner, outer], scope := [("inner", .object 0), ("outer", .object 1)] }
    let step : Step := .reduce (.read "outer") .number
    1 < 2 ∧ ∃ r r', step.Ends 1 s r ∧ step.Ends 2 s r' ∧
      r'.1 = .ok (.value (.string "five")) ∧ (r = r' ∨
        r.1 = .error (.failed (.depthExceeded 1)) ∧ r.2.calls <+: r'.2.calls) := by
  intro inner outer s step
  have hrun : (step.run (invokeWithin 3) 2 s).1 = .ok (.value (.string "five")) := by cbv
  have hends : step.Ends 2 s (step.run (invokeWithin 3) 2 s) := ⟨3, rfl, by rw [hrun]; simp⟩
  obtain ⟨⟨r, hr⟩, hcompare⟩ := (step_truncates step (show 1 < 2 by decide) s).1 _ hends
  exact ⟨by decide, r, _, hr, hends, hrun, hcompare r hr⟩

end Coercive
