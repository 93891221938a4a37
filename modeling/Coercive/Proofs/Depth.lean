import Coercive.Proofs.Likeness

namespace Coercive

variable {α β : Type}

/-- Whether an event shows a depth between two bounds. A level that is entered or left shows the
depth inside it, so the depth outside is within the bounds if that is above the lower one. -/
def Event.Between (low high : Nat) : Event → Prop
  | .called call => low ≤ call.depth ∧ call.depth ≤ high
  | .returned _ => True
  | .entered depth | .left depth => low < depth ∧ depth ≤ high

theorem Event.Between.mono {low low' high : Nat} {e : Event} (h : e.Between low' high)
    (hlow : low ≤ low') : e.Between low high := by
  cases e with
  | called call => exact ⟨Nat.le_trans hlow h.1, h.2⟩
  | returned stop => trivial
  | entered depth => exact ⟨Nat.lt_of_le_of_lt hlow h.1, h.2⟩
  | left depth => exact ⟨Nat.lt_of_le_of_lt hlow h.1, h.2⟩

/-- A later state at the same depth, with all events since between two bounds. -/
def State.Keeps (low high : Nat) (s t : State) : Prop :=
  t.depth = s.depth ∧ ∃ events, t.trace = events ++ s.trace ∧ ∀ e ∈ events, e.Between low high

namespace State.Keeps

variable {low low' high : Nat} {s t u : State}

theorem refl (s : State) : s.Keeps low high s := ⟨rfl, [], rfl, by simp⟩

theorem trans (h : s.Keeps low high t) (h' : t.Keeps low high u) : s.Keeps low high u := by
  obtain ⟨hd, es, hes, hbetween⟩ := h
  obtain ⟨hd', es', hes', hbetween'⟩ := h'
  refine ⟨hd'.trans hd, es' ++ es, by rw [hes', hes, List.append_assoc], ?_⟩
  intro e he
  rcases List.mem_append.1 he with he | he
  · exact hbetween' e he
  · exact hbetween e he

theorem of_eq (hd : t.depth = s.depth) (ht : t.trace = s.trace) : s.Keeps low high t :=
  ⟨hd, [], ht, by simp⟩

theorem cons (h : s.Keeps low high t) {e : Event} (he : e.Between low high) :
    s.Keeps low high { t with trace := e :: t.trace } := by
  obtain ⟨hd, es, hes, hbetween⟩ := h
  refine ⟨hd, e :: es, by rw [hes]; rfl, ?_⟩
  simpa using ⟨he, hbetween⟩

/-- What happens between entering a level and leaving it, seen from outside. -/
theorem level (h : s.enter.Keeps (s.depth + 1) high t) (hs : s.depth < high) :
    s.Keeps s.depth high t.leave := by
  obtain ⟨hd, es, hes, hbetween⟩ := h
  have hdepth : t.depth = s.depth + 1 := hd
  refine ⟨by simp [leave, hdepth], .left t.depth :: es ++ [.entered (s.depth + 1)], ?_, ?_⟩
  · simp [leave, hes, enter]
  · intro e he
    simp only [List.cons_append, List.mem_cons, List.mem_append, List.not_mem_nil,
      or_false] at he
    rcases he with rfl | he | rfl
    · exact ⟨by omega, by omega⟩
    · exact (hbetween e he).mono (Nat.le_succ _)
    · exact ⟨Nat.lt_succ_self _, hs⟩

end State.Keeps

namespace Run

/-- Goes on after a failure, with the failure as the value. -/
def attempt (act : Run α) : Run (Except Failure α) := fun limit s =>
  match act limit s with
  | (.ok a, t) => (.ok (.ok a), t)
  | (.error (.failed f), t) => (.ok (.error f), t)
  | (.error .exhausted, t) => (.error .exhausted, t)

/-- What the body of a method may be: any program of actions of its own, conversions and calls that
leaves the depth to the conversions. It may fail, look at the depth and the limit, and go on after
a failure. -/
inductive Guarded : {α : Type} → Run α → Prop
  | plain {α : Type} (act : Run α)
      (hact : ∀ limit s, (act limit s).2.depth = s.depth ∧ (act limit s).2.trace = s.trace) :
      Guarded act
  | bind {α β : Type} {act : Run α} {next : α → Run β} (h : Guarded act)
      (hnext : ∀ a, Guarded (next a)) : Guarded (act >>= next)
  | nested {α : Type} {act : Run α} (h : Guarded act) : Guarded act.nested
  | traced {act : Run Value} (call : State → Call) (hcall : ∀ s, (call s).depth = s.depth)
      (h : Guarded act) : Guarded (get >>= fun s => traced (call s) act)
  | attempt {α : Type} {act : Run α} (h : Guarded act) : Guarded act.attempt

theorem Alike.guarded {x y : Run α} (h : Alike (fun x _ => Guarded x) x y) : Guarded x := by
  induction h with
  | leaf h => exact h
  | stop e => exact .plain _ fun _ _ => ⟨rfl, rfl⟩
  | step f hf => exact .plain _ fun _ s => hf s
  | bind _ _ ihx ihf => exact .bind ihx ihf
  | nested _ ih => exact .nested ih
  | traced call hcall _ ih => exact .traced (fun s => call s.depth) (fun s => hcall s.depth) ih

/-- Started within the limit, the computation ends at the depth at which it started and stays
between that depth and the limit. -/
def Balanced (act : Run α) : Prop :=
  ∀ (limit : Nat) (s : State), s.depth ≤ limit → s.Keeps s.depth limit (act limit s).2

theorem Balanced.bind {act : Run α} {next : α → Run β} (h : Balanced act)
    (hnext : ∀ a, Balanced (next a)) : Balanced (act >>= next) := by
  intro limit s hs
  have hkeeps := h limit s hs
  rw [bind_apply]
  generalize hrun : act limit s = r at hkeeps
  obtain ⟨outcome, t⟩ := r
  cases outcome with
  | error e => exact hkeeps
  | ok a =>
    have hdepth : t.depth = s.depth := hkeeps.1
    have hrest := hnext a limit t (by rw [hdepth]; exact hs)
    rw [hdepth] at hrest
    exact hkeeps.trans hrest

theorem Balanced.nested_apply {act : Run α} (h : Balanced act) {limit : Nat} {s : State}
    (hs : s.depth < limit) :
    act.nested limit s = ((act limit s.enter).1, (act limit s.enter).2.leave) ∧
      s.enter.Keeps (s.depth + 1) limit (act limit s.enter).2 := by
  constructor
  · simp [Run.nested, hs]
  · exact h limit s.enter hs

theorem Balanced.nested {act : Run α} (h : Balanced act) : Balanced act.nested := by
  intro limit s _
  by_cases hs : s.depth < limit
  · obtain ⟨heq, hkeeps⟩ := h.nested_apply hs
    rw [heq]
    exact hkeeps.level hs
  · rw [Run.nested, if_neg hs]
    exact .refl s

theorem Balanced.traced {act : Run Value} (call : State → Call)
    (hcall : ∀ s, (call s).depth = s.depth) (h : Balanced act) :
    Balanced (get >>= fun s => traced (call s) act) := by
  intro limit s hs
  have hstart : s.Keeps s.depth limit { s with trace := .called (call s) :: s.trace } :=
    (State.Keeps.refl s).cons ⟨Nat.le_of_eq (hcall s).symm, by rw [hcall]; exact hs⟩
  have hbody := h limit { s with trace := .called (call s) :: s.trace } hs
  exact (hstart.trans hbody).cons (e := .returned _) trivial

theorem Balanced.attempt {act : Run α} (h : Balanced act) : Balanced act.attempt := by
  intro limit s hs
  have hkeeps := h limit s hs
  unfold Run.attempt
  split <;> simp_all

theorem Guarded.balanced {act : Run α} (h : Guarded act) : Balanced act := by
  induction h with
  | plain act hact => exact fun limit s _ => .of_eq (hact limit s).1 (hact limit s).2
  | bind _ _ ih ihnext => exact ih.bind ihnext
  | nested _ ih => exact ih.nested
  | traced call hcall _ ih => exact .traced call hcall ih
  | attempt _ ih => exact ih.attempt

end Run

/-- The computations that a host can ask for. -/
inductive Operation (invoke : Invoker) : {α : Type} → Run α → Prop
  | reduce (v : Value) (hint : Hint) : Operation invoke (v.reduce invoke hint)
  | cast (c : Cast) (v : Value) : Operation invoke (c.apply invoke v)
  | operate (op : Operator) (v w : Value) : Operation invoke (op.apply invoke v w)
  | call (f receiver : Value) (args : List Value) : Operation invoke (f.call invoke receiver args)
  | expression (e : Expr) : Operation invoke (e.eval invoke)
  | evaluate (source : String) : Operation invoke (evaluate invoke source)
  | interpolate (source : String) : Operation invoke (interpolate invoke source)
  | step (step : Step) : Operation invoke (step.run invoke)

theorem Operation.alike {leaf : Run Value → Run Value → Prop} {invoke : Invoker}
    (h : Invoker.Alike leaf invoke invoke) {act : Run α} (hact : Operation invoke act) :
    Run.Alike leaf act act := by
  cases hact with
  | reduce v hint => exact h.reduce v hint
  | cast c v => exact Laws.cast h.covers.reduces c v
  | operate op v w => exact Laws.operate h.covers.reduces op v w
  | call f receiver args => exact Rules.call h.covers.invokes f receiver args
  | expression e => exact Rules.eval h.covers e (e.within_of_reads fun _ => trivial)
  | evaluate source => exact Rules.evaluate h.covers (fun _ => trivial) source
  | interpolate source => exact Rules.interpolate h.covers (fun _ => trivial) source
  | step step => exact h.step step

/-- Every method runs as a program that leaves the depth to the conversions. -/
def Invoker.Guarded (invoke : Invoker) : Prop :=
  ∀ m receiver args, (invoke m receiver args).Guarded

theorem Invoker.Guarded.alike {invoke : Invoker} (h : invoke.Guarded) :
    Invoker.Alike (fun x _ => x.Guarded) invoke invoke :=
  fun m receiver args => .leaf (h m receiver args)

theorem Operation.guarded {invoke : Invoker} (h : invoke.Guarded) {act : Run α}
    (hact : Operation invoke act) : act.Guarded :=
  (hact.alike h.alike).guarded

theorem invokeWithin_guarded (budget : Nat) : (invokeWithin budget).Guarded :=
  fun m receiver args => (Invoker.Alike.within budget m receiver args).guarded

/-- Every routine that a conversion calls is called at least one level deeper than the
conversion. -/
theorem Invoker.Guarded.reduce_calls {invoke : Invoker} (h : invoke.Guarded) (v : Value)
    (hint : Hint) {limit : Nat} {s : State} :
    ∃ events, (v.reduce invoke hint limit s).2.trace = events ++ s.trace ∧
      ∀ call, .called call ∈ events → s.depth + 1 ≤ call.depth ∧ call.depth ≤ limit := by
  cases v with
  | primitive p => exact ⟨[], rfl, by simp⟩
  | object ref =>
    by_cases hs : s.depth < limit
    · have hinner : (Run.object ref >>= fun o => o.reduce invoke (.object ref) hint).Balanced :=
        ((Run.Alike.object ref).bind fun o => h.alike.reduceObject o _ hint).guarded.balanced
      obtain ⟨heq, hdepth, es, hes, hbetween⟩ := hinner.nested_apply hs
      refine ⟨.left (s.depth + 1) :: es ++ [.entered (s.depth + 1)], ?_, ?_⟩
      · simp only [Value.reduce, heq, State.leave, hdepth, hes]
        simp [State.enter]
      · intro call hcall
        simp only [List.cons_append, List.mem_cons, List.mem_append, reduceCtorEq, false_or,
          List.not_mem_nil, or_false] at hcall
        exact hbetween _ hcall
    · exact ⟨[], by simp [Value.reduce, Run.nested, hs, Run.fail, Run.stop], by simp⟩

namespace Session

theorem depth_report (limit : Nat) (step : Step) {s : State} (hs : s.depth ≤ limit) :
    (report limit step s).after.depth = s.depth :=
  ((Operation.step step).guarded (invokeWithin_guarded _)).balanced limit { s with trace := [] } hs
    |>.1

theorem depth_reports (limit : Nat) (steps : List Step) {s : State} (hs : s.depth ≤ limit) :
    ∀ r ∈ reports limit steps s, r.after.depth = s.depth := by
  induction steps generalizing s with
  | nil => simp [reports]
  | cons step steps ih =>
    have hafter := depth_report limit step hs
    intro r hr
    rcases List.mem_cons.1 hr with rfl | hr
    · exact hafter
    · rw [← hafter]
      exact ih (by rw [hafter]; exact hs) r hr

theorem depth_run (session : Session) : ∀ r ∈ session.run, r.after.depth = 0 := by
  have hdefine := (Invoker.Alike.define session.definitions).guarded.balanced session.limit {}
    (Nat.zero_le _)
  have hdepth : (define session.definitions session.limit {}).2.depth = 0 := hdefine.1
  intro r hr
  rw [← hdepth]
  exact depth_reports session.limit session.steps (by rw [hdepth]; exact Nat.zero_le _) r hr

end Session

/-- Every operation leaves the depth as it found it and stays within the limit. The routines of a
conversion run inside its level, and between the steps of a session the depth is that of a fresh
state. The routines of the language are of the kind that this holds for. -/
theorem operation_balanced :
    (∀ invoke : Invoker, invoke.Guarded →
      (∀ {α : Type} (act : Run α), Operation invoke act → act.Balanced) ∧
      (∀ (v : Value) (hint : Hint) (limit : Nat) (s : State),
        ∃ events, (v.reduce invoke hint limit s).2.trace = events ++ s.trace ∧
          ∀ call, .called call ∈ events → s.depth + 1 ≤ call.depth ∧ call.depth ≤ limit)) ∧
    (∀ budget, (invokeWithin budget).Guarded) ∧
    (∀ (session : Session), ∀ r ∈ session.run, r.after.depth = 0 ∧
      ∀ stop, r.outcome = .error stop →
        r.after = { r.after with depth := ({} : State).depth }) := by
  refine ⟨fun invoke hinvoke => ⟨fun act hact => (hact.guarded hinvoke).balanced,
    fun v hint limit s => hinvoke.reduce_calls v hint⟩, invokeWithin_guarded, ?_⟩
  intro session r hr
  have hdepth := session.depth_run r hr
  refine ⟨hdepth, fun stop _ => ?_⟩
  rw [← hdepth]

/-- A hook that converts its own receiver is stopped by the limit and leaves the depth at zero. -/
theorem operation_balanced_runaway :
    let s : State := { objects := #[.record { hook := some ⟨"loop", .coerce .receiver none⟩ }] }
    (invokeWithin 9).Guarded ∧
      ((Value.object 0).reduce (invokeWithin 9) .number 8 s).1
        = .error (.failed (.depthExceeded 8)) ∧
      s.Keeps 0 8 ((Value.object 0).reduce (invokeWithin 9) .number 8 s).2 :=
  ⟨invokeWithin_guarded 9, by cbv,
    (operation_balanced.1 (invokeWithin 9) (invokeWithin_guarded 9)).1 _
      (.reduce (.object 0) .number) 8 _ (Nat.zero_le _)⟩

end Coercive
