import Coercive.Proofs.Depth

namespace Coercive

variable {α β : Type}

/-- A log, the newest event first, and how its run ended. In a sequence only the last part may stop,
and a call or a level ends as its inside does. -/
inductive Unwinds : List Event → Option Stop → Prop
  | nil (stop : Option Stop) : Unwinds [] stop
  | append {older newer : List Event} {stop : Option Stop} (hfirst : Unwinds older none)
      (hrest : Unwinds newer stop) : Unwinds (newer ++ older) stop
  | call {body : List Event} {stop : Option Stop} (call : Call) (h : Unwinds body stop) :
      Unwinds (.returned stop :: body ++ [.called call]) stop
  | level {body : List Event} {stop : Option Stop} (inside outside : Nat) (h : Unwinds body stop) :
      Unwinds (.left inside :: body ++ [.entered outside]) stop

/-- The event only ends a call, with this stop, or a level. -/
def Event.Closes (stop : Stop) : Event → Prop
  | .returned answer => answer = some stop
  | .left _ => True
  | .called _ | .entered _ => False

/-- What a log has behind a call: the events of the body, its answer, and what comes after it. -/
def Answered (newer : List Event) (stop : Option Stop) : Prop :=
  ∃ after body answer, newer = after ++ .returned answer :: body ∧ Unwinds body answer ∧
    ∀ e, answer = some e → stop = some e ∧ ∀ event ∈ after, event.Closes e

theorem Answered.append_newer {newer : List Event} (h : Answered newer none)
    (later : List Event) (stop : Option Stop) : Answered (later ++ newer) stop := by
  obtain ⟨after, body, answer, rfl, hbody, hanswer⟩ := h
  refine ⟨later ++ after, body, answer, by simp, hbody, fun e he => ?_⟩
  obtain ⟨hstop, -⟩ := hanswer e he
  cases hstop

theorem Answered.cons {newer : List Event} {stop : Option Stop} (h : Answered newer stop)
    {event : Event} (hevent : ∀ e, stop = some e → event.Closes e) :
    Answered (event :: newer) stop := by
  obtain ⟨after, body, answer, rfl, hbody, hanswer⟩ := h
  refine ⟨event :: after, body, answer, rfl, hbody, fun e he => ?_⟩
  obtain ⟨hstop, hafter⟩ := hanswer e he
  refine ⟨hstop, fun event' hevent' => ?_⟩
  rcases List.mem_cons.1 hevent' with rfl | hmem
  · exact hevent e hstop
  · exact hafter event' hmem

theorem append_eq_split {as bs newer older : List Event} {event : Event}
    (h : as ++ bs = newer ++ event :: older) :
    (∃ rest, as = newer ++ event :: rest) ∨
      ∃ front, newer = as ++ front ∧ bs = front ++ event :: older := by
  rcases List.append_eq_append_iff.1 h with ⟨front, hnewer, hbs⟩ | ⟨rest, has, hrest⟩
  · exact .inr ⟨front, hnewer, hbs⟩
  · cases rest with
    | nil => exact .inr ⟨[], by simpa using has.symm, by simpa using hrest.symm⟩
    | cons x rest =>
      cases hrest
      exact .inl ⟨rest, has⟩

theorem bracket_eq_split {first last event : Event} {body newer older : List Event}
    (h : first :: body ++ [last] = newer ++ event :: older) (hne : first ≠ event) :
    ∃ front, newer = first :: front ∧
      ((∃ rest, body = front ++ event :: rest) ∨ front = body ∧ last = event) := by
  cases newer with
  | nil =>
    cases h
    exact absurd rfl hne
  | cons x front =>
    obtain ⟨rfl, hinside⟩ := List.cons.inj h
    refine ⟨front, rfl, ?_⟩
    rcases append_eq_split hinside with hrest | ⟨front', rfl, hlast⟩
    · exact .inl hrest
    · rcases List.singleton_eq_append_iff.1 hlast with ⟨rfl, hevent⟩ | ⟨-, hnil⟩
      · cases hevent
        exact .inr ⟨List.append_nil body, rfl⟩
      · cases hnil

/-- Every call in a log is answered. -/
theorem Unwinds.answered {events newer older : List Event} {stop : Option Stop} {call : Call}
    (h : Unwinds events stop) (heq : events = newer ++ .called call :: older) :
    Answered newer stop := by
  induction h generalizing newer older with
  | nil => simp at heq
  | append _ _ ihfirst ihrest =>
    rcases append_eq_split heq with ⟨rest, hnewer⟩ | ⟨front, rfl, holder⟩
    · exact ihrest hnewer
    · exact (ihfirst holder).append_newer _ _
  | @call body stop begun h ih =>
    obtain ⟨front, rfl, ⟨rest, hbody⟩ | ⟨rfl, -⟩⟩ := bracket_eq_split heq (by simp)
    · exact (ih hbody).cons fun e he => he
    · exact ⟨[], front, stop, rfl, h, fun e he => ⟨he, by simp⟩⟩
  | level inside outside _ ih =>
    obtain ⟨front, rfl, ⟨rest, hbody⟩ | ⟨-, hlast⟩⟩ := bracket_eq_split heq (by simp)
    · exact (ih hbody).cons fun e _ => trivial
    · cases hlast

namespace Run

theorem stop?_eq_some {outcome : Except Stop α} {e : Stop} :
    stop? outcome = some e ↔ outcome = .error e := by
  cases outcome <;> simp [stop?]

/-- The computation adds to the log what ends as it does. -/
def Propagates (act : Run α) : Prop :=
  ∀ limit s, ∃ events, (act limit s).2.trace = events ++ s.trace ∧
    Unwinds events (stop? (act limit s).1)

theorem Propagates.bind {act : Run α} {next : α → Run β} (h : Propagates act)
    (hnext : ∀ a, Propagates (next a)) : Propagates (act >>= next) := by
  intro limit s
  obtain ⟨older, holder, hfirst⟩ := h limit s
  rcases hrun : act limit s with ⟨e | a, t⟩ <;> rw [hrun] at holder hfirst
  · rw [bind_of_error hrun]
    exact ⟨older, holder, hfirst⟩
  · obtain ⟨newer, hnewer, hrest⟩ := hnext a limit t
    rw [bind_of_ok hrun]
    refine ⟨newer ++ older, ?_, hfirst.append hrest⟩
    rw [hnewer, holder, List.append_assoc]

theorem Propagates.nested {act : Run α} (h : Propagates act) : Propagates act.nested := by
  intro limit s
  by_cases hs : s.depth < limit
  · obtain ⟨body, hbody, hends⟩ := h limit s.enter
    have hlevel : s.enter.trace = .entered (s.depth + 1) :: s.trace := rfl
    rw [nested_of_lt act hs]
    refine ⟨_, ?_, hends.level (act limit s.enter).2.depth (s.depth + 1)⟩
    simp [State.leave, hbody, hlevel]
  · rw [nested_of_le act (Nat.le_of_not_lt hs)]
    exact ⟨[], rfl, .nil _⟩

theorem Propagates.traced {act : Run Value} (call : Nat → Call) (h : Propagates act) :
    Propagates (get >>= fun s => traced (call s.depth) act) := by
  intro limit s
  obtain ⟨body, hbody, hends⟩ := h limit { s with trace := .called (call s.depth) :: s.trace }
  rw [traced_apply]
  refine ⟨_, ?_, hends.call (call s.depth)⟩
  simp [hbody]

theorem Alike.propagates {x y : Run α} (h : Alike (fun x _ => Propagates x) x y) :
    Propagates x := by
  induction h with
  | leaf h => exact h
  | stop e => exact fun _ _ => ⟨[], rfl, .nil _⟩
  | step f hf => exact fun _ s => ⟨[], (hf s).2, .nil _⟩
  | bind _ _ ihx ihf => exact ihx.bind ihf
  | nested _ ih => exact ih.nested
  | traced call _ _ ih => exact ih.traced call

end Run

def Invoker.Propagates (invoke : Invoker) : Prop :=
  ∀ m receiver args, (invoke m receiver args).Propagates

theorem Invoker.Propagates.alike {invoke : Invoker} (h : invoke.Propagates) :
    Invoker.Alike (fun x _ => x.Propagates) invoke invoke :=
  fun m receiver args => .leaf (h m receiver args)

theorem invokeWithin_propagates (budget : Nat) : (invokeWithin budget).Propagates :=
  fun m receiver args => (Invoker.Alike.within budget m receiver args).propagates

/-- Each call that an operation makes of a body, at any depth, is answered in its log. If the answer
is a failure, the operation fails with it, and afterwards calls and levels only end. If the
operation succeeds, so did the body. The routines of the language are of the kind that this holds
for. -/
theorem operation_propagates :
    (∀ invoke : Invoker, invoke.Propagates → ∀ {α : Type} (act : Run α), Operation invoke act →
      ∀ (limit : Nat) (s : State), ∃ events, (act limit s).2.trace = events ++ s.trace ∧
        ∀ newer call older, events = newer ++ .called call :: older →
          ∃ after body answer, newer = after ++ .returned answer :: body ∧ Unwinds body answer ∧
            (∀ value, (act limit s).1 = .ok value → answer = none) ∧
            (∀ stop, answer = some stop →
              (act limit s).1 = .error stop ∧ ∀ event ∈ after, event.Closes stop)) ∧
    (∀ budget, (invokeWithin budget).Propagates) := by
  refine ⟨fun invoke hinvoke α act hact limit s => ?_, invokeWithin_propagates⟩
  obtain ⟨events, htrace, hends⟩ := (hact.alike hinvoke.alike).propagates limit s
  refine ⟨events, htrace, fun newer call older heq => ?_⟩
  obtain ⟨after, body, answer, hnewer, hbody, hanswer⟩ := hends.answered heq
  refine ⟨after, body, answer, hnewer, hbody, fun value hvalue => ?_, fun stop hstop => ?_⟩
  · cases answer with
    | none => rfl
    | some stop =>
      have hstop := (hanswer stop rfl).1
      rw [hvalue] at hstop
      cases hstop
  · obtain ⟨hends, hafter⟩ := hanswer stop hstop
    exact ⟨Run.stop?_eq_some.1 hends, hafter⟩

/-- The first operand asks a second object, which fails. Neither goes on, and the second operand is
not asked. -/
theorem operation_propagates_nested :
    let inner : Object := .record { valuate := .custom ⟨"inner", .fail "broken"⟩ }
    let outer : Object := .record { hook := some ⟨"outer", .coerce (.read "inner") none⟩ }
    let late : Object := .record { hook := some ⟨"late", .ret (.string "late")⟩ }
    let s : State := { objects := #[inner, outer, late], scope := [("inner", .object 0)] }
    let act := Operator.add.apply (invokeWithin 3) (.object 1) (.object 2)
    let stop : Stop := .failed (.host "broken")
    (invokeWithin 3).Propagates ∧ Operation (invokeWithin 3) act ∧
      (act 8 s).2.trace =
        [.left 1, .returned (some stop), .left 2, .returned (some stop)] ++
          .called ⟨"inner", .valuate, none, 2, 0⟩ ::
            [.entered 2, .called ⟨"outer", .hook, some .default, 1, 0⟩, .entered 1] ∧
      (act 8 s).1 = .error stop := by
  intro inner outer late s act stop
  have hact : Operation (invokeWithin 3) act := .operate .add (.object 1) (.object 2)
  have htrace : (act 8 s).2.trace =
      [.left 1, .returned (some stop), .left 2, .returned (some stop)] ++
        .called ⟨"inner", .valuate, none, 2, 0⟩ ::
          [.entered 2, .called ⟨"outer", .hook, some .default, 1, 0⟩, .entered 1] := rfl
  refine ⟨invokeWithin_propagates 3, hact, htrace, ?_⟩
  obtain ⟨events, hevents, hanswered⟩ :=
    operation_propagates.1 _ (invokeWithin_propagates 3) act hact 8 s
  rw [show s.trace = [] from rfl, List.append_nil, htrace] at hevents
  obtain ⟨after, body, answer, hnewer, -, -, hstop⟩ := hanswered _ _ _ hevents.symm
  have hanswer : .returned answer ∈ after ++ .returned answer :: body := by simp
  rw [← hnewer] at hanswer
  exact (hstop stop (by simpa using hanswer)).1

end Coercive
