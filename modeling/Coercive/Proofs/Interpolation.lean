import Coercive.Proofs.Joining
import Coercive.Proofs.Likeness

namespace Coercive

variable {α β : Type}

namespace State

theorem calls_behind (s : State) (old : List Event) :
    (s.behind old).calls = old.reverse.filterMap Event.call? ++ s.calls := by
  simp [calls, behind]

end State

namespace Run

theorem map_apply (f : α → β) (act : Run α) (limit : Nat) (s : State) :
    (f <$> act) limit s = (f <$> (act limit s).1, (act limit s).2) := by
  show (act >>= fun a => pure (f a)) limit s = _
  rw [bind_apply]
  split <;> simp_all [pure_apply]

/-- The computation does the same behind older events, and leaves them where they are. -/
def Oblivious (act : Run α) : Prop :=
  ∀ limit s old, act limit (s.behind old) = ((act limit s).1, (act limit s).2.behind old)

theorem Oblivious.bind {act : Run α} {next : α → Run β} (h : Oblivious act)
    (hnext : ∀ a, Oblivious (next a)) : Oblivious (act >>= next) := by
  intro limit s old
  have hact := h limit s old
  rcases hrun : act limit s with ⟨e | a, t⟩ <;> rw [hrun] at hact
  · rw [bind_of_error hrun, bind_of_error hact]
  · rw [bind_of_ok hrun, bind_of_ok hact]
    exact hnext a limit t old

theorem Oblivious.nested {act : Run α} (h : Oblivious act) : Oblivious act.nested := by
  intro limit s old
  by_cases hs : s.depth < limit
  · rw [nested_of_lt act hs, nested_of_lt act (s := s.behind old) hs]
    have hact := h limit s.enter old
    have henter : (s.behind old).enter = s.enter.behind old := rfl
    rw [henter, hact]
    rfl
  · have hs := Nat.le_of_not_lt hs
    rw [nested_of_le act hs, nested_of_le act (s := s.behind old) hs]

theorem Oblivious.traced {act : Run Value} (call : Nat → Call) (h : Oblivious act) :
    Oblivious (get >>= fun s => traced (call s.depth) act) := by
  intro limit s old
  have hact := h limit { s with trace := .called (call s.depth) :: s.trace } old
  rw [traced_apply, traced_apply]
  exact congrArg (fun r => (r.1, { r.2 with trace := .returned (stop? r.1) :: r.2.trace })) hact

theorem Alike.oblivious {x y : Run α} (h : Alike (fun x _ => Oblivious x) x y) : Oblivious x := by
  induction h with
  | leaf h => exact h
  | stop e => exact fun _ _ _ => rfl
  | step f _ hblind =>
    intro limit s old
    simp only [Run.step, hblind]
  | bind _ _ ihx ihf => exact ihx.bind ihf
  | nested _ ih => exact ih.nested
  | traced call _ _ ih => exact ih.traced call

/-- Seen from an empty log, the calls of the computation are those it adds. -/
theorem Oblivious.apply_eq {act : Run α} (h : Oblivious act) (limit : Nat) (s : State) :
    act limit s = ((act limit { s with trace := [] }).1,
      (act limit { s with trace := [] }).2.behind s.trace) :=
  h limit { s with trace := [] } s.trace

end Run

def Invoker.Oblivious (invoke : Invoker) : Prop :=
  ∀ m receiver args, (invoke m receiver args).Oblivious

theorem Invoker.Oblivious.alike {invoke : Invoker} (h : invoke.Oblivious) :
    Invoker.Alike (fun x _ => x.Oblivious) invoke invoke :=
  fun m receiver args => .leaf (h m receiver args)

theorem invokeWithin_oblivious (budget : Nat) : (invokeWithin budget).Oblivious :=
  fun m receiver args => (Invoker.Alike.within budget m receiver args).oblivious

theorem Invoker.Oblivious.interpolate {invoke : Invoker} (h : invoke.Oblivious) (source : String) :
    (Coercive.interpolate invoke source).Oblivious :=
  Run.Alike.oblivious (Rules.interpolate h.alike.covers (fun _ => trivial) source)

def Stop.Misread (stop : Stop) : Prop :=
  ∃ place beginning, stop = .failed (.malformed place beginning)

namespace Template

theorem split?_eq_none {cs : List Char} (h : ¬ ['$', '\x7b'] <:+: cs) : split? cs = none := by
  cases hs : split? cs with
  | none => rfl
  | some p =>
    obtain ⟨before, after⟩ := p
    refine absurd ⟨before, after, ?_⟩ h
    rw [(split?_eq_some hs).1]
    simp

theorem apart_opening (a source : List Char) : Apart a ('$' :: '\x7b' :: source) := by
  rintro ⟨-, hhead⟩
  cases hhead

end Template

open Template

variable {invoke : Invoker} {a b : String} {limit : Nat} {s t : State}

theorem interpolate_eq_fill (invoke : Invoker) (source : String) :
    interpolate invoke source = String.ofList <$> (ofText source.toList).fill invoke := rfl

theorem interpolate_of_complete (h : (ofText a.toList).Complete)
    (hapart : Apart a.toList b.toList) :
    interpolate invoke (a ++ b) = do
      let x ← interpolate invoke a
      let y ← interpolate invoke b
      return x ++ y := by
  simp only [interpolate_eq_fill, String.toList_append, ofText_append h hapart, fill_append,
    map_bind, bind_map_left, map_pure, String.ofList_append]

theorem interpolate_of_malformed {source : List Char} (h : Source.parseHole? source = none) :
    interpolate invoke (String.ofList ('$' :: '\x7b' :: source)) =
      .fail (.ofSource .hole source) := by
  have hopening : split? ('$' :: '\x7b' :: source) = some ([], source) := rfl
  rw [interpolate_eq_fill, String.toList_ofList, ofText_malformed hopening h]
  rfl

/-- Up to a malformed hole a text is interpolated as if it ended there. -/
theorem interpolate_cases (a : String) : (ofText a.toList).Complete ∨
    ∃ front source : String, a = front ++ source ∧
      (∀ invoke, ∃ stop : Stop, stop.Misread ∧ interpolate invoke source = .stop stop) ∧
      ∀ invoke b, interpolate invoke (front ++ (source ++ b)) = do
        let x ← interpolate invoke front
        let y ← interpolate invoke (source ++ b)
        return x ++ y := by
  rcases complete_or_malformed a.toList with hcomplete | ⟨front, source, ha, hfront, hsource⟩
  · exact .inl hcomplete
  · refine .inr ⟨.ofList front, .ofList ('$' :: '\x7b' :: source), ?_, fun invoke => ?_,
      fun invoke b => ?_⟩
    · apply String.toList_injective
      simp [ha]
    · exact ⟨_, ⟨_, _, rfl⟩, interpolate_of_malformed hsource⟩
    · apply interpolate_of_complete
      · rwa [String.toList_ofList]
      · simpa using apart_opening front (source ++ b.toList)

theorem interpolate_append_of_ok {text : String} (h : interpolate invoke a limit s = (.ok text, t))
    (hapart : Apart a.toList b.toList) :
    interpolate invoke (a ++ b) limit s = ((text ++ ·) <$> interpolate invoke b) limit t := by
  rcases interpolate_cases a with hcomplete | ⟨front, source, rfl, hstop, hjoin⟩
  · rw [interpolate_of_complete hcomplete hapart, Run.bind_of_ok h]
    rfl
  · obtain ⟨stop, -, hsource⟩ := hstop invoke
    have hfront := hjoin invoke ""
    rw [String.append_empty, hsource] at hfront
    rw [hfront, Run.bind_apply] at h
    split at h <;> cases h

theorem interpolate_append_of_error {stop : Stop}
    (h : interpolate invoke a limit s = (.error stop, t)) (hread : ¬ stop.Misread)
    (hapart : Apart a.toList b.toList) :
    interpolate invoke (a ++ b) limit s = (.error stop, t) := by
  rcases interpolate_cases a with hcomplete | ⟨front, source, rfl, hstop, hjoin⟩
  · rw [interpolate_of_complete hcomplete hapart, Run.bind_of_error h]
  · -- The text that follows may complete the malformed hole, but the failure came before it.
    obtain ⟨misread, hmisread, hsource⟩ := hstop invoke
    have hfront := hjoin invoke ""
    rw [String.append_empty, hsource] at hfront
    rw [String.append_assoc, hjoin]
    rcases hrun : interpolate invoke front limit s with ⟨e | x, u⟩
    · rw [hfront, Run.bind_of_error hrun] at h
      rw [Run.bind_of_error hrun, h]
    · rw [hfront, Run.bind_of_ok hrun] at h
      cases h
      exact absurd hmisread hread

theorem interpolate_of_no_opening (h : ¬ ['$', '\x7b'] <:+: a.toList) :
    interpolate invoke a = pure a := by
  rw [interpolate_eq_fill, ofText_text (split?_eq_none h)]
  simp [fill]

/-- A hole may hold every text that spells an expression, if a line end closes its last comment. -/
theorem interpolate_hole {source : String} {e : Expr} (h : Source.parse source = .ok e) :
    interpolate invoke ("$\x7b" ++ source ++ "\n\x7d") =
      e.eval invoke >>= fun v => v.toText invoke .stringOutput := by
  have hopening : split? ("$\x7b" ++ source ++ "\n\x7d").toList =
      some ([], source.toList ++ ['\n', '\x7d']) := by
    simp [split?]
  have hhole := Source.parseHole?_lineEnd (Source.parse_eq_ok.1 h) []
  have hend : ofText [] = .text [] := ofText_text rfl
  rw [interpolate_eq_fill, ofText_hole hopening hhole, hend]
  simp [fill]

/-- A text that is interpolated with success goes on with the text joined to it, in the state that
it leaves: its strings come first and its calls come first, and neither is looked at again. If it
fails, the whole fails in the same way, unless a hole could not be read and the second text may
complete it. A text without an opening stays as it is, and a text that spells an expression may
stand in a hole. -/
theorem interpolate_append :
    (∀ invoke : Invoker, invoke.Oblivious →
      (∀ a b : String, Apart a.toList b.toList → ∀ (limit : Nat) (s t : State),
        (∀ text, interpolate invoke a limit s = (.ok text, t) →
          ∀ outcome u, interpolate invoke b limit { t with trace := [] } = (outcome, u) →
            interpolate invoke b limit t = (outcome, u.behind t.trace) ∧
            interpolate invoke (a ++ b) limit s = ((text ++ ·) <$> outcome, u.behind t.trace) ∧
            (u.behind t.trace).calls = t.calls ++ u.calls) ∧
        (∀ stop, interpolate invoke a limit s = (.error stop, t) → ¬ stop.Misread →
          interpolate invoke (a ++ b) limit s = (.error stop, t))) ∧
      (∀ a : String, ¬ ['$', '\x7b'] <:+: a.toList → interpolate invoke a = pure a) ∧
      (∀ (source : String) (e : Expr), Source.parse source = .ok e →
        interpolate invoke ("$\x7b" ++ source ++ "\n\x7d") =
          e.eval invoke >>= fun v => v.toText invoke .stringOutput)) ∧
    (∀ budget, (invokeWithin budget).Oblivious) := by
  refine ⟨fun invoke hinvoke => ⟨fun a b hapart limit s t => ⟨?_, ?_⟩, ?_, ?_⟩,
    invokeWithin_oblivious⟩
  · intro text ha outcome u hb
    have hlater := (hinvoke.interpolate b).apply_eq limit t
    rw [hb] at hlater
    refine ⟨hlater, ?_, State.calls_behind u t.trace⟩
    rw [interpolate_append_of_ok ha hapart, Run.map_apply, hlater]
  · exact fun stop ha hread => interpolate_append_of_error ha hread hapart
  · exact fun a => interpolate_of_no_opening
  · exact fun source e => interpolate_hole

/-- What the hole of the first text produces begins like a hole, and the second text could end it.
A name that stands for nothing fails whatever comes after it. -/
theorem interpolate_append_unscanned :
    let s : State := { scope := [("p", .string "$\x7b")] }
    let first := "$\x7b" ++ "p" ++ "\n\x7d"
    let lost := "$\x7b" ++ "q" ++ "\n\x7d"
    Apart first.toList "1\x7d".toList ∧ Apart lost.toList "$\x7b".toList ∧
      interpolate (invokeWithin 0) (first ++ "1\x7d") 1 s = (.ok "$\x7b1\x7d", s) ∧
      interpolate (invokeWithin 0) (lost ++ "$\x7b") 1 s =
        (.error (.failed (.unresolved "q")), s) := by
  intro s first lost
  obtain ⟨hjoin, hplain, hhole⟩ := interpolate_append.1 (invokeWithin 0) (invokeWithin_oblivious 0)
  have hfirst : interpolate (invokeWithin 0) first 1 s = (.ok "$\x7b", s) := by
    rw [hhole "p" (.name "p") (by cbv)]
    rfl
  have hlost : interpolate (invokeWithin 0) lost 1 s = (.error (.failed (.unresolved "q")), s) := by
    rw [hhole "q" (.name "q") (by cbv)]
    rfl
  have hsecond : interpolate (invokeWithin 0) "1\x7d" 1 s = (.ok "1\x7d", s) := by
    rw [hplain "1\x7d" (by decide)]
    rfl
  have hapart : Apart first.toList "1\x7d".toList := by
    rintro ⟨-, hhead⟩
    cases hhead
  have hapart' : Apart lost.toList "$\x7b".toList := by
    rintro ⟨-, hhead⟩
    cases hhead
  have hread : ¬ (Stop.failed (.unresolved "q")).Misread := by
    rintro ⟨place, beginning, hstop⟩
    cases hstop
  have hwhole := ((hjoin _ _ hapart 1 s s).1 _ hfirst _ s hsecond).2.1
  exact ⟨hapart, hapart', hwhole, (hjoin _ _ hapart' 1 s s).2 _ hlost hread⟩

end Coercive
