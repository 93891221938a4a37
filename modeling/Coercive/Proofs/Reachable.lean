import Coercive.Proofs.BuildRules
import Coercive.Proofs.Mirroring

namespace Coercive

variable {α β : Type} {m : Nat}

namespace Run

/-- Started in a well-formed state of `m` objects, the computation ends in a well-formed one. A
value that it returns keeps a condition on the number of objects. -/
def Preserves (m : Nat) (P : Nat → α → Prop) (act : Run α) : Prop :=
  ∀ (limit : Nat) (s : State) (outcome : Except Stop α) (t : State), s.objects.size = m →
    s.WellFormed → act limit s = (outcome, t) →
      t.WellFormed ∧ m ≤ t.objects.size ∧ ∀ v, outcome = .ok v → P t.objects.size v

namespace Preserves

variable {P : Nat → α → Prop} {Q : Nat → β → Prop}

/-- Beside an empty surplus a computation mirrors itself in one and the same state. -/
theorem of_mirrors {R : Nat → α → α → Prop} {act : Run α}
    (h : Surplus.Mirrors ⟨.all, m, []⟩ m R act act) (hR : ∀ n v w, R n v w → P n v) :
    Preserves m P act := by
  intro limit s outcome t hm hs hrun
  have hbeside : Surplus.Beside ⟨.all, m, []⟩ s s := Surplus.beside_self hs hm.symm rfl
  obtain ⟨houtcome, hafter, hgrows⟩ := h limit s s hm hbeside
  rw [hrun] at houtcome hafter hgrows
  refine ⟨hafter.closed.mono hgrows, hgrows, ?_⟩
  intro v hv
  subst hv
  cases houtcome with
  | ok hvw => exact hR _ _ _ hvw

theorem pure {v : α} (h : P m v) : Preserves m P (Pure.pure v) := by
  intro limit s outcome t hm hs hrun
  cases hrun
  subst hm
  refine ⟨hs, Nat.le_refl _, ?_⟩
  intro v hv
  cases hv
  exact h

theorem fail (f : Failure) : Preserves m P (Run.fail f) := by
  intro limit s outcome t hm hs hrun
  cases hrun
  exact ⟨hs, Nat.le_of_eq hm.symm, nofun⟩

theorem bind {act : Run α} {next : α → Run β} (h : Preserves m P act)
    (hnext : ∀ m' v, m ≤ m' → P m' v → Preserves m' Q (next v)) : Preserves m Q (act >>= next) := by
  intro limit s outcome t hm hs hrun
  rcases hact : act limit s with ⟨e | v, u⟩
  · rw [bind_of_error hact] at hrun
    cases hrun
    obtain ⟨hafter, hgrows, -⟩ := h limit s _ _ hm hs hact
    exact ⟨hafter, hgrows, nofun⟩
  · rw [bind_of_ok hact] at hrun
    obtain ⟨hafter, hgrows, hv⟩ := h limit s _ _ hm hs hact
    obtain ⟨hafter', hgrows', houtcome⟩ :=
      hnext _ v hgrows (hv v rfl) limit u outcome t rfl hafter hrun
    exact ⟨hafter', Nat.le_trans hgrows hgrows', houtcome⟩

theorem andThen {act : Run α} {next : α → Run β} (h : Preserves m P act)
    (hnext : ∀ m' v, Preserves m' Q (next v)) : Preserves m Q (act >>= next) :=
  h.bind fun m' v _ _ => hnext m' v

theorem map {act : Run α} (f : α → β) (h : Preserves m P act) :
    Preserves m (fun _ _ => True) (f <$> act) :=
  h.andThen fun _ _ => pure trivial

theorem ofExcept (e : Except Failure α) : Preserves m (fun _ _ => True) (Run.ofExcept e) := by
  cases e with
  | ok v => exact pure trivial
  | error f => exact fail f

theorem lookup (x : String) :
    Preserves m (fun n found => ∀ v ∈ found, v.Below n) (Run.lookup? x) := by
  intro limit s outcome t hm hs hrun
  cases hrun
  refine ⟨hs, Nat.le_of_eq hm.symm, ?_⟩
  intro found hfound v hv
  cases hfound
  exact hs.scope hv

theorem object (ref : Nat) : Preserves m (fun n => Object.Closed .all n) (Run.object ref) := by
  intro limit s outcome t hm hs hrun
  cases hrun
  refine ⟨hs, Nat.le_of_eq hm.symm, ?_⟩
  intro o ho
  cases ho
  exact hs.object ref

theorem allocate {o : Object} (ho : o.Closed .all m) :
    Preserves m Value.Below (Run.allocate o) := by
  intro limit s outcome t hm hs hrun
  cases hrun
  have hsize : (s.objects.push o).size = m + 1 := by rw [Array.size_push, hm]
  have hpush : { s with objects := s.objects.push o }.Closed .all m :=
    State.Closed.push (hm ▸ hs) ho
  refine ⟨?_, ?_, ?_⟩
  · exact hpush.mono (hsize ▸ Nat.le_succ m)
  · exact hsize ▸ Nat.le_succ m
  · intro v hv
    cases hv
    simp [Value.Below]

theorem assign (x : String) {v : Value} (hv : v.Below m) :
    Preserves m (fun _ _ => True) (Run.assign x v) := by
  intro limit s outcome t hm hs hrun
  cases hrun
  refine ⟨⟨hs.object, ?_⟩, Nat.le_of_eq hm.symm, fun _ _ => trivial⟩
  intro z w hw
  by_cases hz : z = x
  · subst hz
    cases (Table.get?_insert_self _ _ _).symm.trans hw
    exact hm ▸ hv
  · exact hs.scope ((Table.get?_insert_of_ne _ _ hz).symm.trans hw)

end Preserves

end Run

theorem Record.closed_ofEdits {edits : List Edit}
    (h : ∀ e ∈ edits, e.Within .all (Value.Below m)) : (ofEdits edits).Closed .all m where
  hook routine hr := h _ (Has.mem (e := .hook routine) hr)
  slot c routine hc := h _ (Has.mem (e := .custom c routine) hc)
  field name v hv := h _ (Has.mem (e := .field name v) hv)

namespace Run.Preserves

def building : BuildRules .all where
  keeps := Value.Below
  holds := Preserves
  primitive _ := trivial
  mono := .mono
  pure := pure
  bind := bind
  lookup _ := lookup _
  plain _ _ := allocate (Object.closed_plain _ _)
  function _ _ h := allocate (Object.closed_function h)
  record h := allocate (Object.closed_record (Record.closed_ofEdits h))

theorem build (b : Blueprint) : Preserves m Value.Below b.build :=
  BuildRules.build (L := building) b b.within_all

theorem buildAll (bs : List Blueprint) :
    Preserves m (fun n vs => ∀ v ∈ vs, v.Below n) (Blueprint.buildAll bs) :=
  BuildRules.buildAll (L := building) fun b _ => b.within_all

end Run.Preserves

theorem Value.Below.same {v : Value} (h : v.Below m) :
    Surplus.Same ⟨.all, m, []⟩ m v v :=
  Surplus.same_of_below h (Nat.le_refl m)

theorem sameAll_of_below {vs : List Value} (h : ∀ v ∈ vs, v.Below m) :
    Surplus.SameAll ⟨.all, m, []⟩ m vs vs := by
  induction vs with
  | nil => exact .nil
  | cons v vs ih => exact .cons (h v (.head _)).same (ih fun w hw => h w (.tail _ hw))

theorem Surplus.Same.below {p : Surplus} {v w : Value} (h : p.Same m v w) : v.Below m := by
  cases h with
  | primitive q => trivial
  | object h => exact h

namespace Run.Preserves

theorem of_mirrors_same {act : Run Value}
    (h : Surplus.Mirrors ⟨.all, m, []⟩ m (Surplus.Same ⟨.all, m, []⟩) act act) :
    Preserves m Value.Below act :=
  of_mirrors h fun _ _ _ hsame => hsame.below

theorem of_mirrors_eq {act : Run α}
    (h : Surplus.Mirrors ⟨.all, m, []⟩ m (fun _ => Eq) act act) :
    Preserves m (fun _ _ => True) act :=
  of_mirrors h fun _ _ _ _ => trivial

variable (budget : Nat)

theorem eval (e : Expr) : Preserves m Value.Below (e.eval (invokeWithin budget)) := by
  apply of_mirrors_same
  exact Surplus.Mirrors.eval (Surplus.invokes_within budget) e (e.within_of_reads fun _ => trivial)

theorem evaluate (source : String) :
    Preserves m Value.Below (Coercive.evaluate (invokeWithin budget) source) :=
  (ofExcept _).andThen fun _ e => eval budget e

theorem reduce {v : Value} (hv : v.Below m) (hint : Hint) :
    Preserves m (fun _ _ => True) (v.reduce (invokeWithin budget) hint) :=
  of_mirrors_eq (Surplus.Mirrors.reduce (Surplus.invokes_within budget) hv.same hint)

theorem toText {v : Value} (hv : v.Below m) (context : Context) :
    Preserves m (fun _ _ => True) (v.toText (invokeWithin budget) context) :=
  of_mirrors_eq (Surplus.Mirrors.toText (Surplus.invokes_within budget) hv.same context)

theorem cast (c : Cast) {v : Value} (hv : v.Below m) :
    Preserves m (fun _ _ => True) (c.apply (invokeWithin budget) v) :=
  of_mirrors_eq (Surplus.Mirrors.cast (Surplus.invokes_within budget) c hv.same)

theorem operate (op : Operator) {v w : Value} (hv : v.Below m) (hw : w.Below m) :
    Preserves m (fun _ _ => True) (op.apply (invokeWithin budget) v w) :=
  of_mirrors_eq (Surplus.Mirrors.operate (Surplus.invokes_within budget) op hv.same hw.same)

theorem member {v : Value} (hv : v.Below m) (name : String) :
    Preserves m Value.Below (v.member name) :=
  of_mirrors_same (Surplus.Mirrors.member hv.same name)

theorem call {f receiver : Value} {args : List Value} (hf : f.Below m) (hr : receiver.Below m)
    (hargs : ∀ v ∈ args, v.Below m) :
    Preserves m Value.Below (f.call (invokeWithin budget) receiver args) := by
  apply of_mirrors_same
  exact Surplus.Mirrors.call (Surplus.invokes_within budget) hf.same hr.same
    (sameAll_of_below hargs)

theorem invoke {f : Method} {receiver : Value} {args : List Value} (hf : f.Closed .all m)
    (hr : receiver.Below m) (hargs : ∀ v ∈ args, v.Below m) :
    Preserves m Value.Below (invokeWithin budget f receiver args) :=
  of_mirrors_same (Surplus.invokes_within budget f hf hr.same (sameAll_of_below hargs))

theorem fill (template : Template) :
    Preserves m (fun _ _ => True) (template.fill (invokeWithin budget)) := by
  induction template generalizing m with
  | text cs => exact pure trivial
  | hole before e rest ih =>
    exact (eval budget e).bind fun _ _ _ hv => (toText budget hv _).andThen fun _ _ =>
      ih.andThen fun _ _ => pure trivial
  | malformed before source => exact fail _

theorem describe (v : Value) : Preserves m (fun _ _ => True) v.describe := by
  cases v with
  | primitive q => exact pure trivial
  | object ref => exact (object ref).andThen fun _ _ => pure trivial

theorem closed_handle {o : Object} (ho : o.Closed .all m) {handle : Handle} {f : Method}
    (hf : o.handle? handle = some f) : f.Closed .all m := by
  cases handle with
  | hook => exact ho.hook hf
  | conversion c => exact ho.conversion hf

theorem step (step : Step) :
    Preserves m (fun _ _ => True) (step.run (invokeWithin budget)) := by
  cases step with
  | evaluate source => exact map _ (evaluate budget source)
  | interpolate source => exact map _ (map _ (fill budget _))
  | expression e => exact map _ (eval budget e)
  | assign x b =>
    exact (build b).bind fun _ _ _ hv => (assign x hv).andThen fun _ _ => pure trivial
  | bind x source =>
    exact (evaluate budget source).bind fun _ _ _ hv =>
      (assign x hv).andThen fun _ _ => pure trivial
  | resolve x => exact (lookup x).andThen fun _ _ => pure trivial
  | reduce b hint =>
    exact (build b).bind fun _ _ _ hv => (reduce budget hv hint).andThen fun _ _ => pure trivial
  | cast c b =>
    exact (build b).bind fun _ _ _ hv => (cast budget c hv).andThen fun _ _ => pure trivial
  | operate op b c =>
    exact (build b).bind fun _ _ _ hv => (build c).bind fun _ _ hm hw =>
      (operate budget op (hv.mono hm) hw).andThen fun _ _ => pure trivial
  | member b name =>
    exact (build b).bind fun _ _ _ hv => (member hv name).andThen fun _ _ => pure trivial
  | call f receiver args =>
    exact (build f).bind fun _ _ _ hf => (build receiver).bind fun _ _ hm hr =>
      (buildAll args).bind fun _ _ hm' hvs =>
        (call budget ((hf.mono hm).mono hm') (hr.mono hm') hvs).andThen fun _ _ => pure trivial
  | invoke b handle receiver args =>
    refine (build b).bind fun _ v _ _ => (build receiver).bind fun _ _ _ hr =>
      (buildAll args).bind fun _ _ hm hvs => ?_
    cases v with
    | primitive q => exact pure trivial
    | object ref =>
      refine (object ref).bind fun _ o hm' ho => ?_
      split
      · exact pure trivial
      · next f hf =>
        exact (invoke budget (closed_handle ho hf) ((hr.mono hm).mono hm')
          fun v hv => (hvs v hv).mono hm').andThen fun _ _ => pure trivial
  | inherited c receiver args =>
    exact (build receiver).bind fun _ _ _ hr => (buildAll args).bind fun _ _ hm hvs =>
      (invoke (f := .inherited c) budget trivial (hr.mono hm) hvs).andThen fun _ _ => pure trivial
  | same b c => exact (build b).andThen fun _ _ => (build c).andThen fun _ _ => pure trivial
  | describe b => exact (build b).andThen fun _ v => (describe v).andThen fun _ _ => pure trivial

theorem define (definitions : List (String × Blueprint)) :
    Preserves m (fun _ _ => True) (Session.define definitions) := by
  induction definitions generalizing m with
  | nil => exact pure trivial
  | cons d rest ih =>
    exact (build d.2).bind fun _ _ _ hv => (assign d.1 hv).andThen fun _ _ => ih

theorem wellFormed {P : Nat → α → Prop} {act : Run α} (h : ∀ m, Preserves m P act) {limit : Nat}
    {s : State} (hs : s.WellFormed) : (act limit s).2.WellFormed :=
  (h _ limit s _ _ rfl hs rfl).1

end Run.Preserves

namespace State

theorem wellFormed_empty : ({} : State).WellFormed where
  object _ := Object.closed_plain _ _
  scope h := nomatch h

theorem WellFormed.of_eq {s t : State} (h : s.WellFormed) (hobjects : t.objects = s.objects)
    (hscope : t.scope = s.scope) : t.WellFormed := by
  unfold WellFormed
  rw [hobjects]
  exact State.Closed.of_eq h hobjects hscope

end State

namespace Session

theorem reports_wellFormed (limit : Nat) (steps : List Step) {s : State} (hs : s.WellFormed) :
    ∀ r ∈ reports limit steps s, r.after.WellFormed := by
  induction steps generalizing s with
  | nil => simp [reports]
  | cons step steps ih =>
    have hafter : (report limit step s).after.WellFormed := by
      apply Run.Preserves.wellFormed fun _ => Run.Preserves.step (callBudget limit) step
      exact hs.of_eq rfl rfl
    intro r hr
    rcases List.mem_cons.1 hr with rfl | hr
    · exact hafter
    · exact ih hafter r hr

/-- In a session every value refers to an object that there is, before each step and after it. -/
theorem run_wellFormed (session : Session) :
    (define session.definitions session.limit {}).2.WellFormed ∧
      ∀ r ∈ session.run, r.after.WellFormed := by
  have hdefined : (define session.definitions session.limit {}).2.WellFormed :=
    Run.Preserves.wellFormed (fun _ => Run.Preserves.define _) State.wellFormed_empty
  exact ⟨hdefined, reports_wellFormed _ _ hdefined⟩

end Session

end Coercive
