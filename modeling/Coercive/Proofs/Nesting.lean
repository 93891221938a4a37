import Coercive.Proofs.Dispatch
import Coercive.Proofs.Interpolation
import Coercive.Proofs.Limit

namespace Coercive

/-- The method that a conversion of the object consults first. -/
def Object.first? (o : Object) (hint : Hint) : Option Method :=
  match o.hook? with
  | some hook => some hook
  | none => (o.tried hint).head?

/-- A routine that a conversion consults, and the hint that it is told if it is a hook. -/
structure Consulted where
  role : Role
  routine : Routine
  hint : Option Hint

namespace Consulted

def call (c : Consulted) (depth : Nat) : Call := ⟨c.routine.id, c.role, c.hint, depth, 0⟩

/-- The log of routines each of which is called one level deeper than the one before. -/
def log (depth : Nat) (cs : List Consulted) : List Call :=
  (cs.zipIdx (depth + 1)).map fun (c, depth) => c.call depth

@[simp] theorem log_nil (depth : Nat) : log depth [] = [] := rfl

@[simp] theorem log_cons (depth : Nat) (c : Consulted) (cs : List Consulted) :
    log depth (c :: cs) = c.call (depth + 1) :: log (depth + 1) cs := rfl

theorem log_replicate (depth n : Nat) (c : Consulted) :
    log depth (List.replicate n c) = (List.range' (depth + 1) n).map c.call := by
  induction n generalizing depth with
  | zero => rfl
  | succ n ih => rw [List.replicate_succ, log_cons, ih, List.range'_succ, List.map_cons]

end Consulted

/-- A conversion of an object first consults a routine. -/
structure State.Consults (s : State) (ref : Nat) (hint : Hint) (c : Consulted) : Prop where
  first : (s.object ref).first? hint = some (.routine c.role c.routine)
  told : c.hint = (s.object ref).hook?.map fun _ => hint

def Consulted.inside (c : Consulted) (invoke : Invoker) (s : State) (ref : Nat) (hint : Hint) :
    Run Value :=
  c.routine.body.run invoke ⟨.object ref, (s.object ref).tells hint, c.hint⟩

/-- A conversion of an object first consults a routine that converts the next object and returns
what it gets. It may change the state, to `t` until it converts that object, but it calls nothing
else. -/
structure Leads (s : State) (ref : Nat) (hint : Hint) (c : Consulted) (t : State) (next : Nat)
    (hint' : Hint) : Prop where
  consults : s.Consults ref hint c
  depth : t.depth = s.depth + 1
  converts : ∀ invoke limit trace outcome v,
    (Value.object next).reduce invoke hint' limit { t with trace } = (outcome, v) →
    ∃ w, c.inside invoke s ref hint limit { s with depth := s.depth + 1, trace } =
      (Value.primitive <$> outcome, w) ∧ w.calls = v.calls

/-- A conversion of an object first consults a routine that returns a primitive and calls none. -/
structure Answers (s : State) (ref : Nat) (hint : Hint) (c : Consulted) (p : Primitive) : Prop where
  consults : s.Consults ref hint c
  returns : ∀ invoke limit trace,
    ∃ w, c.inside invoke s ref hint limit { s with depth := s.depth + 1, trace } =
      (.ok (.primitive p), w) ∧ w.calls = { s with trace }.calls

/-- A chain of conversions from a state, an object and a hint on: the number of the objects, the
routines that are consulted, and the primitive that comes back. -/
inductive Cascade : State → Nat → Hint → Nat → List Consulted → Primitive → Prop
  | last {s : State} {ref : Nat} {hint : Hint} {c : Consulted} {p : Primitive}
      (h : Answers s ref hint c p) : Cascade s ref hint 1 [c] p
  /-- The inherited `stringify` may stand at the end. A call of it is not logged. -/
  | inherited {s : State} {ref : Nat} {hint : Hint}
      (h : (s.object ref).first? hint = some (.inherited .stringify)) :
      Cascade s ref hint 1 [] (.string ("[object " ++ (s.object ref).className ++ "]"))
  | link {s t : State} {ref next n : Nat} {hint hint' : Hint} {c : Consulted}
      {cs : List Consulted} {p : Primitive} (h : Leads s ref hint c t next hint')
      (rest : Cascade t next hint' n cs p) : Cascade s ref hint (n + 1) (c :: cs) p

namespace Object

theorem askEach_first {invoke : Invoker} {o : Object} {receiver : Value} {limit : Nat}
    {s t : State} {conversions : List Conversion} {m : Method} {outcome : Except Stop Primitive}
    (hm : (conversions.filterMap o.conversion?).head? = some m)
    (hrun : invoke m receiver [] limit s = (Value.primitive <$> outcome, t)) :
    o.askEach invoke receiver conversions limit s = (outcome, t) := by
  induction conversions with
  | nil => cases hm
  | cons c rest ih =>
    cases hc : o.conversion? c with
    | none =>
      rw [List.filterMap_cons_none hc] at hm
      rw [askEach, hc]
      exact ih hm
    | some first =>
      rw [List.filterMap_cons_some hc, List.head?_cons] at hm
      cases hm
      cases outcome with
      | error e =>
        simp only [askEach, hc]
        exact Run.bind_of_error hrun
      | ok p =>
        simp only [askEach, hc]
        exact Run.bind_of_ok hrun

/-- The method that is consulted first decides, unless it returns an object. -/
theorem reduce_first {invoke : Invoker} {o : Object} {receiver : Value} {hint : Hint} {limit : Nat}
    {s t : State} {m : Method} {outcome : Except Stop Primitive} (hm : o.first? hint = some m)
    (hrun : invoke m receiver (o.tells hint) limit s = (Value.primitive <$> outcome, t)) :
    o.reduce invoke receiver hint limit s = (outcome, t) := by
  unfold first? at hm
  cases hh : o.hook? with
  | some hook =>
    rw [hh] at hm
    cases hm
    simp only [tells, hh] at hrun
    rw [reduce, hh]
    show o.askHook invoke receiver hint m limit s = (outcome, t)
    rw [askHook_result, hrun]
    cases outcome <;> rfl
  | none =>
    simp only [hh, tried_eq] at hm
    simp only [tells, hh] at hrun
    rw [reduce, hh]
    exact askEach_first hm hrun

theorem run_first {o : Object} {hint : Hint} {role : Role} {r : Routine} (receiver : Value)
    (h : o.first? hint = some (.routine role r)) (invoke : Invoker) :
    Method.run invoke (.routine role r) receiver (o.tells hint) =
        r.run invoke role ⟨receiver, o.tells hint, o.hook?.map fun _ => hint⟩ ∧
      role.argCount (o.tells hint) = 0 := by
  unfold first? at h
  cases hh : o.hook? with
  | some hook =>
    rw [hh] at h
    cases h
    obtain rfl := hook?_role hh
    simp only [tells, hh]
    cases hint <;> exact ⟨rfl, rfl⟩
  | none =>
    simp only [hh, tried_eq] at h
    obtain ⟨conversion, -, hconversion⟩ := List.mem_filterMap.1 (List.mem_of_mem_head? h)
    simp only [tells, hh]
    rcases conversion?_role hconversion with rfl | rfl <;> exact ⟨rfl, rfl⟩

end Object

theorem Run.traced_of (call : Nat → Call) {act : Run Value} {limit : Nat} {s t : State}
    {outcome : Except Stop Value}
    (h : act limit { s with trace := .called (call s.depth) :: s.trace } = (outcome, t)) :
    (Run.get >>= fun s => Run.traced (call s.depth) act) limit s =
      (outcome, { t with trace := .returned (Run.stop? outcome) :: t.trace }) := by
  rw [Run.traced_apply, h]

theorem Value.reduce_inside {invoke : Invoker} {s t : State} {ref : Nat} {hint : Hint} {limit : Nat}
    {outcome : Except Stop Primitive} (hs : s.depth < limit)
    (h : (s.object ref).reduce invoke (.object ref) hint limit s.enter = (outcome, t)) :
    (Value.object ref).reduce invoke hint limit s = (outcome, t.leave) := by
  have hinner : (Run.object ref >>= fun o => o.reduce invoke (.object ref) hint) limit s.enter =
      (outcome, t) := h
  rw [Value.reduce, Run.nested_of_lt _ hs, hinner]

namespace State.Consults

variable {s : State} {ref : Nat} {hint : Hint} {c : Consulted} {invoke : Invoker} {limit : Nat}

/-- The state in which the body of the routine starts, one level deeper and with the call logged. -/
def start (s : State) (c : Consulted) : State :=
  { s.enter with trace := .called (c.call (s.depth + 1)) :: s.enter.trace }

theorem calls_start (s : State) (c : Consulted) :
    (start s c).calls = s.calls ++ [c.call (s.depth + 1)] := by
  rw [start, calls_called, calls_enter]

/-- A conversion that consults the routine first ends as its body does, unless that returns an
object. -/
theorem reduce (h : s.Consults ref hint c) (hs : s.depth < limit)
    (outcome : Except Stop Primitive) {t : State}
    (hrun : c.inside invoke s ref hint limit (start s c) = (Value.primitive <$> outcome, t)) :
    ∃ u, (Value.object ref).reduce (Method.run invoke) hint limit s = (outcome, u) ∧
      u.calls = t.calls := by
  obtain ⟨haccept, hargs⟩ := Object.run_first (.object ref) h.first invoke
  have hcall : Method.run invoke (.routine c.role c.routine) (.object ref)
      ((s.object ref).tells hint) limit s.enter = (Value.primitive <$> outcome,
        { t with trace := .returned (Run.stop? (Value.primitive <$> outcome)) :: t.trace }) := by
    rw [haccept, ← h.told, Routine.run]
    simp only [hargs]
    exact Run.traced_of c.call hrun
  refine ⟨_, Value.reduce_inside hs (Object.reduce_first h.first hcall), ?_⟩
  rw [calls_leave, calls_returned]

end State.Consults

theorem Value.reduce_refused {invoke : Invoker} {s : State} {hint : Hint} {limit : Nat}
    (hs : limit ≤ s.depth) (ref : Nat) :
    (Value.object ref).reduce invoke hint limit s =
      (.error (.failed (.depthExceeded limit)), s) :=
  Run.nested_of_le _ hs

theorem State.Consults.traced {s : State} {ref : Nat} {hint : Hint} {c : Consulted}
    (h : s.Consults ref hint c) (trace : List Event) : { s with trace }.Consults ref hint c :=
  ⟨h.first, h.told⟩

namespace Leads

variable {s t : State} {ref next : Nat} {hint hint' : Hint} {c : Consulted} {limit : Nat}

/-- A body that converts an object with a hint of its own, or else with the hint of its call, leads
to that object. -/
theorem of_coerce {target : Script Value} (wanted : Option Hint) (hs : s.Consults ref hint c)
    (hbody : c.routine.body = .coerce target wanted)
    (htarget : ∀ invoke limit trace, let t : State := { s with depth := s.depth + 1, trace }
      target.run invoke ⟨.object ref, (s.object ref).tells hint, c.hint⟩ limit t =
        (.ok (.object next), t)) :
    Leads s ref hint c { s with depth := s.depth + 1 } next
      (wanted.getD (c.hint.getD .default)) := by
  refine ⟨hs, rfl, fun invoke limit trace outcome v hrun => ⟨v, ?_, rfl⟩⟩
  rw [Consulted.inside, hbody, Script.run, Run.bind_of_ok (htarget invoke limit trace),
    Run.map_apply, hrun]

/-- One step of a chain: the call is logged, and then the conversion ends as that of the next object
does. -/
theorem step (h : Leads s ref hint c t next hint') (invoke : Invoker) (hs : s.depth < limit)
    (trace : List Event) :
    ∃ trace', { t with trace := trace' }.calls =
        { s with trace }.calls ++ [c.call (s.depth + 1)] ∧
      ∀ outcome v, (Value.object next).reduce invoke hint' limit { t with trace := trace' } =
          (outcome, v) →
        ∃ u, (Value.object ref).reduce (Method.run invoke) hint limit { s with trace } =
          (outcome, u) ∧ u.calls = v.calls := by
  let started := State.Consults.start { s with trace } c
  refine ⟨started.trace, State.Consults.calls_start { s with trace } c, fun outcome v hnext => ?_⟩
  obtain ⟨w, hinside, hcalls⟩ := h.converts invoke limit started.trace outcome v hnext
  obtain ⟨u, hrun, hcalls'⟩ := (h.consults.traced trace).reduce hs outcome hinside
  exact ⟨u, hrun, hcalls'.trans hcalls⟩

end Leads

theorem Answers.reduce {s : State} {ref : Nat} {hint : Hint} {c : Consulted} {p : Primitive}
    (h : Answers s ref hint c p) (invoke : Invoker) {limit : Nat} (hs : s.depth < limit)
    (trace : List Event) :
    ∃ u, (Value.object ref).reduce (Method.run invoke) hint limit { s with trace } = (.ok p, u) ∧
      u.calls = { s with trace }.calls ++ [c.call (s.depth + 1)] := by
  let started := State.Consults.start { s with trace } c
  obtain ⟨w, hinside, hcalls⟩ := h.returns invoke limit started.trace
  obtain ⟨u, hrun, hcalls'⟩ := (h.consults.traced trace).reduce hs (.ok p) hinside
  exact ⟨u, hrun, hcalls'.trans (hcalls.trans (State.Consults.calls_start { s with trace } c))⟩

theorem reduce_inherited {s : State} {ref : Nat} {hint : Hint} {limit : Nat}
    (h : (s.object ref).first? hint = some (.inherited .stringify)) (invoke : Invoker)
    (hs : s.depth < limit) :
    ∃ u, (Value.object ref).reduce (Method.run invoke) hint limit s =
        (.ok (.string ("[object " ++ (s.object ref).className ++ "]")), u) ∧ u.calls = s.calls := by
  have hinside : (s.object ref).reduce (Method.run invoke) (.object ref) hint limit s.enter =
      (.ok (.string ("[object " ++ (s.object ref).className ++ "]")), s.enter) :=
    Object.reduce_first h rfl
  refine ⟨_, Value.reduce_inside hs hinside, ?_⟩
  rw [State.calls_leave, State.calls_enter]

namespace Cascade

/-- A conversion of the first of some objects ends with a primitive if the limit has room for all of
them. It has called as many of the routines as there was room for. -/
def Fits (budget limit : Nat) (s : State) (ref : Nat) (hint : Hint) (n : Nat) (cs : List Consulted)
    (p : Primitive) : Prop :=
  ∃ t, (Value.object ref).reduce (invokeWithin budget) hint limit s =
      (if s.depth + n ≤ limit then .ok p else .error (.failed (.depthExceeded limit)), t) ∧
    t.calls = s.calls ++ Consulted.log s.depth (cs.take (limit - s.depth))

variable {s t : State} {ref next n budget limit : Nat} {hint hint' : Hint} {c : Consulted}
  {cs : List Consulted} {p : Primitive}

theorem fits_full (hs : limit ≤ s.depth) (hn : 0 < n) : Fits budget limit s ref hint n cs p := by
  refine ⟨s, ?_, ?_⟩
  · rw [Value.reduce_refused hs, if_neg (by omega)]
  · rw [Nat.sub_eq_zero_of_le hs, List.take_zero, Consulted.log_nil, List.append_nil]

theorem fits_one (hs : s.depth < limit) (hcs : cs.length ≤ 1)
    (hrun : (Value.object ref).reduce (invokeWithin budget) hint limit s = (.ok p, t))
    (hcalls : t.calls = s.calls ++ Consulted.log s.depth cs) :
    Fits budget limit s ref hint 1 cs p := by
  refine ⟨t, ?_, ?_⟩
  · rw [hrun, if_pos (Nat.succ_le_of_lt hs)]
  · rw [hcalls, List.take_of_length_le (by omega)]

theorem fits_link (h : Leads s ref hint c t next hint') (hs : s.depth < limit) (trace : List Event)
    (hnext : ∀ trace, Fits budget limit { t with trace } next hint' n cs p) :
    Fits (budget + 1) limit { s with trace } ref hint (n + 1) (c :: cs) p := by
  obtain ⟨trace', hcalled, hstep⟩ := h.step (invokeWithin budget) hs trace
  obtain ⟨v, hrun, hcalls⟩ := hnext trace'
  obtain ⟨u, hrun', hcalls'⟩ := hstep _ v hrun
  refine ⟨u, hrun'.trans ?_, ?_⟩
  · simp only [h.depth, Nat.add_assoc, Nat.add_comm 1 n]
  · have htake : limit - s.depth = limit - (s.depth + 1) + 1 := by omega
    rw [hcalls', hcalls, hcalled, htake, List.take_succ_cons, Consulted.log_cons,
      List.append_assoc, List.singleton_append, h.depth]

theorem length_bounds (h : Cascade s ref hint n cs p) : cs.length ≤ n ∧ n ≤ cs.length + 1 := by
  induction h with
  | last => exact ⟨Nat.le_refl 1, Nat.le_succ 1⟩
  | inherited => exact ⟨Nat.zero_le 1, Nat.le_refl 1⟩
  | link _ _ ih => exact ⟨Nat.succ_le_succ ih.1, Nat.succ_le_succ ih.2⟩

/-- A chain of conversions fits into the limit or stops there. -/
theorem fits (h : Cascade s ref hint n cs p) (hbudget : limit - s.depth ≤ budget)
    (trace : List Event) : Fits budget limit { s with trace } ref hint n cs p := by
  induction h generalizing budget trace with
  | @last s ref hint c p h =>
    by_cases hs : s.depth < limit
    · obtain ⟨budget, rfl⟩ := Nat.exists_eq_add_one_of_ne_zero (show budget ≠ 0 by omega)
      obtain ⟨u, hrun, hcalls⟩ := h.reduce (invokeWithin budget) hs trace
      exact fits_one (s := { s with trace }) hs (Nat.le_refl 1) hrun hcalls
    · exact fits_full (Nat.le_of_not_lt hs) Nat.one_pos
  | @inherited s ref hint h =>
    by_cases hs : s.depth < limit
    · obtain ⟨budget, rfl⟩ := Nat.exists_eq_add_one_of_ne_zero (show budget ≠ 0 by omega)
      obtain ⟨u, hrun, hcalls⟩ :=
        reduce_inherited (s := { s with trace }) h (invokeWithin budget) hs
      exact fits_one (s := { s with trace }) hs (Nat.zero_le 1) hrun (by simpa using hcalls)
    · exact fits_full (Nat.le_of_not_lt hs) Nat.one_pos
  | @link s t ref next n hint hint' c cs p h _ ih =>
    by_cases hs : s.depth < limit
    · obtain ⟨budget, rfl⟩ := Nat.exists_eq_add_one_of_ne_zero (show budget ≠ 0 by omega)
      exact fits_link h hs trace fun trace => ih (by rw [h.depth]; omega) trace
    · exact fits_full (Nat.le_of_not_lt hs) (Nat.succ_pos n)

/-- An object that leads back to itself is a chain that is too long for every limit. -/
theorem fits_loop (states : Nat → State)
    (h : ∀ i, Leads (states i) ref hint c (states (i + 1)) ref hint) (room : Nat)
    (hroom : limit - (states 0).depth = room) (hbudget : room ≤ budget) (trace : List Event) :
    Fits budget limit { states 0 with trace } ref hint (room + 1) (List.replicate (room + 1) c)
      p := by
  induction room generalizing states budget trace with
  | zero => exact fits_full (Nat.le_of_sub_eq_zero hroom) Nat.one_pos
  | succ room ih =>
    obtain ⟨budget, rfl⟩ := Nat.exists_eq_add_one_of_ne_zero (show budget ≠ 0 by omega)
    have hdepth : (states 1).depth = (states 0).depth + 1 := (h 0).depth
    exact fits_link (h 0) (by omega) trace fun trace =>
      ih (fun i => states (i + 1)) (fun i => h (i + 1))
        (show limit - (states 1).depth = room by omega) (by omega) trace

end Cascade

/-- A chain of conversions gives its primitive exactly if the limit has room for all its objects,
and then calls each routine once. Otherwise it is refused at the limit, after the first routines, as
many as there was room for. An object that leads back to itself is refused after a call at every
level. It suffices that calls may nest as deep as levels are left. -/
theorem reduce_cascade :
    (∀ (s : State) (ref : Nat) (hint : Hint) (n : Nat) (cs : List Consulted) (p : Primitive),
      Cascade s ref hint n cs p →
      ∀ limit budget : Nat, s.depth ≤ limit → limit - s.depth ≤ budget →
        ∃ outcome t, (Value.object ref).reduce (invokeWithin budget) hint limit s = (outcome, t) ∧
          (s.depth + n ≤ limit → outcome = .ok p ∧
            t.calls = s.calls ++ Consulted.log s.depth cs) ∧
          (limit < s.depth + n → outcome = .error (.failed (.depthExceeded limit)) ∧
            t.calls = s.calls ++ Consulted.log s.depth (cs.take (limit - s.depth)) ∧
            (cs.take (limit - s.depth)).length = limit - s.depth)) ∧
    (∀ (states : Nat → State) (ref : Nat) (hint : Hint) (c : Consulted),
      (∀ i, Leads (states i) ref hint c (states (i + 1)) ref hint) →
      ∀ limit budget : Nat, (states 0).depth ≤ limit → limit - (states 0).depth ≤ budget →
        ∃ t, (Value.object ref).reduce (invokeWithin budget) hint limit (states 0) =
            (.error (.failed (.depthExceeded limit)), t) ∧
          t.calls = (states 0).calls ++
            (List.range' ((states 0).depth + 1) (limit - (states 0).depth)).map c.call) := by
  constructor
  · intro s ref hint n cs p h limit budget hs hbudget
    obtain ⟨t, hrun, hcalls⟩ : Cascade.Fits budget limit s ref hint n cs p :=
      h.fits hbudget s.trace
    obtain ⟨hle, hge⟩ := h.length_bounds
    refine ⟨_, t, hrun, fun hroom => ⟨if_pos hroom, ?_⟩, fun hfull =>
      ⟨if_neg (by omega), hcalls, List.length_take_of_le (by omega)⟩⟩
    rw [hcalls, List.take_of_length_le (by omega)]
  · intro states ref hint c h limit budget hs hbudget
    let room := limit - (states 0).depth
    obtain ⟨t, hrun, hcalls⟩ : Cascade.Fits budget limit (states 0) ref hint (room + 1)
        (List.replicate (room + 1) c) .undefined :=
      Cascade.fits_loop states h room rfl hbudget (states 0).trace
    refine ⟨t, hrun.trans (by rw [if_neg (by omega)]), ?_⟩
    rw [hcalls, List.take_replicate, Nat.min_eq_left (Nat.le_succ room), Consulted.log_replicate]

/-- A hook, a `stringify` and a `valuate` lead to a string from depth 1 on: a limit of 4 has room
for the three, and under a limit of 3 the last one is not called. A hook that converts its own
object is called twice under a limit of 2. -/
theorem reduce_cascade_mixed :
    let first : Routine := ⟨"first", .coerce (.ret (.object 1)) (some .string)⟩
    let second : Routine := ⟨"second", .coerce (.read "third") (some .number)⟩
    let third : Routine := ⟨"third", .ret (.string "p")⟩
    let again : Routine := ⟨"again", .coerce .receiver none⟩
    let objects : Array Object := #[.record { hook := some first },
      .record { stringify := .custom second }, .record { valuate := .custom third },
      .record { hook := some again }]
    let s : Nat → State := fun depth => { objects, scope := [("third", .object 2)], depth }
    let cs : List Consulted :=
      [⟨.hook, first, some .default⟩, ⟨.stringify, second, none⟩, ⟨.valuate, third, none⟩]
    let back : Consulted := ⟨.hook, again, some .default⟩
    Cascade (s 1) 0 .default 3 cs (.string "p") ∧
      (∃ t, (Value.object 0).reduce (invokeWithin 3) .default 4 (s 1) = (.ok (.string "p"), t) ∧
        t.calls = [⟨"first", .hook, some .default, 2, 0⟩, ⟨"second", .stringify, none, 3, 0⟩,
          ⟨"third", .valuate, none, 4, 0⟩]) ∧
      (∃ t, (Value.object 0).reduce (invokeWithin 2) .default 3 (s 1) =
          (.error (.failed (.depthExceeded 3)), t) ∧
        t.calls = [⟨"first", .hook, some .default, 2, 0⟩, ⟨"second", .stringify, none, 3, 0⟩]) ∧
      (∀ i, Leads (s i) 3 .default back (s (i + 1)) 3 .default) ∧
      ∃ t, (Value.object 3).reduce (invokeWithin 2) .default 2 (s 0) =
          (.error (.failed (.depthExceeded 2)), t) ∧
        t.calls = [⟨"again", .hook, some .default, 1, 0⟩,
          ⟨"again", .hook, some .default, 2, 0⟩] := by
  intro first second third again objects s cs back
  have hfirst : Leads (s 1) 0 .default ⟨.hook, first, some .default⟩ (s 2) 1 .string :=
    Leads.of_coerce (s := s 1) (some .string) ⟨rfl, rfl⟩ rfl fun _ _ _ => rfl
  have hsecond : Leads (s 2) 1 .string ⟨.stringify, second, none⟩ (s 3) 2 .number :=
    Leads.of_coerce (s := s 2) (some .number) ⟨rfl, rfl⟩ rfl fun _ _ _ => rfl
  have hthird : Answers (s 3) 2 .number ⟨.valuate, third, none⟩ (.string "p") :=
    ⟨⟨rfl, rfl⟩, fun _ _ _ => ⟨_, rfl, rfl⟩⟩
  have hback : ∀ i, Leads (s i) 3 .default back (s (i + 1)) 3 .default := fun i =>
    Leads.of_coerce (s := s i) none ⟨rfl, rfl⟩ rfl fun _ _ _ => rfl
  have hchain : Cascade (s 1) 0 .default 3 cs (.string "p") :=
    .link hfirst (.link hsecond (.last hthird))
  obtain ⟨hcascade, hloop⟩ := reduce_cascade
  obtain ⟨_, t, hrun, hfits, -⟩ :=
    hcascade (s 1) 0 .default 3 cs _ hchain 4 3 (by decide) (by decide)
  obtain ⟨rfl, hcalls⟩ := hfits (by decide)
  obtain ⟨_, u, hrun', -, hfull⟩ :=
    hcascade (s 1) 0 .default 3 cs _ hchain 3 2 (by decide) (by decide)
  obtain ⟨rfl, hcalls', -⟩ := hfull (by decide)
  exact ⟨hchain, ⟨t, hrun, hcalls⟩, ⟨u, hrun', hcalls'⟩, hback,
    hloop s 3 .default back hback 2 2 (by decide) (by decide)⟩

end Coercive
