import Coercive.Proofs.Depth

namespace Coercive

/-- A call of a method: the state in which it is made, how it ends, and the state that it leaves. -/
structure Consultation where
  method : Method
  before : State
  outcome : Except Stop Value
  after : State

def Consultation.Undecided (c : Consultation) : Prop := ∃ ref, c.outcome = .ok (.object ref)

/-- The consultations are made one after the other, from one state to another. -/
def Consultation.Lead (invoke : Invoker) (limit : Nat) (receiver : Value) (args : List Value) :
    State → List Consultation → State → Prop
  | s, [], t => s = t
  | s, c :: cs, t => c.before = s ∧
      invoke c.method receiver args limit s = (c.outcome, c.after) ∧
      Lead invoke limit receiver args c.after cs t

theorem Consultation.Lead.depth {invoke : Invoker} (hinvoke : invoke.Guarded) {limit : Nat}
    {receiver : Value} {args : List Value} {s t : State} {cs : List Consultation}
    (h : Lead invoke limit receiver args s cs t) (hs : s.depth ≤ limit) :
    ∀ c ∈ cs, c.before.depth = s.depth := by
  induction cs generalizing s with
  | nil => simp
  | cons c cs ih =>
    obtain ⟨rfl, hrun, hrest⟩ := h
    have hafter := ((hinvoke c.method receiver args).balanced limit c.before hs).1
    rw [hrun] at hafter
    intro d hd
    rcases List.mem_cons.1 hd with rfl | hd
    · rfl
    · exact (ih hrest (by rw [hafter]; exact hs) d hd).trans hafter

namespace Object

def tried (o : Object) : Hint → List Method
  | .string => [.stringify, .valuate].filterMap o.conversion?
  | .number | .default => [.valuate, .stringify].filterMap o.conversion?

def tells (o : Object) (hint : Hint) : List Value :=
  match o.hook? with
  | some _ => [.string hint.name]
  | none => []

def hookResult (o : Object) (hint : Hint) : Except Stop Value → Except Stop Primitive
  | .ok (.primitive p) => .ok p
  | .ok (.object _) => .error (.failed (.hookReturnedObject o.typeName hint))
  | .error e => .error e

/-- The last consultation decides by a primitive or a failure, or every method was consulted and
none decided. -/
def Settled (o : Object) (methods : List Method) (cs : List Consultation)
    (result : Except Stop Primitive) : Prop :=
  (∃ undecided last, cs = undecided ++ [last] ∧ (∀ c ∈ undecided, c.Undecided) ∧
    cs.map (·.method) <+: methods ∧
    ((∃ p, last.outcome = .ok (.primitive p) ∧ result = .ok p) ∨
      ∃ e, last.outcome = .error e ∧ result = .error e)) ∨
  (cs.map (·.method) = methods ∧ (∀ c ∈ cs, c.Undecided) ∧
    result = .error (.failed (.noConversion o.typeName)))

theorem Settled.cons {o : Object} {methods : List Method} {cs : List Consultation}
    {result : Except Stop Primitive} (h : o.Settled methods cs result) {c : Consultation}
    (hc : c.Undecided) : o.Settled (c.method :: methods) (c :: cs) result := by
  have hall : ∀ {ds : List Consultation}, (∀ d ∈ ds, d.Undecided) → ∀ d ∈ c :: ds, d.Undecided := by
    intro ds hds d hd
    rcases List.mem_cons.1 hd with rfl | hd
    · exact hc
    · exact hds d hd
  rcases h with
    ⟨undecided, last, rfl, hundecided, hmethods, hlast⟩ | ⟨hmethods, hundecided, hresult⟩
  · exact .inl ⟨c :: undecided, last, rfl, hall hundecided,
      List.cons_prefix_cons.2 ⟨rfl, hmethods⟩, hlast⟩
  · exact .inr ⟨by rw [List.map_cons, hmethods], hall hundecided, hresult⟩

/-- Trying conversion methods in turn is a series of consultations that settles the result. -/
theorem askEach_settled (invoke : Invoker) (o : Object) (receiver : Value)
    (conversions : List Conversion) (limit : Nat) (s : State) :
    ∃ cs result t, o.askEach invoke receiver conversions limit s = (result, t) ∧
      Consultation.Lead invoke limit receiver [] s cs t ∧
      o.Settled (conversions.filterMap o.conversion?) cs result := by
  induction conversions generalizing s with
  | nil => exact ⟨[], _, s, rfl, rfl, .inr ⟨rfl, by simp, rfl⟩⟩
  | cons conversion rest ih =>
    cases hm : o.conversion? conversion with
    | none =>
      obtain ⟨cs, result, t, hrun, hlead, hsettled⟩ := ih s
      refine ⟨cs, result, t, ?_, hlead, ?_⟩
      · simp only [askEach, hm, hrun]
      · rwa [List.filterMap_cons_none hm]
    | some m =>
      rw [List.filterMap_cons_some hm]
      rcases hinvoke : invoke m receiver [] limit s with ⟨e | p | ref, t⟩ <;>
        simp only [askEach, hm, Run.bind_apply, hinvoke]
      · exact ⟨[⟨m, s, .error e, t⟩], .error e, t, rfl, ⟨rfl, hinvoke, rfl⟩,
          .inl ⟨[], _, rfl, by simp, ⟨_, rfl⟩, .inr ⟨e, rfl, rfl⟩⟩⟩
      · exact ⟨[⟨m, s, .ok (.primitive p), t⟩], .ok p, t, rfl, ⟨rfl, hinvoke, rfl⟩,
          .inl ⟨[], _, rfl, by simp, ⟨_, rfl⟩, .inl ⟨p, rfl, rfl⟩⟩⟩
      · obtain ⟨cs, result, u, hrun, hlead, hsettled⟩ := ih t
        exact ⟨⟨m, s, .ok (.object ref), t⟩ :: cs, result, u, hrun, ⟨rfl, hinvoke, hlead⟩,
          hsettled.cons ⟨ref, rfl⟩⟩

theorem askHook_result (invoke : Invoker) (o : Object) (receiver : Value) (hint : Hint)
    (hook : Method) (limit : Nat) (s : State) :
    o.askHook invoke receiver hint hook limit s =
      (o.hookResult hint (invoke hook receiver [.string hint.name] limit s).1,
        (invoke hook receiver [.string hint.name] limit s).2) := by
  rw [askHook, Run.bind_apply]
  rcases invoke hook receiver [.string hint.name] limit s with ⟨e | p | ref, t⟩ <;> rfl

/-- The calls that a conversion makes inside its level, and how it ends. -/
structure Dispatched (invoke : Invoker) (limit : Nat) (o : Object) (receiver : Value) (hint : Hint)
    (s : State) (cs : List Consultation) (result : Except Stop Primitive) (t : State) : Prop where
  lead : Consultation.Lead invoke limit receiver (o.tells hint) s cs t
  depth : ∀ c ∈ cs, c.before.depth = s.depth
  hook : ∀ hook, o.hook? = some hook → ∃ c, cs = [c] ∧ c.method = hook ∧
    result = o.hookResult hint c.outcome
  conversions : o.hook? = none → o.Settled (o.tried hint) cs result
  /-- The checks of the arguments let these calls pass: the body of the routine runs. -/
  accepted : ∀ c ∈ cs, ∀ role r, c.method = .routine role r → ∀ inner,
    Method.run inner c.method receiver (o.tells hint) =
      r.run inner role ⟨receiver, o.tells hint, o.hook?.map fun _ => hint⟩

theorem tried_eq (o : Object) (hint : Hint) :
    o.tried hint = (Conversion.order hint).filterMap o.conversion? := by
  cases hint <;> rfl

theorem hook?_role {o : Object} {role : Role} {r : Routine}
    (h : o.hook? = some (.routine role r)) : role = .hook := by
  cases o with
  | record record =>
    obtain ⟨r', _, heq⟩ := Option.map_eq_some_iff.1 h
    cases heq
    rfl
  | plain | function => cases h

theorem conversion?_role {o : Object} {c : Conversion} {role : Role} {r : Routine}
    (h : o.conversion? c = some (.routine role r)) : role = .stringify ∨ role = .valuate := by
  cases o with
  | record record =>
    simp only [conversion?, Record.conversion?] at h
    split at h <;> cases h
    cases c with
    | stringify => exact .inl rfl
    | valuate => exact .inr rfl
  | plain | function => cases h

theorem Settled.method_mem {o : Object} {methods : List Method} {cs : List Consultation}
    {result : Except Stop Primitive} (h : o.Settled methods cs result) :
    ∀ c ∈ cs, c.method ∈ methods := by
  intro c hc
  have hmem := List.mem_map_of_mem (f := (·.method)) hc
  rcases h with ⟨_, _, _, _, hmethods, _⟩ | ⟨hmethods, _, _⟩
  · exact hmethods.subset hmem
  · rwa [hmethods] at hmem

theorem reduce_dispatched {invoke : Invoker} (hinvoke : invoke.Guarded) (o : Object)
    (receiver : Value) (hint : Hint) {limit : Nat} {s : State} (hs : s.depth ≤ limit) :
    ∃ cs result t, o.reduce invoke receiver hint limit s = (result, t) ∧
      o.Dispatched invoke limit receiver hint s cs result t := by
  cases hh : o.hook? with
  | some hook =>
    have htells : o.tells hint = [.string hint.name] := by simp [tells, hh]
    rcases hcall : invoke hook receiver [.string hint.name] limit s with ⟨outcome, t⟩
    have hlead : Consultation.Lead invoke limit receiver (o.tells hint) s
        [⟨hook, s, outcome, t⟩] t := by
      rw [htells]
      exact ⟨rfl, hcall, rfl⟩
    have hrun : o.reduce invoke receiver hint limit s = (o.hookResult hint outcome, t) := by
      rw [reduce, hh]
      exact (o.askHook_result invoke receiver hint hook limit s).trans (by rw [hcall])
    refine ⟨[⟨hook, s, outcome, t⟩], _, t, hrun, ?_⟩
    exact {
      lead := hlead
      depth := hlead.depth hinvoke hs
      hook := by
        intro hook' hhook
        rw [hh] at hhook
        cases hhook
        exact ⟨_, rfl, rfl, rfl⟩
      conversions := by simp [hh]
      accepted := by
        intro c hc role r hr inner
        rw [List.mem_singleton.1 hc] at hr ⊢
        have hrole := hook?_role (hh.trans (congrArg some hr))
        subst hrole
        rw [hr, htells, hh]
        cases hint <;> rfl }
  | none =>
    obtain ⟨cs, result, t, hrun, hlead, hsettled⟩ :=
      o.askEach_settled invoke receiver (Conversion.order hint) limit s
    rw [← tried_eq] at hsettled
    have htells : o.tells hint = [] := by simp [tells, hh]
    refine ⟨cs, result, t, by rw [reduce, hh]; exact hrun, ?_⟩
    exact {
      lead := by rw [htells]; exact hlead
      depth := hlead.depth hinvoke hs
      hook := by simp [hh]
      conversions := fun _ => hsettled
      accepted := by
        intro c hc role r hr inner
        have hmem := hsettled.method_mem c hc
        rw [tried_eq, hr] at hmem
        obtain ⟨conversion, _, hconversion⟩ := List.mem_filterMap.1 hmem
        rw [hr, htells, hh]
        rcases conversion?_role hconversion with rfl | rfl <;> rfl }

end Object

/-- A conversion of an object within the limit makes the calls of `Object.Dispatched`, one level
deeper and with the object as the receiver. -/
theorem reduce_object {invoke : Invoker} (hinvoke : invoke.Guarded) (ref : Nat) (hint : Hint)
    {limit : Nat} {s : State} (hs : s.depth < limit) :
    ∃ cs result t, (Value.object ref).reduce invoke hint limit s = (result, t.leave) ∧
      (∀ c ∈ cs, c.before.depth = s.depth + 1) ∧
      (s.object ref).Dispatched invoke limit (.object ref) hint s.enter cs result t := by
  obtain ⟨cs, result, t, hrun, hdispatched⟩ :=
    (s.object ref).reduce_dispatched hinvoke (.object ref) hint (s := s.enter) hs
  refine ⟨cs, result, t, ?_, hdispatched.depth, hdispatched⟩
  have hinner : (Run.object ref >>= fun o => o.reduce invoke (.object ref) hint) limit s.enter
      = (result, t) := hrun
  rw [Value.reduce, Run.nested, if_pos hs, hinner]

/-- With the hint `number`, an object that returns itself from `valuate` is asked for `stringify`
next. -/
theorem reduce_object_second_method :
    let o : Object := .record
      { valuate := .custom ⟨"v", .receiver⟩, stringify := .custom ⟨"s", .ret (.string "X")⟩ }
    let s : State := { objects := #[o] }
    (invokeWithin 2).Guarded ∧ s.depth < 1 ∧
      ∃ cs t, (Value.object 0).reduce (invokeWithin 2) .number 1 s = (.ok (.string "X"), t.leave) ∧
        (∀ c ∈ cs, c.before.depth = 1) ∧
        o.Dispatched (invokeWithin 2) 1 (.object 0) .number s.enter cs (.ok (.string "X")) t := by
  intro o s
  obtain ⟨cs, result, t, hrun, hdepth, hdispatched⟩ :=
    reduce_object (invokeWithin_guarded 2) 0 .number (s := s) (show 0 < 1 by decide)
  have hresult : ((Value.object 0).reduce (invokeWithin 2) .number 1 s).1 = .ok (.string "X") := by
    cbv
  rw [hrun] at hresult
  cases hresult
  exact ⟨invokeWithin_guarded 2, by decide, cs, t, hrun, hdepth, hdispatched⟩

end Coercive
