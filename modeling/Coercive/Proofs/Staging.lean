import Coercive.Proofs.Limit
import Coercive.Proofs.Reachable
import Coercive.Proofs.Scoping

namespace Coercive

variable {α : Type}

/-- A computation ends with an outcome in a state when it is given calls as deep as it needs. -/
def Run.Ends (act : Invoker → Run α) (limit : Nat) (s : State) (r : Except Stop α × State) : Prop :=
  ∃ budget, act (invokeWithin budget) limit s = r ∧ r.1 ≠ .error .exhausted

/-- If calls only need to nest one deeper in the second computation, both end alike. -/
theorem Run.ends_iff {act act' : Invoker → Run α}
    (h : ∀ budget, Run.Alike (fun x _ => x = .stop .exhausted) (act (invokeWithin budget))
      (act' (invokeWithin (budget + 1))))
    (h' : ∀ budget, Run.Alike (fun x _ => x = .stop .exhausted) (act' (invokeWithin budget))
      (act (invokeWithin budget)))
    {limit : Nat} {s : State} {r : Except Stop α × State} :
    Run.Ends act limit s r ↔ Run.Ends act' limit s r := by
  constructor
  · intro ⟨budget, hrun, hr⟩
    rw [← hrun] at hr
    exact ⟨budget + 1, ((h budget).finished hr).trans hrun, hrun ▸ hr⟩
  · intro ⟨budget, hrun, hr⟩
    rw [← hrun] at hr
    exact ⟨budget, ((h' budget).finished hr).trans hrun, hrun ▸ hr⟩

namespace Expr

/-- Evaluates the operands in turn, binds their values to two variables and evaluates the operation
on these. Other operations have no operands to bind. -/
def staged (invoke : Invoker) (x y : String) : Expr → Run Value
  | .member object field => do
    Run.assign x (← object.eval invoke)
    eval invoke (.member (.name x) field)
  | .index object key => do
    Run.assign x (← object.eval invoke)
    Run.assign y (← key.eval invoke)
    eval invoke (.index (.name x) (.name y))
  | .call (.member object field) args => do
    Run.assign x (← object.eval invoke)
    eval invoke (.call (.member (.name x) field) args)
  | .call (.index object key) args => do
    Run.assign x (← object.eval invoke)
    Run.assign y (← key.eval invoke)
    eval invoke (.call (.index (.name x) (.name y)) args)
  | .call callee args => do
    Run.assign x (← callee.eval invoke)
    eval invoke (.call (.name x) args)
  | .unary sign operand => do
    Run.assign x (← operand.eval invoke)
    eval invoke (.unary sign (.name x))
  | .binary op left right => do
    Run.assign x (← left.eval invoke)
    Run.assign y (← right.eval invoke)
    eval invoke (.binary op (.name x) (.name y))
  | e => eval invoke e

def builtinCallee? (s : State) : Expr → Option Builtin
  | .call (.name z) _ =>
    match s.scope.get? z with
    | some _ => none
    | none => Builtin.ofName? z
  | _ => none

theorem eq_call_of_builtinCallee? {s : State} {e : Expr} {b : Builtin}
    (h : e.builtinCallee? s = some b) :
    ∃ z args, e = .call (.name z) args ∧ s.scope.get? z = none ∧ Builtin.ofName? z = some b := by
  unfold builtinCallee? at h
  split at h
  · next z args =>
    split at h
    · cases h
    · next hz => exact ⟨z, args, rfl, hz, h⟩
  · cases h

/-- What evaluating in stages adds to the state: the variables, and the function object of a builtin
function that is bound to one. -/
def surplus (x y : String) (s : State) (e : Expr) : Surplus where
  allowance := .hiding [x, y]
  start := s.objects.size
  objects := (e.builtinCallee? s).toList.map fun b => .function (.builtin b)

variable {x y : String} {s t : State} {limit : Nat}

theorem eval_names {v w : Value} (hv : s.scope.get? x = some v) (hw : s.scope.get? y = some w)
    (invoke : Invoker) (next : Value → Value → Run Value) (limit : Nat) :
    (do next (← eval invoke (.name x)) (← eval invoke (.name y))) limit s = next v w limit s := by
  rw [Run.bind_of_ok (eval_name hv invoke limit), Run.bind_of_ok (eval_name hw invoke limit)]

theorem eval_call_name {f : Value} (h : s.scope.get? x = some f) (args : List Expr)
    (invoke : Invoker) (limit : Nat) :
    (call (.name x) args).eval invoke limit s = (do
      let vs ← evalAll invoke args
      f.call invoke .undefined vs) limit s :=
  Run.bind_of_ok (Binding.find_of_some h limit)

theorem eval_call {callee : Expr} {args : List Expr} {invoke : Invoker}
    (hmember : ∀ object field, callee ≠ .member object field)
    (hindex : ∀ object key, callee ≠ .index object key)
    (hbuiltin : (call callee args).builtinCallee? s = none) :
    (call callee args).eval invoke limit s = (do
      let f ← callee.eval invoke
      let vs ← evalAll invoke args
      f.call invoke .undefined vs) limit s := by
  cases callee with
  | member object field => exact absurd rfl (hmember object field)
  | index object key => exact absurd rfl (hindex object key)
  | literal | call | unary | binary => rfl
  | name z =>
    cases hz : s.scope.get? z with
    | some v => rw [eval_call_name hz, Run.bind_of_ok (eval_name hz invoke limit)]
    | none =>
      have hfind : Binding.find z limit s = (.error (.failed (.unresolved z)), s) := by
        apply Binding.find_of_unresolved hz
        simpa [builtinCallee?, hz] using hbuiltin
      have hcallee : (name z).eval invoke limit s = (.error (.failed (.unresolved z)), s) :=
        Run.bind_of_error hfind
      rw [Run.bind_of_error hcallee]
      exact Run.bind_of_error hfind

section Stages

variable {p : Surplus} {budget : Nat}

theorem stage_one (hbeside : p.Beside s s) (hx : ¬ p.allowance.reads x) {l : Expr}
    (hl : l.Within p.allowance) {next : Value → Run Value} {rest : Run Value}
    (hrest : ∀ {u v}, u.scope.get? x = some v → rest limit u = next v limit u)
    (hnext : ∀ {m v w}, p.Same m v w → p.Mirrors m p.Same (next v) (next w)) :
    p.Match s.objects.size p.Same ((l.eval (invokeWithin budget) >>= next) limit s)
      ((do Run.assign x (← l.eval (invokeWithin budget)); rest) limit s) := by
  have hstart := Surplus.Mirrors.eval (Surplus.invokes_within budget) l hl limit s s rfl hbeside
  apply hstart.bind
  intro v w s' t' _ _ hvw hbeside'
  have hbound : (t'.assign x w).scope.get? x = some w := Table.get?_insert_self _ _ _
  have hstage : (Run.assign x w >>= fun _ => rest) limit t' = next w limit (t'.assign x w) :=
    hrest hbound
  rw [hstage]
  exact hnext hvw limit s' _ rfl (hbeside'.assign hx w)

theorem stage_two (hbeside : p.Beside s s) (hxy : x ≠ y) (hx : ¬ p.allowance.reads x)
    (hy : ¬ p.allowance.reads y) {l r : Expr} (hl : l.Within p.allowance)
    (hr : r.Within p.allowance) {next : Value → Value → Run Value} {rest : Run Value}
    (hrest : ∀ {u v w}, u.scope.get? x = some v → u.scope.get? y = some w →
      rest limit u = next v w limit u)
    (hnext : ∀ {m v v' w w'}, p.Same m v v' → p.Same m w w' →
      p.Mirrors m p.Same (next v w) (next v' w')) :
    p.Match s.objects.size p.Same
      ((do next (← l.eval (invokeWithin budget)) (← r.eval (invokeWithin budget))) limit s)
      ((do
        Run.assign x (← l.eval (invokeWithin budget))
        Run.assign y (← r.eval (invokeWithin budget))
        rest) limit s) := by
  have hinvokes := Surplus.invokes_within (p := p) budget
  apply (Surplus.Mirrors.eval hinvokes l hl limit s s rfl hbeside).bind
  intro v v' s' t' _ _ hv hbeside'
  have hsecond := Surplus.Mirrors.eval hinvokes r hr limit s' (t'.assign x v') rfl
    (hbeside'.assign hx v')
  apply hsecond.bind
  intro w w' s'' t'' hrun hgrows hw hbeside''
  -- The second operand has left the variable of the first one alone.
  have hscope : t''.scope = (t'.assign x v').scope := by
    rw [← eval_scope r budget limit (t'.assign x v'), hrun]
  have hfirst : (t''.assign y w').scope.get? x = some v' := by
    have hother : (t''.assign y w').scope.get? x = t''.scope.get? x :=
      Table.get?_insert_of_ne _ _ hxy
    rw [hother, hscope]
    exact Table.get?_insert_self _ _ _
  have hbound : (t''.assign y w').scope.get? y = some w' := Table.get?_insert_self _ _ _
  have hstage : (Run.assign y w' >>= fun _ => rest) limit t'' =
      next v' w' limit (t''.assign y w') :=
    hrest hfirst hbound
  rw [hstage]
  exact hnext (hv.mono hgrows) hw limit s'' _ rfl (hbeside''.assign hy w')

end Stages

section Shapes

variable {p : Surplus} {args : List Expr} {budget : Nat}

theorem stage_callee (hbeside : p.Beside s s) (hx : ¬ p.allowance.reads x) {callee : Expr}
    (hcallee : callee.Within p.allowance) (hargs : AllWithin p.allowance args)
    (hmember : ∀ object field, callee ≠ .member object field)
    (hindex : ∀ object key, callee ≠ .index object key)
    (hbuiltin : (call callee args).builtinCallee? s = none) :
    p.Match s.objects.size p.Same ((call callee args).eval (invokeWithin budget) limit s)
      ((do
        Run.assign x (← callee.eval (invokeWithin budget))
        eval (invokeWithin budget) (.call (.name x) args)) limit s) := by
  have hinvokes := Surplus.invokes_within (p := p) budget
  rw [eval_call hmember hindex hbuiltin]
  apply stage_one hbeside hx hcallee
  · exact fun hbound => eval_call_name hbound args _ limit
  · intro m f g hf
    apply (Surplus.Mirrors.evalAll hinvokes args hargs).bind
    intro m' vs ws hm hvs
    exact Surplus.Mirrors.call hinvokes (hf.mono hm) (.primitive _) hvs

theorem staged_match {e : Expr} (hxy : x ≠ y) (he : e.Within (.hiding [x, y]))
    (hs : s.Closed (.hiding [x, y]) s.objects.size) (hbuiltin : e.builtinCallee? s = none) :
    (e.surplus x y s).Match s.objects.size (fun _ => Eq) (e.eval (invokeWithin budget) limit s)
      (e.staged (invokeWithin budget) x y limit s) := by
  let p := e.surplus x y s
  have hp : p.objects = [] := by simp [p, surplus, hbuiltin]
  have hbeside : p.Beside s s := Surplus.beside_self hs rfl hp
  have hx : ¬ p.allowance.reads x := by simp [p, surplus, Allowance.hiding]
  have hy : ¬ p.allowance.reads y := by simp [p, surplus, Allowance.hiding]
  have hinvokes := Surplus.invokes_within (p := p) budget
  refine Surplus.Match.eq ?_ hp
  cases e with
  | literal | name => exact Surplus.Mirrors.eval hinvokes _ he limit s s rfl hbeside
  | member object field =>
    exact stage_one (l := object) hbeside hx he
      (fun hbound => Run.bind_of_ok (eval_name hbound _ _))
      fun hv => Surplus.Mirrors.member hv field
  | index object key =>
    apply stage_two hbeside hxy hx hy he.1 he.2
    · exact fun hv hw => eval_names hv hw _ _ limit
    · intro m v v' w w' hv hw
      apply (Surplus.Mirrors.toText hinvokes hw _).bindEq
      intro m' key hm
      exact Surplus.Mirrors.member (hv.mono hm) key
  | call callee args =>
    cases callee with
    | member object field =>
      apply stage_one (l := object) hbeside hx he.1
      · exact fun hbound => Run.bind_of_ok (eval_name hbound _ _)
      · exact fun hv => Surplus.Mirrors.callMember hinvokes hv field he.2
    | index object key =>
      apply stage_two hbeside hxy hx hy he.1.1 he.1.2
      · exact fun hv hw => eval_names hv hw _ _ limit
      · intro m v v' w w' hv hw
        apply (Surplus.Mirrors.toText hinvokes hw _).bindEq
        intro m' key hm
        exact Surplus.Mirrors.callMember hinvokes (hv.mono hm) key he.2
    | literal | name | call | unary | binary =>
      exact stage_callee hbeside hx he.1 he.2 nofun nofun hbuiltin
  | unary sign operand =>
    exact stage_one (l := operand) hbeside hx he
      (fun hbound => Run.bind_of_ok (eval_name hbound _ _))
      fun hv => Surplus.Mirrors.mapPrimitive (Surplus.Mirrors.cast hinvokes _ hv)
  | binary op left right =>
    apply stage_two hbeside hxy hx hy he.1 he.2
    · exact fun hv hw => eval_names hv hw _ _ limit
    · intro m v v' w w' hv hw
      exact Surplus.Mirrors.mapPrimitive (Surplus.Mirrors.operate hinvokes op hv hw)

theorem stage_builtin {z : String} {b : Builtin} (hz : s.scope.get? z = none)
    (hb : Builtin.ofName? z = some b) (hs : s.Closed p.allowance s.objects.size)
    (hstart : p.start = s.objects.size) (hp : p.objects = [.function (.builtin b)])
    (hx : ¬ p.allowance.reads x) (hargs : AllWithin p.allowance args) :
    p.Match s.objects.size (fun _ => Eq)
      ((do
        let vs ← evalAll (invokeWithin budget) args
        invokeWithin budget (.builtin b) .undefined vs) limit s)
      ((call (.name z) args).staged (invokeWithin budget) x y limit s) := by
  let f : Object := .function (.builtin b)
  let u := { s with objects := s.objects.push f }.assign x (.object s.objects.size)
  have hbeside : p.Beside s u := by
    apply Surplus.Beside.assign _ hx
    exact
      { closed := hstart ▸ hs
        size := Nat.le_of_eq hstart
        objects := by simp [hstart, hp, f, List.take_of_length_le]
        scope := fun _ _ => rfl
        counters := rfl
        depth := rfl
        trace := rfl }
  have hcallee : (name z).eval (invokeWithin budget) limit s =
      (.ok (.object s.objects.size), { s with objects := s.objects.push f }) :=
    eval_name_builtin hz hb _ limit
  have hstaged : (call (.name z) args).staged (invokeWithin budget) x y limit s = (do
      let vs ← evalAll (invokeWithin budget) args
      Value.call (invokeWithin budget) (.object s.objects.size) .undefined vs) limit u :=
    (Run.bind_of_ok hcallee).trans (eval_call_name (Table.get?_insert_self _ _ _) args _ limit)
  rw [hstaged]
  apply (Surplus.Mirrors.evalAll (Surplus.invokes_within budget) args hargs limit s u rfl
    hbeside).bind
  intro vs ws s' t' _ _ hvs hbeside'
  have hobject : t'.object s.objects.size = f := by
    rw [← hstart]
    exact hbeside'.object_spare (i := 0) (by rw [hp]; rfl)
  have hcall : Value.call (invokeWithin budget) (.object s.objects.size) .undefined ws limit t' =
      f.call (invokeWithin budget) .undefined ws limit t' := by
    rw [← hobject]
    rfl
  rw [hcall]
  exact Surplus.invokes_builtin budget b hvs limit s' t' rfl hbeside'

end Shapes

/-- Calling the function object of a builtin function takes one more nested call. -/
theorem ends_builtin {z : String} {b : Builtin} (hz : s.scope.get? z = none)
    (hb : Builtin.ofName? z = some b) (args : List Expr) {r : Except Stop Value × State} :
    Run.Ends (fun invoke => (call (.name z) args).eval invoke) limit s r ↔
      Run.Ends (fun invoke => do
        let vs ← evalAll invoke args
        invoke (.builtin b) .undefined vs) limit s r := by
  have heval : ∀ invoke, (call (.name z) args).eval invoke limit s =
      (evalAll invoke args >>= b.run invoke) limit s := fun invoke =>
    Run.bind_of_ok (Binding.find_of_none hz hb limit)
  have hends : Run.Ends (fun invoke => (call (.name z) args).eval invoke) limit s r ↔
      Run.Ends (fun invoke => evalAll invoke args >>= b.run invoke) limit s r := by
    simp only [Run.Ends, heval]
  rw [hends]
  have hargs := allWithin_of_reads (a := .all) (fun _ => trivial) args
  have hmore : ∀ budget, Invoker.Alike (fun x _ => x = .stop .exhausted) (invokeWithin budget)
      (invokeWithin (budget + 1)) := fun budget => .more (fun _ => rfl) budget 1
  apply Run.ends_iff
  · intro budget
    apply Run.Alike.bind (Rules.evalAll (hmore budget).covers args hargs)
    exact Laws.builtin (Invoker.Alike.within budget).covers.reduces b
  · intro budget
    apply Run.Alike.bind (Rules.evalAll (Invoker.Alike.within budget).covers args hargs)
    intro vs
    cases budget with
    | zero => exact .leaf rfl
    | succ budget => exact Laws.builtin (hmore budget).covers.reduces b vs

theorem ends_of_match {p : Surplus} (act act' : Invoker → Run Value)
    (h : ∀ budget, p.Match s.objects.size (fun _ => Eq) (act (invokeWithin budget) limit s)
      (act' (invokeWithin budget) limit s)) :
    (∀ outcome t, Run.Ends act limit s (outcome, t) →
      ∃ u, Run.Ends act' limit s (outcome, u) ∧ p.Beside t u) ∧
    (∀ outcome u, Run.Ends act' limit s (outcome, u) →
      ∃ t, Run.Ends act limit s (outcome, t) ∧ p.Beside t u) := by
  constructor
  · intro outcome t ⟨budget, hrun, hfinished⟩
    obtain ⟨houtcome, hbeside, -⟩ := h budget
    rcases hrun' : act' (invokeWithin budget) limit s with ⟨outcome', u⟩
    rw [hrun, hrun'] at houtcome hbeside
    cases houtcome.eq
    exact ⟨u, ⟨budget, hrun', hfinished⟩, hbeside⟩
  · intro outcome u ⟨budget, hrun, hfinished⟩
    obtain ⟨houtcome, hbeside, -⟩ := h budget
    rcases hrun' : act (invokeWithin budget) limit s with ⟨outcome', t⟩
    rw [hrun, hrun'] at houtcome hbeside
    cases houtcome.eq
    exact ⟨t, ⟨budget, hrun', hfinished⟩, hbeside⟩

/-- Evaluating an expression at once and in stages ends with the same outcome. The states are equal
but for the two variables, and for the function object of a builtin function that is called by its
name. A callee that is bound to a variable is called without a receiver. -/
theorem eval_staged {e : Expr} (hxy : x ≠ y) (he : e.Within (.hiding [x, y]))
    (hs : s.Within (.hiding [x, y])) (hwellFormed : s.WellFormed) (limit : Nat) :
    (∀ outcome t, Run.Ends (fun invoke => e.eval invoke) limit s (outcome, t) →
      ∃ u, Run.Ends (fun invoke => e.staged invoke x y) limit s (outcome, u) ∧
        (e.surplus x y s).Beside t u) ∧
    (∀ outcome u, Run.Ends (fun invoke => e.staged invoke x y) limit s (outcome, u) →
      ∃ t, Run.Ends (fun invoke => e.eval invoke) limit s (outcome, t) ∧
        (e.surplus x y s).Beside t u) ∧
    (∀ (f : Value) (args : List Expr) (u : State), u.scope.get? x = some f → ∀ invoke,
      (call (.name x) args).eval invoke limit u = (do
        let vs ← evalAll invoke args
        f.call invoke .undefined vs) limit u) := by
  have hcallee : ∀ (f : Value) (args : List Expr) (u : State), u.scope.get? x = some f →
      ∀ invoke, (call (.name x) args).eval invoke limit u = (do
        let vs ← evalAll invoke args
        f.call invoke .undefined vs) limit u :=
    fun f args u hbound invoke => eval_call_name hbound args invoke limit
  have hclosed : s.Closed (.hiding [x, y]) s.objects.size := hwellFormed.within hs
  cases hbuiltin : e.builtinCallee? s with
  | none =>
    obtain ⟨hends, hstaged⟩ := ends_of_match (fun invoke => e.eval invoke)
      (fun invoke => e.staged invoke x y) fun _ => staged_match hxy he hclosed hbuiltin
    exact ⟨hends, hstaged, hcallee⟩
  | some b =>
    obtain ⟨z, args, rfl, hz, hb⟩ := eq_call_of_builtinCallee? hbuiltin
    let p := surplus x y s (.call (.name z) args)
    have hp : p.objects = [.function (.builtin b)] := by simp [p, surplus, hbuiltin]
    have hx : ¬ p.allowance.reads x := by simp [p, surplus, Allowance.hiding]
    obtain ⟨hends, hstaged⟩ := ends_of_match
      (fun invoke => evalAll invoke args >>= invoke (.builtin b) .undefined)
      (fun invoke => (call (.name z) args).staged invoke x y)
      fun _ => stage_builtin hz hb hclosed rfl hp hx he.2
    simp only [ends_builtin hz hb]
    exact ⟨hends, hstaged, hcallee⟩

/-- The function object of `Number` is what evaluating in stages adds, and the method is called once
either way. -/
theorem eval_staged_builtin :
    let counted : Blueprint := .record "counted" "Object" [] none .inherited (.custom (.count 0))
    let session : Session := { definitions := [("o", counted)] }
    let s := (Session.define session.definitions session.limit {}).2
    let e : Expr := .call (.name "Number") [.name "o"]
    "x" ≠ "y" ∧ e.Within (.hiding ["x", "y"]) ∧ s.Within (.hiding ["x", "y"]) ∧ s.WellFormed ∧
      ∃ t u, Run.Ends (fun invoke => e.eval invoke) 1 s (.ok (.number (.ofNat 1)), t) ∧
        Run.Ends (fun invoke => e.staged invoke "x" "y") 1 s (.ok (.number (.ofNat 1)), u) ∧
          (e.surplus "x" "y" s).Beside t u ∧ t.calls.length = 1 ∧
            (e.surplus "x" "y" s).objects = [.function (.builtin .number)] := by
  intro counted session s e
  have hwithin : e.Within (.hiding ["x", "y"]) := by simp [e, Within, AllWithin, Allowance.hiding]
  have hs : s.Within (.hiding ["x", "y"]) := by
    intro ref
    cases ref with
    | zero => exact ⟨nofun, trivial, .count⟩
    | succ ref => trivial
  have hwellFormed : s.WellFormed := session.run_wellFormed.1
  have hrun : (e.eval (invokeWithin 2) 1 s).1 = .ok (.number (.ofNat 1)) := rfl
  have hends : Run.Ends (fun invoke => e.eval invoke) 1 s (e.eval (invokeWithin 2) 1 s) :=
    ⟨2, rfl, by rw [hrun]; simp⟩
  obtain ⟨u, hstaged, hbeside⟩ := (eval_staged (by decide) hwithin hs hwellFormed 1).1 _ _ hends
  exact ⟨by decide, hwithin, hs, hwellFormed, _, u, hends, hstaged, hbeside, rfl, rfl⟩

end Expr

end Coercive
