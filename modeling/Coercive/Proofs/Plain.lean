import Coercive.Proofs.Likeness

namespace Coercive

namespace Primitive

def IsSymbol : Primitive → Prop
  | .symbol _ => True
  | _ => False

theorem toNumber_eq_ok {p : Primitive} (h : ¬ p.IsSymbol) : ∃ n, p.toNumber = .ok n := by
  cases p with
  | symbol s => exact absurd trivial h
  | undefined | null | bool b | number n | string s => exact ⟨_, rfl⟩

theorem toText_eq_ok {p : Primitive} (h : ¬ p.IsSymbol) : p.toText = .ok p.display := by
  cases p with
  | symbol s => exact absurd trivial h
  | undefined | null | bool b | number n | string s => rfl

theorem not_isSymbol_of_typeName {p : Primitive} (h : p.typeName ≠ "symbol") : ¬ p.IsSymbol := by
  cases p with
  | symbol s => exact absurd rfl h
  | undefined | null | bool b | number n | string s => exact id

theorem add_eq_ok {p q : Primitive} (hp : ¬ p.IsSymbol) (hq : ¬ q.IsSymbol) :
    ∃ r, p.add q = .ok r ∧
      r.typeName = if p.isString || q.isString then "string" else "number" := by
  obtain ⟨m, hm⟩ := toNumber_eq_ok hp
  obtain ⟨n, hn⟩ := toNumber_eq_ok hq
  rw [add, toText_eq_ok hp, toText_eq_ok hq, hm, hn]
  split
  · exact ⟨_, rfl, rfl⟩
  · exact ⟨_, rfl, rfl⟩

theorem related_eq_ok (r : Relation) {p q : Primitive} (hp : ¬ p.IsSymbol) (hq : ¬ q.IsSymbol) :
    ∃ b, p.related r q = .ok b := by
  obtain ⟨m, hm⟩ := toNumber_eq_ok hp
  obtain ⟨n, hn⟩ := toNumber_eq_ok hq
  rw [related]
  unfold compare?
  split
  · exact ⟨_, rfl⟩
  · rw [hm, hn]
    exact ⟨_, rfl⟩

theorem looselyEqual_eq_ok (p q : Primitive) : ∃ b, p.looselyEqual q = .ok b := by
  cases p <;> cases q <;> exact ⟨_, rfl⟩

end Primitive

def Operator.resultType (op : Operator) (p q : Primitive) : String :=
  match op with
  | .eq | .ne | .relation _ => "boolean"
  | .add => if p.isString || q.isString then "string" else "number"
  | .arithmetic _ => "number"

def Builtin.resultType : Builtin → String
  | .number => "number"
  | .string => "string"

theorem Operator.resultType_ne_symbol (op : Operator) (p q : Primitive) :
    op.resultType p q ≠ "symbol" := by
  cases op with
  | add => cases hs : p.isString || q.isString <;> simp [resultType, hs]
  | eq | ne | relation r | arithmetic a => simp [resultType]

theorem Operator.apply_plain (op : Operator) {p q : Primitive} (hp : ¬ p.IsSymbol)
    (hq : ¬ q.IsSymbol) :
    ∃ r, r.typeName = op.resultType p q ∧
      ∀ invoke, op.apply invoke (.primitive p) (.primitive q) = pure r := by
  cases op with
  | eq =>
    obtain ⟨b, hb⟩ := p.looselyEqual_eq_ok q
    refine ⟨.bool b, rfl, fun invoke => ?_⟩
    simp only [apply, Value.looselyEquals, hb, Run.ofMismatch, map_pure]
  | ne =>
    obtain ⟨b, hb⟩ := p.looselyEqual_eq_ok q
    refine ⟨.bool !b, rfl, fun invoke => ?_⟩
    simp only [apply, Value.looselyEquals, hb, Run.ofMismatch, map_pure]
  | relation r =>
    obtain ⟨b, hb⟩ := Primitive.related_eq_ok r hp hq
    refine ⟨.bool b, rfl, fun invoke => ?_⟩
    simp only [apply, Value.relate, Value.reduce, pure_bind, hb, Run.ofMismatch, map_pure]
  | add =>
    obtain ⟨r, hr, htype⟩ := Primitive.add_eq_ok hp hq
    refine ⟨r, htype, fun invoke => ?_⟩
    simp only [apply, Value.add, Value.reduce, pure_bind, hr, Run.ofMismatch]
  | arithmetic a =>
    obtain ⟨m, hm⟩ := Primitive.toNumber_eq_ok hp
    obtain ⟨n, hn⟩ := Primitive.toNumber_eq_ok hq
    refine ⟨.number (a.apply m n), rfl, fun invoke => ?_⟩
    simp only [apply, Value.arithmetic, Value.toNumber, Value.reduce, pure_bind, hm, hn,
      Run.ofMismatch]

theorem Sign.cast_plain (sign : Sign) {p : Primitive} (hp : ¬ p.IsSymbol) :
    ∃ n, ∀ invoke, sign.cast.apply invoke (.primitive p) = pure (.number n) := by
  obtain ⟨n, hn⟩ := Primitive.toNumber_eq_ok hp
  cases sign with
  | plus =>
    refine ⟨n, fun invoke => ?_⟩
    simp only [cast, Cast.apply, Value.toNumber, Value.reduce, pure_bind, hn, Run.ofMismatch,
      map_pure]
  | minus =>
    refine ⟨n.neg, fun invoke => ?_⟩
    simp only [cast, Cast.apply, Value.toNumber, Value.reduce, pure_bind, hn, Run.ofMismatch,
      map_pure]

theorem Builtin.run_plain (b : Builtin) {ps : List Primitive} (hps : ∀ p ∈ ps, ¬ p.IsSymbol) :
    ∃ r, r.typeName = b.resultType ∧
      ∀ invoke, b.run invoke (ps.map .primitive) = pure (.primitive r) := by
  cases ps with
  | nil =>
    cases b with
    | number => exact ⟨.number .zero, rfl, fun _ => rfl⟩
    | string => exact ⟨.string "", rfl, fun _ => rfl⟩
  | cons p ps =>
    have hp := hps p (.head _)
    cases b with
    | number =>
      obtain ⟨n, hn⟩ := Primitive.toNumber_eq_ok hp
      refine ⟨.number n, rfl, fun invoke => ?_⟩
      simp only [List.map_cons, run, Cast.apply, Value.toNumber, Value.reduce, pure_bind, hn,
        Run.ofMismatch, map_pure]
    | string =>
      refine ⟨.string p.display, rfl, fun invoke => ?_⟩
      simp only [List.map_cons, run, Cast.apply, Value.showText, Value.reduce, pure_bind]
      cases p with
      | symbol s => exact absurd trivial hp
      | undefined | null | bool b | number n | string s => rfl

namespace Expr

/-- An expression of literals, variables, operators and calls of the builtin functions, in which no
literal is a symbol and, in the given state, no variable is one. -/
inductive Plain (s : State) : Expr → Prop
  | literal {p : Primitive} (hp : ¬ p.IsSymbol) : Plain s (.literal p)
  | name {x : String} {p : Primitive} (hx : s.scope.get? x = some (.primitive p))
      (hp : ¬ p.IsSymbol) : Plain s (.name x)
  | unary (sign : Sign) {e : Expr} (he : Plain s e) : Plain s (.unary sign e)
  | binary (op : Operator) {l r : Expr} (hl : Plain s l) (hr : Plain s r) : Plain s (.binary op l r)
  | call {x : String} {b : Builtin} {args : List Expr} (hb : Builtin.ofName? x = some b)
      (hx : s.scope.get? x = none) (hargs : ∀ a ∈ args, Plain s a) : Plain s (.call (.name x) args)

/-- However methods run and whatever the limit is, evaluation gives the primitive and leaves the
state as it is. -/
def Yields (s : State) (e : Expr) (p : Primitive) : Prop :=
  ∀ invoke limit, e.eval invoke limit s = (.ok (.primitive p), s)

/-- The type of a value is the one that the outermost operation makes. -/
def ResultType (s : State) : Expr → Primitive → Prop
  | .unary _ _, p => p.typeName = "number"
  | .binary op l r, p =>
    ∃ q q', l.Yields s q ∧ r.Yields s q' ∧ p.typeName = op.resultType q q'
  | .call (.name x) _, p => ∀ b, Builtin.ofName? x = some b → p.typeName = b.resultType
  | _, _ => True

theorem evalAll_of_yields {s : State} {es : List Expr}
    (h : ∀ e ∈ es, ∃ p, ¬ p.IsSymbol ∧ e.Yields s p) :
    ∃ ps : List Primitive, (∀ p ∈ ps, ¬ p.IsSymbol) ∧
      ∀ invoke limit, evalAll invoke es limit s = (.ok (ps.map .primitive), s) := by
  induction es with
  | nil => exact ⟨[], by simp, fun _ _ => rfl⟩
  | cons e es ih =>
    obtain ⟨p, hp, he⟩ := h e (.head _)
    obtain ⟨ps, hps, hes⟩ := ih fun e' he' => h e' (.tail _ he')
    refine ⟨p :: ps, List.forall_mem_cons.2 ⟨hp, hps⟩, fun invoke limit => ?_⟩
    rw [evalAll, Run.bind_of_ok (he invoke limit), Run.bind_of_ok (hes invoke limit)]
    rfl

/-- Evaluation of a plain expression succeeds with a primitive of the type that it must have. -/
theorem eval_plain {s : State} {e : Expr} (h : e.Plain s) :
    ∃ p : Primitive, ¬ p.IsSymbol ∧ e.Yields s p ∧ e.ResultType s p := by
  induction h with
  | @literal p hp => exact ⟨p, hp, fun _ _ => rfl, trivial⟩
  | @name x p hx hp =>
    refine ⟨p, hp, fun invoke limit => ?_, trivial⟩
    rw [eval, Run.bind_of_ok (Binding.find_of_some hx limit)]
    rfl
  | @unary sign e _ ih =>
    obtain ⟨p, hp, he, -⟩ := ih
    obtain ⟨n, hn⟩ := sign.cast_plain hp
    refine ⟨.number n, id, fun invoke limit => ?_, rfl⟩
    rw [eval, Run.bind_of_ok (he invoke limit), hn, map_pure]
    rfl
  | @binary op l r _ _ ihl ihr =>
    obtain ⟨p, hp, hl, -⟩ := ihl
    obtain ⟨q, hq, hr, -⟩ := ihr
    obtain ⟨v, htype, hv⟩ := op.apply_plain hp hq
    refine ⟨v, ?_, fun invoke limit => ?_, p, q, hl, hr, htype⟩
    · exact Primitive.not_isSymbol_of_typeName (htype ▸ op.resultType_ne_symbol p q)
    · rw [eval, Run.bind_of_ok (hl invoke limit), Run.bind_of_ok (hr invoke limit), hv, map_pure]
      rfl
  | @call x b args hb hx _ ih =>
    obtain ⟨ps, hps, hargs⟩ := evalAll_of_yields fun a ha => by
      obtain ⟨p, hp, hyields, -⟩ := ih a ha
      exact ⟨p, hp, hyields⟩
    obtain ⟨v, htype, hv⟩ := b.run_plain hps
    refine ⟨v, ?_, fun invoke limit => ?_, fun b' hb' => ?_⟩
    · apply Primitive.not_isSymbol_of_typeName
      rw [htype]
      cases b <;> decide
    · rw [eval, Run.bind_of_ok (Binding.find_of_none hx hb limit),
        Run.bind_of_ok (hargs invoke limit), Binding.call, hv]
      rfl
    · rw [hb] at hb'
      cases hb'
      exact htype

theorem eval_plain_joined :
    let s : State := { scope := [("x", .primitive (.bool true))] }
    let e : Expr := .binary .add (.name "x") (.call (.name "String") [.literal .null])
    e.Plain s ∧ ∃ p : Primitive, p = .string "truenull" ∧ ¬ p.IsSymbol ∧ e.Yields s p ∧
      e.ResultType s p := by
  intro s e
  have hplain : e.Plain s := by
    refine .binary .add (.name rfl id) (.call rfl rfl fun a ha => ?_)
    rw [List.mem_singleton.1 ha]
    exact .literal id
  obtain ⟨p, hp, hyields, htype⟩ := eval_plain hplain
  have hrun : (e.eval (invokeWithin 0) 0 s).1 = .ok (.string "truenull") := by cbv
  rw [hyields] at hrun
  cases hrun
  exact ⟨hplain, _, rfl, hp, hyields, htype⟩

end Expr

end Coercive
