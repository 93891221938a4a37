import Coercive.Proofs.Plain

namespace Coercive

namespace Primitive

/-- Whether two primitives are equal with conversion, said by their types. -/
structure EqualityRule (p q : Primitive) (b : Bool) : Prop where
  /-- Primitives of one type are equal as they are without conversion. -/
  sameType : p.typeName = q.typeName → b = p.equal q
  /-- Undefined and null are equal to each other and to nothing else. -/
  nullish : p.isNullish = true ∨ q.isNullish = true →
    (b = true ↔ p.isNullish = true ∧ q.isNullish = true)
  /-- A symbol is equal only to itself. -/
  symbol : p.IsSymbol ∨ q.IsSymbol →
    (b = true ↔ ∃ s t, p = .symbol s ∧ q = .symbol t ∧ s.identity = t.identity)
  /-- All else is equal if it converts to the same number, which is not NaN. -/
  mixed : p.typeName ≠ q.typeName → p.isNullish = false → q.isNullish = false →
    ¬ p.IsSymbol → ¬ q.IsSymbol →
    ∃ m n, p.toNumber = .ok m ∧ q.toNumber = .ok n ∧
      (b = true ↔ ∃ x, m.position? = some x ∧ n.position? = some x)

theorem looselyEqual_bool (a b : Bool) : looselyEqual (.bool a) (.bool b) = .ok (a == b) := by
  have hone : Number.one.equal .one = true := Number.equal_iff.2 ⟨_, rfl, rfl⟩
  have hzero : Number.zero.equal .zero = true := rfl
  have hne : Number.one.equal .zero = false := by decide +kernel
  cases a <;> cases b
  · exact congrArg Except.ok hzero
  · exact congrArg Except.ok ((Number.equal_comm _ _).trans hne)
  · exact congrArg Except.ok hne
  · exact congrArg Except.ok hone

theorem looselyEqual_of_typeName {p q : Primitive} (h : p.typeName = q.typeName) :
    p.looselyEqual q = .ok (p.equal q) := by
  cases p with
  | bool a =>
    cases q with
    | bool b => exact looselyEqual_bool a b
    | undefined | null | number | string | symbol => exact absurd h (by simp [typeName])
  | undefined | null | number | string | symbol =>
    cases q <;> first | rfl | exact absurd h (by simp [typeName])

theorem looselyEqual_of_isNullish {p q : Primitive}
    (h : p.isNullish = true ∨ q.isNullish = true) :
    p.looselyEqual q = .ok (p.isNullish && q.isNullish) := by
  cases p <;> cases q <;> first | rfl | exact absurd h (by simp [isNullish])

theorem exists_of_isSymbol {p : Primitive} (h : p.IsSymbol) : ∃ s, p = .symbol s := by
  cases p with
  | symbol s => exact ⟨s, rfl⟩
  | undefined | null | bool | number | string => exact h.elim

theorem looselyEqual_of_isSymbol {p q : Primitive} (h : p.IsSymbol ∨ q.IsSymbol) :
    p.looselyEqual q = .ok (p.equal q) := by
  rcases h with h | h
  · obtain ⟨s, rfl⟩ := exists_of_isSymbol h
    cases q <;> rfl
  · obtain ⟨t, rfl⟩ := exists_of_isSymbol h
    cases p <;> rfl

theorem equal_symbol_iff {p q : Primitive} (h : p.IsSymbol ∨ q.IsSymbol) :
    p.equal q = true ↔ ∃ s t, p = .symbol s ∧ q = .symbol t ∧ s.identity = t.identity := by
  constructor
  · intro hequal
    rcases h with h | h
    · obtain ⟨s, rfl⟩ := exists_of_isSymbol h
      cases q with
      | symbol t => exact ⟨s, t, rfl, rfl, by simpa [equal] using hequal⟩
      | undefined | null | bool | number | string => cases hequal
    · obtain ⟨t, rfl⟩ := exists_of_isSymbol h
      cases p with
      | symbol s => exact ⟨s, t, rfl, rfl, by simpa [equal] using hequal⟩
      | undefined | null | bool | number | string => cases hequal
  · rintro ⟨s, t, rfl, rfl, hidentity⟩
    simpa [equal] using hidentity

theorem looselyEqual_of_toNumber {p q : Primitive} (htype : p.typeName ≠ q.typeName)
    (hp : p.isNullish = false) (hq : q.isNullish = false) {m n : Number} (hm : p.toNumber = .ok m)
    (hn : q.toNumber = .ok n) : p.looselyEqual q = .ok (m.equal n) := by
  have hcompared : p.looselyEqual q = (do return (← p.toNumber).equal (← q.toNumber)) := by
    cases p with
    | undefined | null => cases hp
    | symbol s => cases hm
    | bool | number | string =>
      cases q with
      | undefined | null => cases hq
      | symbol t => cases hn
      | bool | number | string => first | rfl | exact absurd rfl htype
  rw [hcompared, hm, hn]
  rfl

def isLooselyEqual (p q : Primitive) : Bool :=
  match p.looselyEqual q with
  | .ok b => b
  | .error _ => false

theorem looselyEqual_eq (p q : Primitive) : p.looselyEqual q = .ok (p.isLooselyEqual q) := by
  obtain ⟨b, hb⟩ := p.looselyEqual_eq_ok q
  rw [isLooselyEqual, hb]

theorem isLooselyEqual_of {p q : Primitive} {b : Bool} (h : p.looselyEqual q = .ok b) :
    p.isLooselyEqual q = b := by
  rw [isLooselyEqual, h]

theorem isLooselyEqual_rule (p q : Primitive) : p.EqualityRule q (p.isLooselyEqual q) where
  sameType htype := isLooselyEqual_of (looselyEqual_of_typeName htype)
  nullish hnullish := by
    rw [isLooselyEqual_of (looselyEqual_of_isNullish hnullish), Bool.and_eq_true]
  symbol hsymbol := by
    rw [isLooselyEqual_of (looselyEqual_of_isSymbol hsymbol), equal_symbol_iff hsymbol]
  mixed htype hp hq hsp hsq := by
    obtain ⟨m, hm⟩ := toNumber_eq_ok hsp
    obtain ⟨n, hn⟩ := toNumber_eq_ok hsq
    refine ⟨m, n, hm, hn, ?_⟩
    rw [isLooselyEqual_of (looselyEqual_of_toNumber htype hp hq hm hn), Number.equal_iff]

theorem equal_comm (p q : Primitive) : p.equal q = q.equal p := by
  cases p <;> cases q <;> first | rfl | exact Number.equal_comm _ _ | exact Bool.beq_comm

theorem isLooselyEqual_comm (p q : Primitive) : p.isLooselyEqual q = q.isLooselyEqual p := by
  by_cases htype : p.typeName = q.typeName
  · rw [isLooselyEqual_of (looselyEqual_of_typeName htype),
      isLooselyEqual_of (looselyEqual_of_typeName htype.symm), equal_comm]
  by_cases hnullish : p.isNullish = true ∨ q.isNullish = true
  · rw [isLooselyEqual_of (looselyEqual_of_isNullish hnullish),
      isLooselyEqual_of (looselyEqual_of_isNullish hnullish.symm), Bool.and_comm]
  by_cases hsymbol : p.IsSymbol ∨ q.IsSymbol
  · rw [isLooselyEqual_of (looselyEqual_of_isSymbol hsymbol),
      isLooselyEqual_of (looselyEqual_of_isSymbol hsymbol.symm), equal_comm]
  rw [not_or, Bool.not_eq_true, Bool.not_eq_true] at hnullish
  rw [not_or] at hsymbol
  obtain ⟨hp, hq⟩ := hnullish
  obtain ⟨m, hm⟩ := toNumber_eq_ok hsymbol.1
  obtain ⟨n, hn⟩ := toNumber_eq_ok hsymbol.2
  rw [isLooselyEqual_of (looselyEqual_of_toNumber htype hp hq hm hn),
    isLooselyEqual_of (looselyEqual_of_toNumber (Ne.symm htype) hq hp hn hm), Number.equal_comm]

theorem isLooselyEqual_of_equal {p q : Primitive} (h : p.equal q = true) :
    p.isLooselyEqual q = true := by
  have htype : p.typeName = q.typeName := by
    cases p <;> cases q <;> first | rfl | cases h
  rw [isLooselyEqual_of (looselyEqual_of_typeName htype), h]

end Primitive

namespace Value

/-- How two values are compared. Two objects are equal if they are one object, and none is equal to
undefined or null. For any other primitive an object is reduced, on whichever side it stands. -/
def Compared (invoke : Invoker) (v w : Value) (act : Run Bool) : Prop :=
  match v, w with
  | .object a, .object b => act = pure (a == b)
  | .primitive p, .primitive q => act = pure (p.isLooselyEqual q)
  | .object _, .primitive p =>
    if p.isNullish then act = pure false
    else act = (·.isLooselyEqual p) <$> v.reduce invoke .default
  | .primitive p, .object _ =>
    if p.isNullish then act = pure false
    else act = (·.isLooselyEqual p) <$> w.reduce invoke .default

section

variable (invoke : Invoker)

theorem looselyEquals_primitives (p q : Primitive) :
    looselyEquals invoke (.primitive p) (.primitive q) = pure (p.isLooselyEqual q) := by
  rw [looselyEquals, p.looselyEqual_eq]
  rfl

theorem looselyEquals_left (ref : Nat) (p : Primitive) :
    looselyEquals invoke (.object ref) (.primitive p) =
      if p.isNullish then pure false
      else (·.isLooselyEqual p) <$> (Value.object ref).reduce invoke .default := by
  simp only [looselyEquals, Primitive.looselyEqual_eq]
  rfl

theorem looselyEquals_right (p : Primitive) (ref : Nat) :
    looselyEquals invoke (.primitive p) (.object ref) =
      if p.isNullish then pure false
      else (·.isLooselyEqual p) <$> (Value.object ref).reduce invoke .default := by
  simp only [looselyEquals, Primitive.looselyEqual_eq, p.isLooselyEqual_comm]
  rfl

theorem compared_looselyEquals (v w : Value) : v.Compared invoke w (v.looselyEquals invoke w) := by
  cases v with
  | object a =>
    cases w with
    | object b => rfl
    | primitive p =>
      rw [looselyEquals_left, Compared]
      split <;> rfl
  | primitive p =>
    cases w with
    | object b =>
      rw [looselyEquals_right, Compared]
      split <;> rfl
    | primitive q => exact looselyEquals_primitives invoke p q

theorem looselyEquals_comm (v w : Value) :
    v.looselyEquals invoke w = w.looselyEquals invoke v := by
  cases v with
  | object a =>
    cases w with
    | object b => exact congrArg pure Bool.beq_comm
    | primitive p => rw [looselyEquals_left, looselyEquals_right]
  | primitive p =>
    cases w with
    | object b => rw [looselyEquals_left, looselyEquals_right]
    | primitive q => rw [looselyEquals_primitives, looselyEquals_primitives, p.isLooselyEqual_comm]

theorem looselyEquals_of_equal {v w : Value} (h : v.equal w = true) :
    v.looselyEquals invoke w = pure true := by
  cases v with
  | object a =>
    cases w with
    | object b => exact congrArg pure h
    | primitive p => cases h
  | primitive p =>
    cases w with
    | object b => cases h
    | primitive q => rw [looselyEquals_primitives, Primitive.isLooselyEqual_of_equal h]

end

def negated : Value → Value
  | .primitive (.bool b) => .primitive (.bool !b)
  | v => v

end Value

theorem Expr.eval_ne (invoke : Invoker) (l r : Expr) :
    (Expr.binary .ne l r).eval invoke = Value.negated <$> (Expr.binary .eq l r).eval invoke := by
  simp only [eval, map_bind, Operator.apply, Functor.map_map]
  rfl

/-- Equality with conversion is symmetric with all its effects, holds of values that are equal
without conversion, and compares as `Value.Compared` and `Primitive.EqualityRule` say. Inequality
has the effects of equality and the opposite answer. -/
theorem looselyEquals_relation (invoke : Invoker) (v w : Value) :
    v.looselyEquals invoke w = w.looselyEquals invoke v ∧
      (v.equal w = true → v.looselyEquals invoke w = pure true) ∧
      v.Compared invoke w (v.looselyEquals invoke w) ∧
      (∀ p q : Primitive, p.EqualityRule q (p.isLooselyEqual q)) ∧
      ∀ l r : Expr,
        (Expr.binary .ne l r).eval invoke = Value.negated <$> (Expr.binary .eq l r).eval invoke :=
  ⟨v.looselyEquals_comm invoke w, Value.looselyEquals_of_equal invoke,
    v.compared_looselyEquals invoke w, Primitive.isLooselyEqual_rule, Expr.eval_ne invoke⟩

theorem looselyEquals_relation_zeros :
    let zero := Value.number .zero
    let negative := Value.number (.signed true .zero)
    zero.equal negative = true ∧ zero.looselyEquals (invokeWithin 0) negative = pure true := by
  intro zero negative
  have hequal : zero.equal negative = true := by rfl
  exact ⟨hequal, (looselyEquals_relation (invokeWithin 0) zero negative).2.1 hequal⟩

end Coercive
