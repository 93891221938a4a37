import Coercive.Proofs.Equality

namespace Coercive

namespace Relation

/-- The relation that holds from right to left where the given one holds from left to right. -/
def converse : Relation → Relation
  | .lt => .gt
  | .le => .ge
  | .gt => .lt
  | .ge => .le

@[simp] theorem holds_converse (r : Relation) (o : Ordering) :
    r.converse.holds o.swap = r.holds o := by
  cases r <;> cases o <;> rfl

/-- What a relation answers when two primitives stand in a given order, or in none. -/
def answer (r : Relation) (o : Option Ordering) : Bool := (o.map r.holds).getD false

theorem answer_converse (r : Relation) (o : Option Ordering) :
    r.converse.answer (o.map Ordering.swap) = r.answer o := by
  cases o with
  | none => rfl
  | some o => exact r.holds_converse o

theorem answer_lt {o : Option Ordering} : lt.answer o = true ↔ o = some .lt := by
  rcases o with _ | (_ | _ | _) <;> decide

theorem answer_le_and_ge {o : Option Ordering} :
    (le.answer o && ge.answer o) = true ↔ o = some .eq := by
  rcases o with _ | (_ | _ | _) <;> decide

end Relation

namespace Text

theorem bytes_inj {s t : String} (h : bytes s.toList = bytes t.toList) : s = t := by
  apply String.toByteArray_inj.1
  rw [← String.utf8Encode_toList, ← String.utf8Encode_toList]
  exact congrArg List.toByteArray h

theorem compareBytes_swap (s t : String) : (compareBytes s t).swap = compareBytes t s :=
  Std.OrientedOrd.eq_swap.symm

theorem compareBytes_eq_iff {s t : String} : compareBytes s t = .eq ↔ s = t := by
  rw [compareBytes, Std.compare_eq_iff_eq]
  exact ⟨bytes_inj, fun h => by rw [h]⟩

theorem compareBytes_lt_trans {s t u : String} (h : compareBytes s t = .lt)
    (h' : compareBytes t u = .lt) : compareBytes s u = .lt := by
  rw [compareBytes] at h h' ⊢
  exact Std.TransCmp.lt_trans h h'

end Text

namespace Number

theorem compare?_swap (m n : Number) : (m.compare? n).map Ordering.swap = n.compare? m := by
  rw [compare?, compare?]
  cases m.position? with
  | none => cases n.position? <;> rfl
  | some x =>
    cases n.position? with
    | none => rfl
    | some y => exact congrArg some Std.OrientedOrd.eq_swap.symm

theorem compare?_eq_none_iff {m n : Number} : m.compare? n = none ↔ m = .nan ∨ n = .nan := by
  cases m <;> cases n <;> simp [compare?, position?]

theorem equal_eq_true_iff {m n : Number} : m.equal n = true ↔ m.compare? n = some .eq := beq_iff_eq

theorem compare?_lt_trans {m n k : Number} (h : m.compare? n = some .lt)
    (h' : n.compare? k = some .lt) : m.compare? k = some .lt := by
  rw [compare?] at h h' ⊢
  cases hm : m.position? with
  | none => simp [hm] at h
  | some x =>
    cases hn : n.position? with
    | none => simp [hn] at h'
    | some y =>
      cases hk : k.position? with
      | none => simp [hk] at h'
      | some z =>
        rw [hm, hn] at h
        rw [hn, hk] at h'
        exact congrArg some (Std.TransCmp.lt_trans (Option.some.inj h) (Option.some.inj h'))

end Number

namespace Primitive

def Incomparable (p q : Primitive) : Prop :=
  ¬ (p.isString = true ∧ q.isString = true) ∧ (p.toNumber = .ok .nan ∨ q.toNumber = .ok .nan)

/-- How the answers of the four relations on two primitives go together. -/
structure OrderRule (p q : Primitive) (answer : Relation → Bool) : Prop where
  incomparable : p.Incomparable q → ∀ r, answer r = false
  /-- The first primitive is below the second, above it or at the same place. -/
  trichotomy : ¬ p.Incomparable q →
    [answer .lt, answer .gt, answer .le && answer .ge].count true = 1
  le : ¬ p.Incomparable q → answer .le = !answer .gt
  ge : ¬ p.Incomparable q → answer .ge = !answer .lt
  /-- Primitives at the same place are equal, undefined and null apart. -/
  equal : p.isNullish = false → q.isNullish = false →
    (answer .le && answer .ge) = p.isLooselyEqual q

theorem compare?_strings (s t : String) :
    compare? (.string s) (.string t) = .ok (some (Text.compareBytes s t)) := rfl

theorem compare?_numbers {p q : Primitive} (h : ¬ (p.isString = true ∧ q.isString = true)) :
    p.compare? q = (do return (← p.toNumber).compare? (← q.toNumber)) := by
  cases p <;> cases q <;> first | rfl | exact absurd ⟨rfl, rfl⟩ h

theorem compare?_of_toNumber {p q : Primitive} (h : ¬ (p.isString = true ∧ q.isString = true))
    {m n : Number} (hm : p.toNumber = .ok m) (hn : q.toNumber = .ok n) :
    p.compare? q = .ok (m.compare? n) := by
  rw [compare?_numbers h, hm, hn]
  rfl

theorem toNumber_of_isSymbol {p : Primitive} (h : p.IsSymbol) :
    p.toNumber = .error .symbolToNumber := by
  obtain ⟨s, rfl⟩ := exists_of_isSymbol h
  rfl

theorem compare?_of_isSymbol {p q : Primitive} (h : p.IsSymbol ∨ q.IsSymbol) :
    p.compare? q = .error .symbolToNumber := by
  have hstrings : ¬ (p.isString = true ∧ q.isString = true) := by
    rintro ⟨hp, hq⟩
    rcases h with h | h <;> obtain ⟨s, rfl⟩ := exists_of_isSymbol h
    · cases hp
    · cases hq
  rw [compare?_numbers hstrings]
  by_cases hp : p.IsSymbol
  · rw [toNumber_of_isSymbol hp]
    rfl
  · obtain ⟨m, hm⟩ := toNumber_eq_ok hp
    rw [hm, toNumber_of_isSymbol (h.resolve_left hp)]
    rfl

theorem exists_of_isString {p : Primitive} (h : p.isString = true) : ∃ s, p = .string s := by
  cases p with
  | string s => exact ⟨s, rfl⟩
  | undefined | null | bool | number | symbol => cases h

theorem not_isSymbol_of_compare? {p q : Primitive} {o : Option Ordering}
    (h : p.compare? q = .ok o) : ¬ p.IsSymbol ∧ ¬ q.IsSymbol := by
  rw [← not_or]
  intro hsymbol
  rw [compare?_of_isSymbol hsymbol] at h
  cases h

/-- The two primitives are both strings, or both are compared by their numbers. -/
theorem strings_or_numbers {p q : Primitive} (hp : ¬ p.IsSymbol) (hq : ¬ q.IsSymbol) :
    (∃ s t, p = .string s ∧ q = .string t) ∨
      ¬ (p.isString = true ∧ q.isString = true) ∧
        ∃ m n, p.toNumber = .ok m ∧ q.toNumber = .ok n := by
  by_cases h : p.isString = true ∧ q.isString = true
  · obtain ⟨s, rfl⟩ := exists_of_isString h.1
    obtain ⟨t, rfl⟩ := exists_of_isString h.2
    exact .inl ⟨s, t, rfl, rfl⟩
  · obtain ⟨m, hm⟩ := toNumber_eq_ok hp
    obtain ⟨n, hn⟩ := toNumber_eq_ok hq
    exact .inr ⟨h, m, n, hm, hn⟩

theorem exists_compare? {p q : Primitive} (hp : ¬ p.IsSymbol) (hq : ¬ q.IsSymbol) :
    ∃ o, p.compare? q = .ok o := by
  rcases strings_or_numbers hp hq with ⟨s, t, rfl, rfl⟩ | ⟨h, m, n, hm, hn⟩
  · exact ⟨_, compare?_strings s t⟩
  · exact ⟨_, compare?_of_toNumber h hm hn⟩

/-- The order turns around with its operands, and so do its failures. -/
theorem compare?_swap (p q : Primitive) :
    q.compare? p = (p.compare? q).map (Option.map Ordering.swap) := by
  by_cases h : p.IsSymbol ∨ q.IsSymbol
  · rw [compare?_of_isSymbol h, compare?_of_isSymbol h.symm]
    rfl
  · rw [not_or] at h
    rcases strings_or_numbers h.1 h.2 with ⟨s, t, rfl, rfl⟩ | ⟨hstrings, m, n, hm, hn⟩
    · rw [compare?_strings, compare?_strings, ← Text.compareBytes_swap]
      rfl
    · rw [compare?_of_toNumber hstrings hm hn,
        compare?_of_toNumber (fun h => hstrings h.symm) hn hm, ← Number.compare?_swap]
      rfl

theorem compare?_eq_none_iff {p q : Primitive} (hp : ¬ p.IsSymbol) (hq : ¬ q.IsSymbol) :
    p.compare? q = .ok none ↔ p.Incomparable q := by
  rcases strings_or_numbers hp hq with ⟨s, t, rfl, rfl⟩ | ⟨h, m, n, hm, hn⟩
  · simp [compare?_strings, Incomparable, isString]
  · simp [compare?_of_toNumber h hm hn, Incomparable, h, hm, hn, Number.compare?_eq_none_iff]

theorem compare?_eq_iff {p q : Primitive} (hp : ¬ p.IsSymbol) (hq : ¬ q.IsSymbol)
    (hp' : p.isNullish = false) (hq' : q.isNullish = false) :
    p.compare? q = .ok (some .eq) ↔ p.isLooselyEqual q = true := by
  rcases strings_or_numbers hp hq with ⟨s, t, rfl, rfl⟩ | ⟨h, m, n, hm, hn⟩
  · simp [compare?_strings, isLooselyEqual, looselyEqual, Text.compareBytes_eq_iff]
  · have hequal : p.looselyEqual q = (do return (← p.toNumber).equal (← q.toNumber)) := by
      cases p with
      | undefined | null => cases hp'
      | symbol s => cases hm
      | bool | number | string =>
        cases q with
        | undefined | null => cases hq'
        | symbol t => cases hn
        | bool | number | string => first | rfl | exact absurd ⟨rfl, rfl⟩ h
    rw [hm, hn] at hequal
    rw [isLooselyEqual_of hequal, Number.equal_eq_true_iff, compare?_of_toNumber h hm hn,
      Except.ok.injEq]

theorem compare?_lt_trans {p q u : Primitive}
    (h : (p.isString = true ∧ q.isString = true ∧ u.isString = true) ∨
      (p.isString = false ∧ q.isString = false ∧ u.isString = false))
    (hpq : p.compare? q = .ok (some .lt)) (hqu : q.compare? u = .ok (some .lt)) :
    p.compare? u = .ok (some .lt) := by
  obtain ⟨hp, hq⟩ := not_isSymbol_of_compare? hpq
  obtain ⟨-, hu⟩ := not_isSymbol_of_compare? hqu
  rcases h with ⟨hsp, hsq, hsu⟩ | ⟨hsp, hsq, hsu⟩
  · obtain ⟨s, rfl⟩ := exists_of_isString hsp
    obtain ⟨t, rfl⟩ := exists_of_isString hsq
    obtain ⟨v, rfl⟩ := exists_of_isString hsu
    simp only [compare?_strings, Except.ok.injEq, Option.some.injEq] at hpq hqu ⊢
    exact Text.compareBytes_lt_trans hpq hqu
  · obtain ⟨m, hm⟩ := toNumber_eq_ok hp
    obtain ⟨n, hn⟩ := toNumber_eq_ok hq
    obtain ⟨k, hk⟩ := toNumber_eq_ok hu
    rw [compare?_of_toNumber (by simp [hsp]) hm hn, Except.ok.injEq] at hpq
    rw [compare?_of_toNumber (by simp [hsq]) hn hk, Except.ok.injEq] at hqu
    rw [compare?_of_toNumber (by simp [hsp]) hm hk, Number.compare?_lt_trans hpq hqu]

theorem related_eq (r : Relation) (p q : Primitive) :
    p.related r q = (p.compare? q).map r.answer := by
  rw [related]
  cases p.compare? q <;> rfl

theorem related_converse (r : Relation) (p q : Primitive) :
    q.related r.converse p = p.related r q := by
  rw [related_eq, related_eq, compare?_swap p q]
  cases p.compare? q with
  | error m => rfl
  | ok o => exact congrArg Except.ok (r.answer_converse o)

theorem orderRule {p q : Primitive} (hp : ¬ p.IsSymbol) (hq : ¬ q.IsSymbol) {o : Option Ordering}
    (h : p.compare? q = .ok o) : p.OrderRule q fun r => r.answer o := by
  have hnone : p.Incomparable q ↔ o = none := by
    rw [← compare?_eq_none_iff hp hq, h, Except.ok.injEq]
  have hsome : ¬ p.Incomparable q → ∃ c, o = some c := fun hcomparable =>
    Option.ne_none_iff_exists'.1 (mt hnone.2 hcomparable)
  constructor
  · intro hincomparable r
    rw [hnone.1 hincomparable]
    rfl
  · intro hcomparable
    obtain ⟨c, rfl⟩ := hsome hcomparable
    cases c <;> rfl
  · intro hcomparable
    obtain ⟨c, rfl⟩ := hsome hcomparable
    cases c <;> rfl
  · intro hcomparable
    obtain ⟨c, rfl⟩ := hsome hcomparable
    cases c <;> rfl
  · intro hp' hq'
    rw [Bool.eq_iff_iff, Relation.answer_le_and_ge, ← compare?_eq_iff hp hq hp' hq', h,
      Except.ok.injEq]

end Primitive

namespace Value

variable (invoke : Invoker)

theorem relate_primitives (r : Relation) (p q : Primitive) :
    relate invoke r (.primitive p) (.primitive q) = Run.ofMismatch (p.related r q) := by
  simp only [relate, reduce, pure_bind]

theorem relate_lt_iff {p q : Primitive} :
    relate invoke .lt (.primitive p) (.primitive q) = pure true ↔
      p.compare? q = .ok (some .lt) := by
  rw [relate_primitives, Primitive.related_eq]
  constructor
  · intro h
    have hrun := congrFun (congrFun h 0) {}
    cases hc : p.compare? q with
    | error m =>
      rw [hc] at hrun
      cases hrun
    | ok o =>
      rw [hc] at hrun
      have hanswer : Relation.lt.answer o = true := Except.ok.inj (Prod.mk.inj hrun).1
      rw [Relation.answer_lt.1 hanswer]
  · intro h
    rw [h]
    rfl

end Value

/-- A relation on two primitives is its converse on the same two in the other order, also where it
fails. On primitives that are no symbols the relations answer as one order does, which
`Primitive.OrderRule` says. To be less is transitive among strings and among all others. -/
theorem relate_consistent (invoke : Invoker) :
    (∀ (p q : Primitive) (r : Relation),
      Value.relate invoke r (.primitive p) (.primitive q) =
        Value.relate invoke r.converse (.primitive q) (.primitive p)) ∧
    (∀ p q : Primitive, ¬ p.IsSymbol → ¬ q.IsSymbol → ∃ answer : Relation → Bool,
      (∀ r, Value.relate invoke r (.primitive p) (.primitive q) = pure (answer r)) ∧
      Value.looselyEquals invoke (.primitive p) (.primitive q) = pure (p.isLooselyEqual q) ∧
      p.OrderRule q answer) ∧
    (∀ p q u : Primitive,
      (p.isString = true ∧ q.isString = true ∧ u.isString = true) ∨
        (p.isString = false ∧ q.isString = false ∧ u.isString = false) →
      Value.relate invoke .lt (.primitive p) (.primitive q) = pure true →
      Value.relate invoke .lt (.primitive q) (.primitive u) = pure true →
      Value.relate invoke .lt (.primitive p) (.primitive u) = pure true) := by
  refine ⟨fun p q r => ?_, fun p q hp hq => ?_, fun p q u h hpq hqu => ?_⟩
  · rw [Value.relate_primitives, Value.relate_primitives, Primitive.related_converse]
  · obtain ⟨o, ho⟩ := Primitive.exists_compare? hp hq
    refine ⟨fun r => r.answer o, fun r => ?_, Value.looselyEquals_primitives invoke p q,
      Primitive.orderRule hp hq ho⟩
    rw [Value.relate_primitives, Primitive.related_eq, ho]
    rfl
  · rw [Value.relate_lt_iff] at hpq hqu ⊢
    exact Primitive.compare?_lt_trans h hpq hqu

/-- The string `"10"` is below `"2"` and that below `"9"`, but against a number it stands for
ten. -/
theorem relate_consistent_mixed :
    let less (p q : Primitive) := Value.relate (invokeWithin 0) .lt (.primitive p) (.primitive q)
    let nine : Primitive := .number (.ofNat 9)
    (¬ (Primitive.string "10").IsSymbol ∧ ¬ nine.IsSymbol ∧
      less (.string "10") nine = pure false ∧
      ∃ answer, answer .lt = false ∧ (Primitive.string "10").OrderRule nine answer) ∧
    less (.string "10") (.string "2") = pure true ∧
    less (.string "2") (.string "9") = pure true ∧
    less (.string "10") (.string "9") = pure true := by
  intro less nine
  obtain ⟨-, hrule, htrans⟩ := relate_consistent (invokeWithin 0)
  have habove : (Number.ofText "10").compare? (.ofNat 9) = some .gt := by decide +kernel
  have hnine : (Primitive.string "10").related .lt nine = .ok false := by
    rw [Primitive.related_eq, Primitive.compare?_of_toNumber (by decide) rfl rfl, habove]
    rfl
  have hless : less (.string "10") nine = pure false := by
    simp only [less, Value.relate_primitives, hnine]
    rfl
  have hten : less (.string "10") (.string "2") = pure true := (Value.relate_lt_iff _).2 rfl
  have htwo : less (.string "2") (.string "9") = pure true := (Value.relate_lt_iff _).2 rfl
  obtain ⟨answer, hanswer, -, horder⟩ := hrule (.string "10") nine id id
  have hlt : answer .lt = false := by
    have hrun := congrFun (congrFun ((hanswer .lt).symm.trans hless) 0) {}
    exact Except.ok.inj (Prod.mk.inj hrun).1
  exact ⟨⟨id, id, hless, answer, hlt, horder⟩, hten, htwo,
    htrans _ _ _ (.inl ⟨rfl, rfl, rfl⟩) hten htwo⟩

end Coercive
