import Coercive.Proofs.Interpolation
import Coercive.Proofs.Order

namespace Coercive

variable {α : Type}

/-- One reduction of a value: how it ends, the calls that it makes, and the state that it leaves.
They are the calls that it makes from an empty log, and they come behind those made before. -/
structure Value.Reduced (invoke : Invoker) (limit : Nat) (hint : Hint) (v : Value) (s : State)
    (outcome : Except Stop Primitive) (log : List Call) (t : State) : Prop where
  run : v.reduce invoke hint limit s = (outcome, t)
  alone : (v.reduce invoke hint limit { s with trace := [] }).2.calls = log
  calls : t.calls = s.calls ++ log

/-- What an operator does that reduces its operands under a hint and applies a rule to what it gets:
how it ends, the calls that it makes, and the state that it leaves. If it is `early`, it refuses a
left symbol before it touches the right operand. -/
inductive Course (invoke : Invoker) (limit : Nat) (hint : Hint) (early : Bool)
    (rule : Primitive → Primitive → Except Mismatch α) (v w : Value) (s : State) :
    Except Stop α → List Call → State → Prop
  /-- The left operand is not reduced, and the right one not touched. -/
  | left {e : Stop} {log : List Call} {t : State}
      (hleft : v.Reduced invoke limit hint s (.error e) log t) :
      Course invoke limit hint early rule v w s (.error e) log t
  | leftSymbol {p : Primitive} {log : List Call} {t : State} (hearly : early = true)
      (hleft : v.Reduced invoke limit hint s (.ok p) log t) (hp : p.IsSymbol) :
      Course invoke limit hint early rule v w s (.error (.failed (.mismatch .symbolToNumber))) log t
  /-- A failure of the right operand comes before the refusal of a left symbol. -/
  | right {p : Primitive} {e : Stop} {log log' : List Call} {t u : State}
      (hleft : v.Reduced invoke limit hint s (.ok p) log t) (hp : early = true → ¬ p.IsSymbol)
      (hright : w.Reduced invoke limit hint t (.error e) log' u) :
      Course invoke limit hint early rule v w s (.error e) (log ++ log') u
  | symbol {p q : Primitive} {m : Mismatch} {log log' : List Call} {t u : State}
      (hleft : v.Reduced invoke limit hint s (.ok p) log t) (hp : early = true → ¬ p.IsSymbol)
      (hright : w.Reduced invoke limit hint t (.ok q) log' u) (hsymbol : p.IsSymbol ∨ q.IsSymbol)
      (hrule : rule p q = .error m) :
      Course invoke limit hint early rule v w s (.error (.failed (.mismatch m))) (log ++ log') u
  | answer {p q : Primitive} {a : α} {log log' : List Call} {t u : State}
      (hleft : v.Reduced invoke limit hint s (.ok p) log t)
      (hright : w.Reduced invoke limit hint t (.ok q) log' u) (hp : ¬ p.IsSymbol)
      (hq : ¬ q.IsSymbol) (hrule : rule p q = .ok a) :
      Course invoke limit hint early rule v w s (.ok a) (log ++ log') u

namespace Primitive

def calculate (a : Arithmetic) (p q : Primitive) : Except Mismatch Primitive := do
  let m ← p.toNumber
  let n ← q.toNumber
  return .number (a.apply m n)

/-- The rule refuses symbols and nothing else. -/
structure RefusesSymbols (rule : Primitive → Primitive → Except Mismatch α) : Prop where
  refuses : ∀ {p q}, p.IsSymbol ∨ q.IsSymbol → ∃ m, rule p q = .error m
  answers : ∀ {p q}, ¬ p.IsSymbol → ¬ q.IsSymbol → ∃ a, rule p q = .ok a

theorem toText_of_isSymbol {p : Primitive} (h : p.IsSymbol) :
    p.toText = .error .symbolToString := by
  obtain ⟨s, rfl⟩ := exists_of_isSymbol h
  rfl

theorem add_refusesSymbols : RefusesSymbols add where
  refuses := by
    intro p q h
    rw [add]
    by_cases hp : p.IsSymbol
    · rw [toText_of_isSymbol hp, toNumber_of_isSymbol hp]
      split
      · exact ⟨_, rfl⟩
      · exact ⟨_, rfl⟩
    · have hq := h.resolve_left hp
      obtain ⟨m, hm⟩ := toNumber_eq_ok hp
      rw [toText_eq_ok hp, hm, toText_of_isSymbol hq, toNumber_of_isSymbol hq]
      split
      · exact ⟨_, rfl⟩
      · exact ⟨_, rfl⟩
  answers hp hq := by
    obtain ⟨r, hr, -⟩ := add_eq_ok hp hq
    exact ⟨r, hr⟩

theorem related_refusesSymbols (r : Relation) : RefusesSymbols (related r) where
  refuses h := ⟨_, by rw [related_eq, compare?_of_isSymbol h]; rfl⟩
  answers := related_eq_ok r

theorem calculate_refusesSymbols (a : Arithmetic) : RefusesSymbols (calculate a) where
  refuses := by
    intro p q h
    rw [calculate]
    by_cases hp : p.IsSymbol
    · exact ⟨_, by rw [toNumber_of_isSymbol hp]; rfl⟩
    · obtain ⟨m, hm⟩ := toNumber_eq_ok hp
      exact ⟨_, by rw [hm, toNumber_of_isSymbol (h.resolve_left hp)]; rfl⟩
  answers := by
    intro p q hp hq
    obtain ⟨m, hm⟩ := toNumber_eq_ok hp
    obtain ⟨n, hn⟩ := toNumber_eq_ok hq
    exact ⟨_, by rw [calculate, hm, hn]; rfl⟩

end Primitive

namespace Value

variable {invoke : Invoker} {limit : Nat}

theorem exists_reduced (h : invoke.Oblivious) (v : Value) (limit : Nat) (hint : Hint) (s : State) :
    ∃ outcome log t, v.Reduced invoke limit hint s outcome log t := by
  have hrun := (h.alike.reduce v hint).oblivious.apply_eq limit s
  refine ⟨_, _, _, hrun, rfl, ?_⟩
  rw [State.calls_behind]
  rfl

theorem reduced_primitive (p : Primitive) (hint : Hint) (s : State) :
    (Value.primitive p).Reduced invoke limit hint s (.ok p) [] s where
  run := rfl
  alone := rfl
  calls := (List.append_nil _).symm

/-- Reduces both operands and applies a rule to the primitives. If it is `early`, it converts the
left one to a number before it goes on. -/
def reduceBoth (invoke : Invoker) (hint : Hint) (early : Bool)
    (rule : Primitive → Primitive → Except Mismatch α) (v w : Value) : Run α := do
  let p ← v.reduce invoke hint
  if early then
    let _ ← Run.ofMismatch p.toNumber
  let q ← w.reduce invoke hint
  Run.ofMismatch (rule p q)

theorem add_eq (invoke : Invoker) (v w : Value) :
    v.add invoke w = v.reduceBoth invoke .default false Primitive.add w := rfl

theorem relate_eq (invoke : Invoker) (r : Relation) (v w : Value) :
    v.relate invoke r w = v.reduceBoth invoke .number false (Primitive.related r) w := rfl

theorem arithmetic_eq (invoke : Invoker) (a : Arithmetic) (v w : Value) :
    v.arithmetic invoke a w = v.reduceBoth invoke .number true (Primitive.calculate a) w := by
  simp only [arithmetic, reduceBoth, toNumber, bind_assoc, Primitive.calculate, if_true]
  refine congrArg (v.reduce invoke .number >>= ·) (funext fun p => ?_)
  cases p.toNumber with
  | error m => rfl
  | ok m =>
    refine congrArg (w.reduce invoke .number >>= ·) (funext fun q => ?_)
    cases q.toNumber <;> rfl

section Course

variable {rule : Primitive → Primitive → Except Mismatch α} {hint : Hint} {early : Bool}
  {v w : Value} {s t : State}

theorem reduceBoth_of_left {p : Primitive} {log : List Call}
    (h : v.Reduced invoke limit hint s (.ok p) log t) (hp : early = true → ¬ p.IsSymbol) :
    v.reduceBoth invoke hint early rule w limit s =
      (w.reduce invoke hint >>= fun q => Run.ofMismatch (rule p q)) limit t := by
  rw [reduceBoth, Run.bind_of_ok h.run]
  cases early with
  | false => rfl
  | true =>
    obtain ⟨m, hm⟩ := Primitive.toNumber_eq_ok (hp rfl)
    simp only [hm, if_true]
    rfl

theorem reduceBoth_of_leftSymbol {p : Primitive} {log : List Call}
    (h : v.Reduced invoke limit hint s (.ok p) log t) (hearly : early = true) (hp : p.IsSymbol) :
    v.reduceBoth invoke hint early rule w limit s =
      (.error (.failed (.mismatch .symbolToNumber)), t) := by
  rw [reduceBoth, Run.bind_of_ok h.run, hearly, Primitive.toNumber_of_isSymbol hp]
  rfl

theorem reduceBoth_course (hinvoke : invoke.Oblivious) (hrule : Primitive.RefusesSymbols rule)
    (hint : Hint) (early : Bool) (v w : Value) (s : State) :
    ∃ outcome log t, v.reduceBoth invoke hint early rule w limit s = (outcome, t) ∧
      t.calls = s.calls ++ log ∧ Course invoke limit hint early rule v w s outcome log t := by
  obtain ⟨outcome, log, t, hleft⟩ := exists_reduced hinvoke v limit hint s
  cases outcome with
  | error e => exact ⟨_, _, _, Run.bind_of_error hleft.run, hleft.calls, .left hleft⟩
  | ok p =>
    by_cases hrefused : early = true ∧ p.IsSymbol
    · exact ⟨_, _, _, reduceBoth_of_leftSymbol hleft hrefused.1 hrefused.2, hleft.calls,
        .leftSymbol hrefused.1 hleft hrefused.2⟩
    · rw [not_and] at hrefused
      rw [reduceBoth_of_left hleft hrefused]
      obtain ⟨outcome', log', u, hright⟩ := exists_reduced hinvoke w limit hint t
      have hcalls : u.calls = s.calls ++ (log ++ log') := by
        rw [hright.calls, hleft.calls, List.append_assoc]
      cases outcome' with
      | error e =>
        exact ⟨_, _, _, Run.bind_of_error hright.run, hcalls, .right hleft hrefused hright⟩
      | ok q =>
        rw [Run.bind_of_ok hright.run]
        by_cases hsymbol : p.IsSymbol ∨ q.IsSymbol
        · obtain ⟨m, hm⟩ := hrule.refuses hsymbol
          exact ⟨_, _, _, by rw [hm]; rfl, hcalls, .symbol hleft hrefused hright hsymbol hm⟩
        · rw [not_or] at hsymbol
          obtain ⟨a, ha⟩ := hrule.answers hsymbol.1 hsymbol.2
          exact ⟨_, _, _, by rw [ha]; rfl, hcalls, .answer hleft hright hsymbol.1 hsymbol.2 ha⟩

end Course

end Value

/-- Joining, comparing and calculating each follow `Course`: the log is that of reducing the left
operand and then the right one, once and under the hint of the operator. A primitive operand is
reduced without a call. The routines of the language are of the kind that this holds for. -/
theorem operands_reduced :
    (∀ invoke : Invoker, invoke.Oblivious → ∀ (limit : Nat) (v w : Value) (s : State),
      (∃ outcome log t, v.add invoke w limit s = (outcome, t) ∧ t.calls = s.calls ++ log ∧
        Course invoke limit .default false Primitive.add v w s outcome log t) ∧
      (∀ r, ∃ outcome log t, v.relate invoke r w limit s = (outcome, t) ∧
        t.calls = s.calls ++ log ∧
        Course invoke limit .number false (Primitive.related r) v w s outcome log t) ∧
      (∀ a, ∃ outcome log t, v.arithmetic invoke a w limit s = (outcome, t) ∧
        t.calls = s.calls ++ log ∧
        Course invoke limit .number true (Primitive.calculate a) v w s outcome log t) ∧
      (∀ p hint, (Value.primitive p).Reduced invoke limit hint s (.ok p) [] s)) ∧
    (∀ budget, (invokeWithin budget).Oblivious) := by
  refine ⟨fun invoke hinvoke limit v w s => ⟨?_, fun r => ?_, fun a => ?_, fun p hint =>
    Value.reduced_primitive p hint s⟩, invokeWithin_oblivious⟩
  · rw [Value.add_eq]
    exact Value.reduceBoth_course hinvoke Primitive.add_refusesSymbols .default false v w s
  · rw [Value.relate_eq]
    exact Value.reduceBoth_course hinvoke (Primitive.related_refusesSymbols r) .number false v w s
  · rw [Value.arithmetic_eq]
    exact Value.reduceBoth_course hinvoke (Primitive.calculate_refusesSymbols a) .number true v w s

/-- The left operand becomes a symbol and the right one fails. Joining fails as the right one does,
and subtraction refuses the symbol before it asks the right one. -/
theorem operands_reduced_symbol :
    let left : Object := .record { hook := some ⟨"left", .ret (.primitive (.symbol ⟨0, none⟩))⟩ }
    let right : Object := .record { hook := some ⟨"right", .fail "broken"⟩ }
    let s : State := { objects := #[left, right] }
    let broken : Stop := .failed (.host "broken")
    let refused : Stop := .failed (.mismatch .symbolToNumber)
    let invoke := invokeWithin 1
    invoke.Oblivious ∧
      (∃ t, (Value.object 0).add invoke (.object 1) 1 s = (.error broken, t) ∧
        Course invoke 1 .default false Primitive.add (.object 0) (.object 1) s (.error broken)
          [⟨"left", .hook, some .default, 1, 0⟩, ⟨"right", .hook, some .default, 1, 0⟩] t) ∧
      (∃ t, (Value.object 0).arithmetic invoke .sub (.object 1) 1 s = (.error refused, t) ∧
        Course invoke 1 .number true (Primitive.calculate .sub) (.object 0) (.object 1) s
          (.error refused) [⟨"left", .hook, some .number, 1, 0⟩] t) := by
  intro left right s broken refused invoke
  have hinvoke : invoke.Oblivious := invokeWithin_oblivious 1
  obtain ⟨⟨joined, log, t, hjoin, hlog, hcourse⟩, -, hcalculate, -⟩ :=
    operands_reduced.1 invoke hinvoke 1 (.object 0) (.object 1) s
  obtain ⟨result, log', t', hsub, hlog', hcourse'⟩ := hcalculate .sub
  refine ⟨hinvoke, ⟨t, ?_⟩, t', ?_⟩
  · have hrun : ((Value.object 0).add invoke (.object 1) 1 s).1 = .error broken ∧
        ((Value.object 0).add invoke (.object 1) 1 s).2.calls =
          [⟨"left", .hook, some .default, 1, 0⟩, ⟨"right", .hook, some .default, 1, 0⟩] :=
      ⟨rfl, rfl⟩
    rw [hjoin] at hrun
    obtain ⟨rfl, hcalls⟩ := hrun
    rw [show s.calls = [] from rfl, List.nil_append, hcalls] at hlog
    exact ⟨hjoin, hlog ▸ hcourse⟩
  · have hrun : ((Value.object 0).arithmetic invoke .sub (.object 1) 1 s).1 = .error refused ∧
        ((Value.object 0).arithmetic invoke .sub (.object 1) 1 s).2.calls =
          [⟨"left", .hook, some .number, 1, 0⟩] :=
      ⟨rfl, rfl⟩
    rw [hsub] at hrun
    obtain ⟨rfl, hcalls⟩ := hrun
    rw [show s.calls = [] from rfl, List.nil_append, hcalls] at hlog'
    exact ⟨hsub, hlog' ▸ hcourse'⟩

end Coercive
