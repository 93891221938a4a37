import Coercive.Proofs.Equality
import Coercive.Proofs.Locality
import Coercive.Proofs.RoundTrip
import Coercive.Proofs.Scoping
import Coercive.Session

namespace Coercive

theorem Primitive.isLooselyEqual_self (p : Primitive) :
    p.isLooselyEqual p = decide (p ≠ .number .nan) := by
  rw [isLooselyEqual_of (looselyEqual_of_typeName rfl)]
  cases p with
  | undefined | null => rfl
  | bool | string | symbol => simp [equal]
  | number n =>
    cases n with
    | nan => rfl
    | signed negative m => simpa [equal] using Number.equal_self negative m

theorem Value.looselyEquals_self (invoke : Invoker) (v : Value) :
    v.looselyEquals invoke v = pure (decide (v ≠ .number .nan)) := by
  cases v with
  | object ref => simp [looselyEquals, number]
  | primitive p =>
    rw [looselyEquals_primitives, p.isLooselyEqual_self]
    simp [number]

namespace Expr

def equalsItself (x : String) : Expr := .binary .eq (.name x) (.name x)

section

variable {invoke : Invoker} {limit : Nat} {s t u : State} {x : String} {v w : Value}

theorem eval_equalsItself (hv : (name x).eval invoke limit s = (.ok v, t))
    (hw : (name x).eval invoke limit t = (.ok w, u)) :
    (equalsItself x).eval invoke limit s =
      ((fun b => .primitive (.bool b)) <$> v.looselyEquals invoke w) limit u := by
  rw [equalsItself, eval, Run.bind_of_ok hv, Run.bind_of_ok hw, Operator.apply, Functor.map_map]

theorem eval_equalsItself_variable (h : s.scope.get? x = some v) :
    (equalsItself x).eval invoke limit s =
      (.ok (.primitive (.bool (decide (v ≠ .number .nan)))), s) := by
  have hname := eval_name h invoke limit
  rw [eval_equalsItself hname hname, Value.looselyEquals_self]
  rfl

theorem eval_equalsItself_builtin (h : s.scope.get? x = none) {b : Builtin}
    (hb : Builtin.ofName? x = some b) :
    (equalsItself x).eval invoke limit s =
      (.ok (.primitive (.bool false)),
        { s with
          objects :=
            (s.objects.push (.function (.builtin b))).push (.function (.builtin b)) }) := by
  let f : Object := .function (.builtin b)
  let u : State := { s with objects := s.objects.push f }
  have hfirst : (name x).eval invoke limit s = (.ok (.object s.objects.size), u) :=
    eval_name_builtin h hb invoke limit
  have hsecond : (name x).eval invoke limit u =
      (.ok (.object u.objects.size), { u with objects := u.objects.push f }) :=
    eval_name_builtin (show u.scope.get? x = none from h) hb invoke limit
  have hdiffer : (s.objects.size == u.objects.size) = false := by simp [u]
  rw [eval_equalsItself hfirst hsecond, Value.looselyEquals, hdiffer]
  rfl

end

theorem parse_equalsItself {x : String} (h : (name x).WellFormed) :
    Source.parse (x ++ " == " ++ x) = .ok (equalsItself x) := by
  have hparse : Source.parse? ((equalsItself x).chars .exact) = some (equalsItself x) :=
    Source.parse?_chars .exact (.binary .eq h h)
  have htext : (x ++ " == " ++ x).toList = (equalsItself x).chars .exact := by
    rw [String.toList_append, String.toList_append, List.append_assoc]
    rfl
  rw [← htext] at hparse
  exact Source.parse_eq_ok.2 hparse

end Expr

/-- A name that evaluates is a variable or a builtin function. Compared with itself, a variable is
equal unless it holds NaN, and nothing changes. A builtin function is unequal, since it is made an
object twice, which is all that changes. The text with the operator between the name and itself is
evaluated so. -/
theorem name_equals_itself {invoke : Invoker} {limit : Nat} {s t : State} {x : String} {v : Value}
    (h : (Expr.name x).eval invoke limit s = (.ok v, t)) :
    (s.scope.get? x = some v ∧
        (Expr.equalsItself x).eval invoke limit s =
          (.ok (.primitive (.bool (decide (v ≠ .number .nan)))), s) ∨
      ∃ b, s.scope.get? x = none ∧ Builtin.ofName? x = some b ∧
        (Expr.equalsItself x).eval invoke limit s =
          (.ok (.primitive (.bool false)),
            { s with
              objects :=
                (s.objects.push (.function (.builtin b))).push (.function (.builtin b)) })) ∧
      ((Expr.name x).WellFormed →
        evaluate invoke (x ++ " == " ++ x) = (Expr.equalsItself x).eval invoke) := by
  refine ⟨?_, fun hx => evaluate_of_parse (Expr.parse_equalsItself hx) invoke⟩
  cases hx : s.scope.get? x with
  | some w =>
    rw [Expr.eval_name hx] at h
    cases h
    exact .inl ⟨rfl, Expr.eval_equalsItself_variable hx⟩
  | none =>
    cases hb : Builtin.ofName? x with
    | some b => exact .inr ⟨b, rfl, rfl, Expr.eval_equalsItself_builtin hx hb⟩
    | none =>
      rw [Expr.eval, Run.bind_of_error (Binding.find_of_unresolved hx hb limit)] at h
      cases h

theorem name_equals_itself_hiding :
    let f : Object := .function (.builtin .number)
    let s : State := { objects := #[f], scope := [("Number", .object 0)] }
    let invoke := invokeWithin 0
    (Expr.name "Number").eval invoke 0 s = (.ok (.object 0), s) ∧
      (Expr.name "Number").WellFormed ∧
      evaluate invoke "Number == Number" 0 s = (.ok (.primitive (.bool true)), s) := by
  intro f s invoke
  have hname : (Expr.name "Number").eval invoke 0 s = (.ok (.object 0), s) := rfl
  have hformed : (Expr.name "Number").WellFormed := .name (by decide) (by decide)
  obtain ⟨hvalue, htext⟩ := name_equals_itself hname
  have heval : evaluate invoke "Number == Number" = (Expr.equalsItself "Number").eval invoke :=
    htext hformed
  rw [heval]
  rcases hvalue with ⟨-, hequal⟩ | ⟨b, hnone, -⟩
  · exact ⟨hname, hformed, hequal⟩
  · cases hnone

/-- The name of a builtin function gives an object, and yet it is not equal to itself. -/
theorem builtin_unequal_to_itself :
    let report (source : String) := Session.report defaultLimit (.evaluate source) {}
    (report "Number").outcome = .ok (.value (.object 0)) ∧
      (report "Number == Number").outcome = .ok (.value (.primitive (.bool false))) ∧
      (report "Number == Number").calls = [] := by
  intro report
  have hname : Source.parse "Number" = .ok (.name "Number") := by cbv
  have hequals : Source.parse "Number == Number" = .ok (.equalsItself "Number") := by cbv
  simp only [report, Session.report, Step.run, evaluate_of_parse hname, evaluate_of_parse hequals]
  exact ⟨rfl, rfl, rfl⟩

end Coercive
