import Coercive.Proofs.Interpolation
import Coercive.Proofs.Order

namespace Coercive

/-- How the two conversions to a string end when the reduction for them ends in a given way: first
the one on request and then the implicit one. They leave the same state. -/
inductive Spelled : Except Stop Primitive × State → Except Stop String × State →
    Except Stop String × State → Prop
  | stopped (e : Stop) (t : State) : Spelled (.error e, t) (.error e, t) (.error e, t)
  | symbol (sym : Symbol) (t : State) :
      Spelled (.ok (.symbol sym), t) (.ok sym.text, t)
        (.error (.failed (.mismatch .symbolToString)), t)
  | text {p : Primitive} (hp : ¬ p.IsSymbol) (t : State) :
      Spelled (.ok p, t) (.ok p.display, t) (.ok p.display, t)

namespace Primitive

theorem add_of_isString {p q : Primitive} (h : (p.isString || q.isString) = true) :
    p.add q = do return .string ((← p.toText) ++ (← q.toText)) :=
  if_pos h

theorem add_empty_left (p : Primitive) : add (.string "") p = p.toText.map .string := by
  rw [add_of_isString rfl]
  cases p.toText with
  | error m => rfl
  | ok s => exact congrArg (Except.ok ∘ Primitive.string) String.empty_append

theorem add_empty_right (p : Primitive) : p.add (.string "") = p.toText.map .string := by
  rw [add_of_isString (Bool.or_true _)]
  cases p.toText with
  | error m => rfl
  | ok s => exact congrArg (Except.ok ∘ Primitive.string) String.append_empty

end Primitive

namespace Run

theorem ofMismatch_map {α β : Type} (f : α → β) (e : Except Mismatch α) :
    ofMismatch (e.map f) = f <$> ofMismatch e := by
  cases e <;> rfl

end Run

namespace Value

variable (invoke : Invoker)

theorem toText_primitive (p : Primitive) (context : Context) :
    (Value.primitive p).toText invoke context = Run.ofMismatch p.toText := rfl

theorem add_primitives (p q : Primitive) :
    (Value.primitive p).add invoke (.primitive q) = Run.ofMismatch (p.add q) := rfl

theorem spelled (v : Value) (limit : Nat) (s : State) :
    Spelled (v.reduce invoke .string limit s) (v.showText invoke limit s)
      (v.toText invoke .stringOutput limit s) := by
  have hhint : Context.explicitString.hint = .string ∧ Context.stringOutput.hint = .string :=
    ⟨rfl, rfl⟩
  rw [showText, toText, hhint.1, hhint.2]
  rcases hrun : v.reduce invoke .string limit s with ⟨e | p, t⟩
  · rw [Run.bind_of_error hrun, Run.bind_of_error hrun]
    exact .stopped e t
  · rw [Run.bind_of_ok hrun, Run.bind_of_ok hrun]
    cases p with
    | symbol sym => exact .symbol sym t
    | undefined | null | bool | number | string => exact .text id t

end Value

namespace Expr

variable {invoke : Invoker} {limit : Nat} {s : State}

theorem eval_builtin {x : String} {b : Builtin} (hx : s.scope.get? x = none)
    (hb : Builtin.ofName? x = some b) (e : Expr) :
    (call (.name x) [e]).eval invoke limit s =
      (e.eval invoke >>= fun v => b.run invoke [v]) limit s := by
  rw [eval, Run.bind_of_ok (Binding.find_of_none hx hb limit)]
  simp only [evalAll, bind_assoc, pure_bind, Binding.call]

theorem eval_number (hx : s.scope.get? "Number" = none) (e : Expr) :
    (call (.name "Number") [e]).eval invoke limit s = (unary .plus e).eval invoke limit s := by
  rw [eval_builtin hx rfl]
  rfl

theorem eval_string (hx : s.scope.get? "String" = none) (e : Expr) :
    (call (.name "String") [e]).eval invoke limit s =
      (Value.string <$> (e.eval invoke >>= fun v => v.showText invoke)) limit s := by
  rw [eval_builtin hx rfl, map_bind]
  simp only [Builtin.run, Cast.apply, Functor.map_map]
  rfl

theorem spelled (e : Expr) :
    Spelled ((e.eval invoke >>= fun v => v.reduce invoke .string) limit s)
      ((e.eval invoke >>= fun v => v.showText invoke) limit s)
      ((e.eval invoke >>= fun v => v.toText invoke .stringOutput) limit s) := by
  rcases hrun : e.eval invoke limit s with ⟨stop | v, t⟩
  · rw [Run.bind_of_error hrun, Run.bind_of_error hrun, Run.bind_of_error hrun]
    exact .stopped stop t
  · rw [Run.bind_of_ok hrun, Run.bind_of_ok hrun, Run.bind_of_ok hrun]
    exact v.spelled invoke limit t

end Expr

/-- All ways to convert a value to a number agree, with their effects, and so do the operator and
the call of the builtin function. All ways to convert it to a string reduce it alike and agree but
for symbols, which `Spelled` says, and so do the call of the builtin function and a template. To
join an empty string converts a primitive like a template. -/
theorem conversions_agree (invoke : Invoker) :
    (∀ v : Value,
      Cast.plus.apply invoke v = .number <$> v.toNumber invoke .explicitNumber ∧
      Cast.negate.apply invoke v = (fun n => .number n.neg) <$> v.toNumber invoke .explicitNumber) ∧
    (∀ (e : Expr) (limit : Nat) (s : State), s.scope.get? "Number" = none →
      (Expr.call (.name "Number") [e]).eval invoke limit s =
        (Expr.unary .plus e).eval invoke limit s) ∧
    (∀ v : Value, v.toText invoke .propertyKey = v.toText invoke .stringOutput ∧
      ∀ (limit : Nat) (s : State), Spelled (v.reduce invoke .string limit s)
        (v.showText invoke limit s) (v.toText invoke .stringOutput limit s)) ∧
    (∀ (e : Expr) (source : String), Source.parse source = .ok e →
      ∀ (limit : Nat) (s : State), s.scope.get? "String" = none →
        ∃ shown : Except Stop String × State,
          (Expr.call (.name "String") [e]).eval invoke limit s =
            (Value.string <$> shown.1, shown.2) ∧
          Spelled ((e.eval invoke >>= fun v => v.reduce invoke .string) limit s) shown
            (interpolate invoke ("$\x7b" ++ source ++ "\n\x7d") limit s)) ∧
    (∀ p : Primitive,
      (Value.string "").add invoke (.primitive p) =
        .string <$> (Value.primitive p).toText invoke .stringOutput ∧
      (Value.primitive p).add invoke (.string "") =
        .string <$> (Value.primitive p).toText invoke .stringOutput) := by
  refine ⟨fun v => ⟨rfl, rfl⟩, fun e limit s hs => Expr.eval_number hs e,
    fun v => ⟨rfl, v.spelled invoke⟩, fun e source he limit s hs => ?_, fun p => ⟨?_, ?_⟩⟩
  · refine ⟨(e.eval invoke >>= fun v => v.showText invoke) limit s, ?_, ?_⟩
    · rw [Expr.eval_string hs, Run.map_apply]
    · rw [interpolate_hole he]
      exact e.spelled
  · rw [Value.string, Value.add_primitives, Primitive.add_empty_left, Run.ofMismatch_map,
      Value.toText_primitive]
  · rw [Value.string, Value.add_primitives, Primitive.add_empty_right, Run.ofMismatch_map,
      Value.toText_primitive]

/-- A hook that answers the hint `string` by a symbol and the hint `number` by null. The call shows
the symbol and the template refuses it. -/
theorem conversions_agree_symbol :
    let tag : Primitive := .symbol ⟨0, some "tag"⟩
    let body : Script Value := .byHint (.ret (.primitive tag)) (.ret (.primitive .null)) .fresh
    let o : Object := .record { hook := some ⟨"o", body⟩ }
    let s : State := { objects := #[o], scope := [("o", .object 0)] }
    let invoke := invokeWithin 1
    let e : Expr := .name "o"
    s.scope.get? "Number" = none ∧ s.scope.get? "String" = none ∧ Source.parse "o" = .ok e ∧
      ((Expr.unary .plus e).eval invoke 1 s).1 = .ok (.number .zero) ∧
      (Expr.call (.name "Number") [e]).eval invoke 1 s = (Expr.unary .plus e).eval invoke 1 s ∧
      ((Expr.call (.name "String") [e]).eval invoke 1 s).1 = .ok (.string "Symbol(tag)") ∧
      ∃ shown : Except Stop String × State,
        (Expr.call (.name "String") [e]).eval invoke 1 s = (Value.string <$> shown.1, shown.2) ∧
        Spelled ((e.eval invoke >>= fun v => v.reduce invoke .string) 1 s) shown
          (interpolate invoke ("$\x7b" ++ "o" ++ "\n\x7d") 1 s) := by
  intro tag body o s invoke e
  obtain ⟨-, hnumber, -, hstring, -⟩ := conversions_agree invoke
  have hparse : Source.parse "o" = .ok e := by cbv
  exact ⟨rfl, rfl, hparse, rfl, hnumber e 1 s rfl, rfl, hstring e "o" hparse 1 s rfl⟩

end Coercive
