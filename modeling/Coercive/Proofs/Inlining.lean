import Coercive.Proofs.Access
import Coercive.Proofs.Scoping

namespace Coercive

variable {α β : Type}

namespace Rules

variable {a : Allowance} {L : Rules a} {invoke invoke' : Invoker}

theorem callee (h : L.Covers invoke invoke') (e : Expr) (he : e.Within a) :
    L.holds (e.callee invoke) (e.callee invoke') := by
  cases e with
  | member object field =>
    exact L.bind (eval h object he) fun v => L.bind (member v field) fun _ => L.pure _
  | index object key =>
    exact L.bind (eval h object he.1) fun v => L.bind (eval h key he.2) fun w =>
      L.bind (Laws.toText h.reduces w _) fun name => L.bind (member v name) fun _ => L.pure _
  | name x => exact L.bind (BodyRules.binding he) fun _ => L.pure _
  | literal | call | unary | binary => exact L.bind (eval h _ he) fun _ => L.pure _

theorem callCallee (h : L.Covers invoke invoke') (args : List Value) (c : Callee) :
    L.holds (c.call invoke args) (c.call invoke' args) := by
  obtain ⟨receiver, b⟩ := c
  cases b with
  | bound f => exact call h.invokes f receiver args
  | builtin b => exact Laws.builtin h.reduces b args

end Rules

/-- Where the variable has the value, both computations do the same, and they leave the variables as
they are. -/
def Run.AlikeAt (x : String) (v : Value) (act act' : Run α) : Prop :=
  ∀ (limit : Nat) (s : State), s.scope.get? x = some v →
    act' limit s = act limit s ∧ (act limit s).2.scope = s.scope

def alikeAt (x : String) (v : Value) : Laws where
  holds := Run.AlikeAt x v
  pure _ _ _ _ := ⟨rfl, rfl⟩
  fail _ _ _ _ := ⟨rfl, rfl⟩
  bind {_ _ act act' next next'} h hnext limit s hs := by
    obtain ⟨heq, hscope⟩ := h limit s hs
    rcases hrun : act limit s with ⟨e | w, t⟩ <;> rw [hrun] at heq hscope
    · rw [Run.bind_of_error hrun, Run.bind_of_error heq]
      exact ⟨rfl, hscope⟩
    · rw [Run.bind_of_ok hrun, Run.bind_of_ok heq]
      obtain ⟨hnext', hscope'⟩ := hnext w limit t (by rw [hscope]; exact hs)
      exact ⟨hnext', hscope'.trans hscope⟩

theorem Run.AlikeAt.refl {x : String} {v : Value} {act : Run α}
    (h : ∀ scope, (keepingScope scope).holds act act) : act.AlikeAt x v act :=
  fun limit s _ => ⟨rfl, (h s.scope limit s (fun _ => Object.within_all _) rfl).2.2⟩

namespace Expr

mutual

def substitute (x : String) (p : Primitive) : Expr → Expr
  | .literal q => .literal q
  | .name y => if y = x then .literal p else .name y
  | .member object field => .member (object.substitute x p) field
  | .index object key => .index (object.substitute x p) (key.substitute x p)
  | .call callee args => .call (callee.substitute x p) (substituteAll x p args)
  | .unary sign operand => .unary sign (operand.substitute x p)
  | .binary op left right => .binary op (left.substitute x p) (right.substitute x p)

def substituteAll (x : String) (p : Primitive) : List Expr → List Expr
  | [] => []
  | e :: es => e.substitute x p :: substituteAll x p es

end

variable {x : String} {p : Primitive}

mutual

theorem within_substitute : (e : Expr) → (e.substitute x p).Within (.hiding [x])
  | .literal _ => trivial
  | .name y => by
    rw [substitute]
    split
    · exact trivial
    · next hy => exact fun hmem => hy (List.mem_singleton.1 hmem)
  | .member object _ => object.within_substitute
  | .index object key => ⟨object.within_substitute, key.within_substitute⟩
  | .call callee args => ⟨callee.within_substitute, allWithin_substituteAll args⟩
  | .unary _ operand => operand.within_substitute
  | .binary _ left right => ⟨left.within_substitute, right.within_substitute⟩

theorem allWithin_substituteAll : (es : List Expr) →
    AllWithin (.hiding [x]) (substituteAll x p es)
  | [] => trivial
  | e :: es => ⟨e.within_substitute, allWithin_substituteAll es⟩

end

/-- Two expressions evaluate alike where the variable has the value, also as callees. -/
structure AlikeAt (invoke : Invoker) (x : String) (v : Value) (e e' : Expr) : Prop where
  eval : Run.AlikeAt x v (e.eval invoke) (e'.eval invoke)
  callee : Run.AlikeAt x v (e.callee invoke) (e'.callee invoke)

section Congruence

variable {budget : Nat} {v : Value} {e e' o o' k k' f f' l l' r r' : Expr} {args args' : List Expr}

namespace AlikeAt

theorem refl (e : Expr) : e.AlikeAt (invokeWithin budget) x v e := by
  have he : e.Within .all := e.within_of_reads fun _ => trivial
  exact ⟨.refl fun scope => Rules.eval (keepingScope_covers scope budget) e he,
    .refl fun scope => Rules.callee (keepingScope_covers scope budget) e he⟩

theorem literal (invoke : Invoker) :
    (name x).AlikeAt invoke x (.primitive p) (.literal p) := by
  constructor
  · intro limit s hs
    have hname : (name x).eval invoke limit s = (.ok (.primitive p), s) :=
      Run.bind_of_ok (Binding.find_of_some hs limit)
    rw [hname]
    exact ⟨rfl, rfl⟩
  · intro limit s hs
    have hname : (name x).callee invoke limit s =
        (.ok ⟨.undefined, .bound (.primitive p)⟩, s) :=
      Run.bind_of_ok (Binding.find_of_some hs limit)
    rw [hname]
    exact ⟨rfl, rfl⟩

theorem plain {act act' : Run Value} (h : act.AlikeAt x v act') :
    Run.AlikeAt x v (do return Callee.mk .undefined (.bound (← act)))
      (do return Callee.mk .undefined (.bound (← act'))) :=
  (alikeAt x v).bind h fun _ => (alikeAt x v).pure _

theorem member (h : o.AlikeAt (invokeWithin budget) x v o') (field : String) :
    (member o field).AlikeAt (invokeWithin budget) x v (.member o' field) := by
  have hmember : ∀ w : Value, Run.AlikeAt x v (w.member field) (w.member field) :=
    fun w => .refl fun _ => Rules.member w field
  exact ⟨(alikeAt x v).bind h.eval hmember, (alikeAt x v).bind h.eval fun w =>
    (alikeAt x v).bind (hmember w) fun _ => (alikeAt x v).pure _⟩

theorem index (h : o.AlikeAt (invokeWithin budget) x v o')
    (hk : k.AlikeAt (invokeWithin budget) x v k') :
    (index o k).AlikeAt (invokeWithin budget) x v (.index o' k') := by
  have hmember : ∀ (w : Value) name, Run.AlikeAt x v (w.member name) (w.member name) :=
    fun w name => .refl fun _ => Rules.member w name
  have htext : ∀ w : Value, Run.AlikeAt x v (w.toText (invokeWithin budget) .propertyKey)
      (w.toText (invokeWithin budget) .propertyKey) :=
    fun w => .refl fun scope => Laws.toText (keepingScope_covers scope budget).reduces w _
  constructor
  · exact (alikeAt x v).bind h.eval fun w => (alikeAt x v).bind hk.eval fun key =>
      (alikeAt x v).bind (htext key) fun name => hmember w name
  · exact (alikeAt x v).bind h.eval fun w => (alikeAt x v).bind hk.eval fun key =>
      (alikeAt x v).bind (htext key) fun name => (alikeAt x v).bind (hmember w name) fun _ =>
        (alikeAt x v).pure _

theorem call (h : f.AlikeAt (invokeWithin budget) x v f')
    (hargs : Run.AlikeAt x v (evalAll (invokeWithin budget) args)
      (evalAll (invokeWithin budget) args')) :
    (call f args).AlikeAt (invokeWithin budget) x v (.call f' args') := by
  have heval : Run.AlikeAt x v ((Expr.call f args).eval (invokeWithin budget))
      ((Expr.call f' args').eval (invokeWithin budget)) := by
    rw [eval_callee, eval_callee]
    exact (alikeAt x v).bind h.callee fun c => (alikeAt x v).bind hargs fun vs =>
      .refl fun scope => Rules.callCallee (keepingScope_covers scope budget) vs c
  exact ⟨heval, plain heval⟩

theorem unary (h : e.AlikeAt (invokeWithin budget) x v e') (sign : Sign) :
    (unary sign e).AlikeAt (invokeWithin budget) x v (.unary sign e') := by
  have heval : Run.AlikeAt x v ((Expr.unary sign e).eval (invokeWithin budget))
      ((Expr.unary sign e').eval (invokeWithin budget)) :=
    (alikeAt x v).bind h.eval fun w => .refl fun scope =>
      Laws.map _ (Laws.cast (keepingScope_covers scope budget).reduces _ w)
  exact ⟨heval, plain heval⟩

theorem binary (op : Operator) (hl : l.AlikeAt (invokeWithin budget) x v l')
    (hr : r.AlikeAt (invokeWithin budget) x v r') :
    (binary op l r).AlikeAt (invokeWithin budget) x v (.binary op l' r') := by
  have heval : Run.AlikeAt x v ((Expr.binary op l r).eval (invokeWithin budget))
      ((Expr.binary op l' r').eval (invokeWithin budget)) :=
    (alikeAt x v).bind hl.eval fun w => (alikeAt x v).bind hr.eval fun w' => .refl fun scope =>
      Laws.map _ (Laws.operate (keepingScope_covers scope budget).reduces op w w')
  exact ⟨heval, plain heval⟩

end AlikeAt

mutual

theorem alikeAt_substitute : (e : Expr) →
    e.AlikeAt (invokeWithin budget) x (.primitive p) (e.substitute x p)
  | .literal q => .refl (.literal q)
  | .name y => by
    rw [substitute]
    split
    · next hy =>
      subst hy
      exact .literal _
    · exact .refl (.name y)
  | .member object field => object.alikeAt_substitute.member field
  | .index object key => object.alikeAt_substitute.index key.alikeAt_substitute
  | .call callee args => callee.alikeAt_substitute.call (alikeAt_substituteAll args)
  | .unary sign operand => operand.alikeAt_substitute.unary sign
  | .binary op left right => .binary op left.alikeAt_substitute right.alikeAt_substitute

theorem alikeAt_substituteAll : (es : List Expr) →
    Run.AlikeAt x (.primitive p) (evalAll (invokeWithin budget) es)
      (evalAll (invokeWithin budget) (substituteAll x p es))
  | [] => (alikeAt x _).pure _
  | e :: es => (alikeAt x _).bind e.alikeAt_substitute.eval fun _ =>
      (alikeAt x _).bind (alikeAt_substituteAll es) fun _ => (alikeAt x _).pure _

end

end Congruence

/-- Where a variable holds a primitive, an expression does the same with the primitive in place of
the variable, and then the variable may hold anything if no body reads it. Evaluation is the same
whatever the variables hold that neither the expression nor a body reads. -/
theorem eval_substitute (e : Expr) (s : State) (budget limit : Nat) :
    (∀ x p, s.scope.get? x = some (.primitive p) →
      (e.substitute x p).eval (invokeWithin budget) limit s =
        e.eval (invokeWithin budget) limit s ∧
      (s.Within (.hiding [x]) →
        ∀ scope' : Table String Value, (∀ y, y ≠ x → scope'.get? y = s.scope.get? y) →
          (e.substitute x p).eval (invokeWithin budget) limit (s.rescope scope') =
            ((e.eval (invokeWithin budget) limit s).1,
              (e.eval (invokeWithin budget) limit s).2.rescope scope'))) ∧
    (∀ (a : Allowance) (scope' : Table String Value), e.Within a → s.Within a →
      (∀ y, a.reads y → scope'.get? y = s.scope.get? y) →
        e.eval (invokeWithin budget) limit (s.rescope scope') =
          ((e.eval (invokeWithin budget) limit s).1,
            (e.eval (invokeWithin budget) limit s).2.rescope scope')) := by
  refine ⟨fun x p hx => ?_, fun a scope' he hs h => eval_rescope he hs h budget limit⟩
  have hsame : (e.substitute x p).eval (invokeWithin budget) limit s =
      e.eval (invokeWithin budget) limit s := (e.alikeAt_substitute.eval limit s hx).1
  refine ⟨hsame, fun hs scope' h => ?_⟩
  have hscope : ∀ y, (Allowance.hiding [x]).reads y → scope'.get? y = s.scope.get? y :=
    fun y hy => h y fun heq => hy (List.mem_singleton.2 heq)
  rw [eval_rescope e.within_substitute hs hscope, hsame]

theorem eval_substitute_shadowing :
    let f : Object := .function (.routine .function ⟨"f", .argument 1⟩)
    let o : Object := .record { fields := [("f", .object 0), ("NaN", .string "found")] }
    let scope : Table String Value := [("o", .object 1)]
    let s : State := { objects := #[f, o], scope := ("Number", .number .nan) :: scope }
    let e : Expr :=
      .call (.member (.name "o") "f") [.name "Number", .index (.name "o") (.name "Number")]
    let invoke := invokeWithin 1
    s.scope.get? "Number" = some (.number .nan) ∧ s.Within (.hiding ["Number"]) ∧
      e.Within (.hiding ["y"]) ∧ s.Within (.hiding ["y"]) ∧
      (e.eval invoke 0 s).1 = .ok (.string "found") ∧
      (e.eval invoke 0 s).2.calls = [⟨"f", .function, none, 0, 2⟩] ∧
      (e.substitute "Number" (.number .nan)).eval invoke 0 s = e.eval invoke 0 s ∧
      (e.substitute "Number" (.number .nan)).eval invoke 0 (s.rescope scope) =
        ((e.eval invoke 0 s).1, (e.eval invoke 0 s).2.rescope scope) ∧
      e.eval invoke 0 (s.rescope (("y", .undefined) :: s.scope)) =
        ((e.eval invoke 0 s).1, (e.eval invoke 0 s).2.rescope (("y", .undefined) :: s.scope)) := by
  intro f o scope s e invoke
  have hwithin : ∀ z, s.Within (.hiding [z]) := by
    intro z ref
    match ref with
    | 0 => exact .argument
    | 1 => exact ⟨nofun, trivial, trivial⟩
    | _ + 2 => trivial
  have hunused : e.Within (.hiding ["y"]) := by
    have ho : "o" ∉ ["y"] := by decide
    have hnumber : "Number" ∉ ["y"] := by decide
    exact ⟨ho, hnumber, ⟨ho, hnumber⟩, trivial⟩
  obtain ⟨hsubstitute, hrescope⟩ := eval_substitute e s 1 0
  obtain ⟨hsame, hhidden⟩ := hsubstitute "Number" (.number .nan) rfl
  refine ⟨rfl, hwithin _, hunused, hwithin _, rfl, rfl, hsame, ?_, ?_⟩
  · apply hhidden (hwithin _) scope
    intro y hy
    exact (Table.get?_insert_of_ne scope _ hy).symm
  · apply hrescope (.hiding ["y"]) _ hunused (hwithin _)
    intro z hz
    exact Table.get?_insert_of_ne s.scope _ fun heq => hz (List.mem_singleton.2 heq)

end Expr

end Coercive
