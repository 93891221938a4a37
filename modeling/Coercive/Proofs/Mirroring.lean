import Coercive.Proofs.Surplus

namespace Coercive.Surplus

variable (p : Surplus)

inductive SameAll (m : Nat) : List Value → List Value → Prop
  | nil : SameAll m [] []
  | cons {v w : Value} {vs ws : List Value} (h : p.Same m v w) (hs : SameAll m vs ws) :
      SameAll m (v :: vs) (w :: ws)

structure SameFrame (m : Nat) (frame frame' : Frame) : Prop where
  receiver : p.Same m frame.receiver frame'.receiver
  args : p.SameAll m frame.args frame'.args
  hint : frame'.hint = frame.hint

inductive SameBinding (m : Nat) : Binding → Binding → Prop
  | bound {v w : Value} (h : p.Same m v w) : SameBinding m (.bound v) (.bound w)
  | builtin (b : Builtin) : SameBinding m (.builtin b) (.builtin b)

-- The rules for computations do not apply here, since they give both sides the same values.
/-- Closed methods are run alike on both sides. -/
def Invokes (invoke : Invoker) : Prop :=
  ∀ f : Method, f.Closed p.allowance p.start → ∀ {m receiver receiver' args args'},
    p.Same m receiver receiver' → p.SameAll m args args' →
      p.Mirrors m p.Same (invoke f receiver args) (invoke f receiver' args')

variable {p} {invoke : Invoker} {m m' : Nat} {v v' w w' receiver receiver' : Value}
  {vs vs' args args' : List Value} {frame frame' : Frame}

namespace SameAll

theorem mono (h : p.SameAll m vs vs') (hle : m ≤ m') : p.SameAll m' vs vs' := by
  induction h with
  | nil => exact .nil
  | cons h _ ih => exact .cons (h.mono hle) ih

theorem length_eq (h : p.SameAll m vs vs') : vs'.length = vs.length := by
  induction h with
  | nil => rfl
  | cons _ _ ih => simp only [List.length_cons, ih]

theorem getD_undefined (h : p.SameAll m vs vs') (i : Nat) :
    p.Same m (vs[i]?.getD .undefined) (vs'[i]?.getD .undefined) := by
  induction h generalizing i with
  | nil => exact .primitive _
  | cons h _ ih =>
    cases i with
    | zero => exact h
    | succ i => exact ih i

end SameAll

theorem SameFrame.mono (h : p.SameFrame m frame frame') (hle : m ≤ m') :
    p.SameFrame m' frame frame' :=
  ⟨h.receiver.mono hle, h.args.mono hle, h.hint⟩

theorem SameBinding.mono {b b' : Binding} (h : p.SameBinding m b b') (hle : m ≤ m') :
    p.SameBinding m' b b' := by
  cases h with
  | bound h => exact .bound (h.mono hle)
  | builtin b => exact .builtin b

namespace Mirrors

theorem askHook (h : p.Invokes invoke) (o : Object) (hr : p.Same m receiver receiver') (hint : Hint)
    {hook : Method} (hhook : hook.Closed p.allowance p.start) :
    p.Mirrors m (fun _ => Eq) (o.askHook invoke receiver hint hook)
      (o.askHook invoke receiver' hint hook) := by
  apply bind (h hook hhook hr (.cons (.primitive _) .nil))
  intro m' v w _ hvw
  cases hvw with
  | primitive q => exact pure rfl
  | object => exact fail _

theorem askEach (h : p.Invokes invoke) {o : Object} (ho : o.Closed p.allowance p.start)
    (hr : p.Same m receiver receiver') (cs : List Conversion) :
    p.Mirrors m (fun _ => Eq) (o.askEach invoke receiver cs) (o.askEach invoke receiver' cs) := by
  induction cs generalizing m with
  | nil => exact fail _
  | cons c rest ih =>
    simp only [Object.askEach]
    split
    · exact ih hr
    · next f hf =>
      apply bind (h f (ho.conversion hf) hr .nil)
      intro m' v w hm hvw
      cases hvw with
      | primitive q => exact pure rfl
      | object => exact ih (hr.mono hm)

theorem reduceObject (h : p.Invokes invoke) {o : Object} (ho : o.Closed p.allowance p.start)
    (hr : p.Same m receiver receiver') (hint : Hint) :
    p.Mirrors m (fun _ => Eq) (o.reduce invoke receiver hint) (o.reduce invoke receiver' hint) := by
  unfold Object.reduce
  split
  · next hook hhook => exact askHook h o hr hint (ho.hook hhook)
  · exact askEach h ho hr _

theorem reduce (h : p.Invokes invoke) (hv : p.Same m v v') (hint : Hint) :
    p.Mirrors m (fun _ => Eq) (v.reduce invoke hint) (v'.reduce invoke hint) := by
  cases hv with
  | primitive q => exact pure rfl
  | object href => exact nested (object fun o ho => reduceObject h ho (.object href) hint)

section Conversions

variable (h : p.Invokes invoke)

include h

theorem toNumber (hv : p.Same m v v') (context : Context) :
    p.Mirrors m (fun _ => Eq) (v.toNumber invoke context) (v'.toNumber invoke context) :=
  bindEq (reduce h hv _) fun _ _ _ => ofMismatch _

theorem toText (hv : p.Same m v v') (context : Context) :
    p.Mirrors m (fun _ => Eq) (v.toText invoke context) (v'.toText invoke context) :=
  bindEq (reduce h hv _) fun _ _ _ => ofMismatch _

theorem showText (hv : p.Same m v v') :
    p.Mirrors m (fun _ => Eq) (v.showText invoke) (v'.showText invoke) := by
  apply bindEq (reduce h hv _)
  intro _ q _
  cases q with
  | symbol s => exact pure rfl
  | _ => exact ofMismatch _

theorem cast (c : Cast) (hv : p.Same m v v') :
    p.Mirrors m (fun _ => Eq) (c.apply invoke v) (c.apply invoke v') := by
  cases c with
  | number | plus | negate => exact mapEq _ (toNumber h hv _)
  | string => exact mapEq _ (showText h hv)
  | output | key => exact mapEq _ (toText h hv _)

theorem add (hv : p.Same m v v') (hw : p.Same m w w') :
    p.Mirrors m (fun _ => Eq) (v.add invoke w) (v'.add invoke w') :=
  bindEq (reduce h hv _) fun _ _ hm => bindEq (reduce h (hw.mono hm) _) fun _ _ _ => ofMismatch _

theorem arithmetic (op : Arithmetic) (hv : p.Same m v v') (hw : p.Same m w w') :
    p.Mirrors m (fun _ => Eq) (v.arithmetic invoke op w) (v'.arithmetic invoke op w') :=
  bindEq (toNumber h hv _) fun _ _ hm => bindEq (toNumber h (hw.mono hm) _) fun _ _ _ => pure rfl

theorem relate (r : Relation) (hv : p.Same m v v') (hw : p.Same m w w') :
    p.Mirrors m (fun _ => Eq) (v.relate invoke r w) (v'.relate invoke r w') :=
  bindEq (reduce h hv _) fun _ _ hm => bindEq (reduce h (hw.mono hm) _) fun _ _ _ => ofMismatch _

theorem looselyEquals (hv : p.Same m v v') (hw : p.Same m w w') :
    p.Mirrors m (fun _ => Eq) (v.looselyEquals invoke w) (v'.looselyEquals invoke w') := by
  cases hv with
  | primitive q =>
    cases hw with
    | primitive r => exact ofMismatch _
    | object href =>
      simp only [Value.looselyEquals]
      split
      · exact pure rfl
      · exact bindEq (reduce h (.object href) _) fun _ _ _ => ofMismatch _
  | @object i hi =>
    cases hw with
    | primitive r =>
      simp only [Value.looselyEquals]
      split
      · exact pure rfl
      · exact bindEq (reduce h (.object hi) _) fun _ _ _ => ofMismatch _
    | @object j hj =>
      have hplace : (p.place i == p.place j) = (i == j) := by
        rw [Bool.eq_iff_iff, beq_iff_eq, beq_iff_eq, p.place_inj]
      exact pure hplace.symm

theorem operate (op : Operator) (hv : p.Same m v v') (hw : p.Same m w w') :
    p.Mirrors m (fun _ => Eq) (op.apply invoke v w) (op.apply invoke v' w') := by
  cases op with
  | eq | ne => exact mapEq _ (looselyEquals h hv hw)
  | relation r => exact mapEq _ (relate h r hv hw)
  | add => exact add h hv hw
  | arithmetic op => exact arithmetic h op hv hw

theorem builtin (b : Builtin) (hargs : p.SameAll m args args') :
    p.Mirrors m p.Same (b.run invoke args) (b.run invoke args') := by
  cases hargs with
  | nil => cases b <;> exact pure (.primitive _)
  | cons hv => cases b <;> exact mapPrimitive (cast h _ hv)

theorem builtin_eq (b : Builtin) (hargs : p.SameAll m args args') :
    p.Mirrors m (fun _ => Eq) (b.run invoke args) (b.run invoke args') := by
  cases hargs with
  | nil => cases b <;> exact pure rfl
  | cons hv => cases b <;> exact mapEq _ (cast h _ hv)

end Conversions

theorem member (hv : p.Same m v v') (name : String) :
    p.Mirrors m p.Same (v.member name) (v'.member name) := by
  cases hv with
  | primitive q => exact fail _
  | object =>
    apply object
    intro o ho
    cases o with
    | plain | function => exact fail _
    | record r =>
      simp only [Object.member, Record.member]
      split
      · next v hv => exact constant (ho.field rfl hv)
      · split
        · next f hf =>
          obtain ⟨c, -, hc⟩ := Option.bind_eq_some_iff.1 hf
          exact allocate (Object.closed_function (ho.conversion hc))
        · exact fail _

theorem call (h : p.Invokes invoke) (hv : p.Same m v v') (hr : p.Same m receiver receiver')
    (hargs : p.SameAll m args args') :
    p.Mirrors m p.Same (v.call invoke receiver args) (v'.call invoke receiver' args') := by
  cases hv with
  | primitive q => exact fail _
  | object =>
    apply object
    intro o ho
    unfold Object.call
    split
    · next f hf => exact h f (ho.method hf) hr hargs
    · exact fail _

mutual

theorem script (h : p.Invokes invoke) : (b : Script Value) →
    b.Within p.allowance (Value.Below p.start) → ∀ {m frame frame'}, p.SameFrame m frame frame' →
    p.Mirrors m p.Same (b.run invoke frame) (b.run invoke frame')
  | .ret _, .ret hv, _, _, _, _ => constant hv
  | .receiver, _, _, _, _, hframe => pure hframe.receiver
  | .fresh, _, _, _, _, _ => allocate (Object.closed_record Record.closed_empty)
  | .member target name, .member ht, _, _, _, hframe =>
    bind (script h target ht hframe) fun _ _ _ _ hv => member hv name
  | .method target name args, .method _ ht hargs, _, _, _, hframe =>
    bind (script h target ht hframe) fun _ _ _ hm hv =>
      bind (member hv name) fun _ _ _ hm' hf =>
        bind (scripts h args hargs ((hframe.mono hm).mono hm')) fun _ _ _ hm'' hvs =>
          call h (hf.mono hm'') ((hv.mono hm').mono hm'') hvs
  | .fail _, _, _, _, _, _ => fail _
  | .byHint string number default, .byHint hs hn hd, _, _, _, hframe => by
    simp only [Script.run, hframe.hint]
    split
    · exact script h string hs hframe
    · exact script h number hn hframe
    · exact script h default hd hframe
    · exact script h default hd hframe
  | .coerce target wanted, .coerce ht, _, _, _, hframe => by
    simp only [Script.run, hframe.hint]
    exact bind (script h target ht hframe) fun _ _ _ _ hv => mapPrimitive (reduce h hv _)
  | .count counter, _, _, _, _, _ => bindEq (count counter) fun _ _ _ => pure (.primitive _)
  | .sequence counter parts, .sequence hparts, _, _, _, hframe =>
    bindEq (count counter) fun _ n hm => scriptAt h (n - 1) parts hparts (hframe.mono hm)
  | .cast c operand, .cast ho, _, _, _, hframe =>
    bind (script h operand ho hframe) fun _ _ _ _ hv => mapPrimitive (cast h c hv)
  | .operate op left right, .operate hl hr, _, _, _, hframe =>
    bind (script h left hl hframe) fun _ _ _ hm hv =>
      bind (script h right hr (hframe.mono hm)) fun _ _ _ hm' hw =>
        mapPrimitive (operate h op (hv.mono hm') hw)
  | .depth, _, _, _, _, _ => depth
  | .hint, _, _, frame, _, hframe => by
    simp only [Script.run, hframe.hint]
    cases frame.hint with
    | none | some => exact pure (.primitive _)
  | .argument i, _, _, _, _, hframe => pure (hframe.args.getD_undefined i)
  | .argumentCount, _, _, _, _, hframe => by
    simp only [Script.run, hframe.args.length_eq]
    exact pure (.primitive _)
  | .read _, .read hx, _, _, _, _ => lookup hx fun found hfound => by
    cases found with
    | none => exact pure (.primitive _)
    | some v => exact constant (hfound v rfl)

theorem scripts (h : p.Invokes invoke) : (bs : List (Script Value)) →
    (∀ b ∈ bs, b.Within p.allowance (Value.Below p.start)) →
    ∀ {m frame frame'}, p.SameFrame m frame frame' →
    p.Mirrors m p.SameAll (Script.runAll invoke frame bs) (Script.runAll invoke frame' bs)
  | [], _, _, _, _, _ => pure .nil
  | b :: bs, hbs, _, _, _, hframe =>
    bind (script h b (hbs b (.head _)) hframe) fun _ _ _ hm hv =>
      bind (scripts h bs (fun c hc => hbs c (.tail _ hc)) (hframe.mono hm)) fun _ _ _ hm' hvs =>
        pure (.cons (hv.mono hm') hvs)

theorem scriptAt (h : p.Invokes invoke) : (n : Nat) → (bs : List (Script Value)) →
    (∀ b ∈ bs, b.Within p.allowance (Value.Below p.start)) →
    ∀ {m frame frame'}, p.SameFrame m frame frame' →
    p.Mirrors m p.Same (Script.runAt invoke frame n bs) (Script.runAt invoke frame' n bs)
  | _, [], _, _, _, _, _ => pure (.primitive _)
  | 0, [b], hbs, _, _, _, hframe => script h b (hbs b (.head _)) hframe
  | _ + 1, [b], hbs, _, _, _, hframe => script h b (hbs b (.head _)) hframe
  | 0, b :: _ :: _, hbs, _, _, _, hframe => script h b (hbs b (.head _)) hframe
  | n + 1, _ :: b :: bs, hbs, _, _, _, hframe =>
    scriptAt h n (b :: bs) (fun c hc => hbs c (.tail _ hc)) hframe

end

theorem inherited (c : Conversion) (hr : p.Same m receiver receiver') :
    p.Mirrors m p.Same (c.inherited receiver) (c.inherited receiver') := by
  cases c with
  | valuate => exact pure hr
  | stringify =>
    cases hr with
    | primitive q => exact pure (.primitive _)
    | object => exact object fun _ _ => pure (.primitive _)

end Mirrors

theorem accept_eq (role : Role) (h : p.SameAll m args args') :
    role.accept args' = role.accept args := by
  cases h with
  | nil => rfl
  | cons hv hvs =>
    cases hvs with
    | nil => cases hv <;> cases role <;> rfl
    | cons =>
      cases hv with
      | primitive q => cases q <;> cases role <;> rfl
      | object => cases role <;> rfl

theorem Invokes.method (h : p.Invokes invoke) : p.Invokes (Method.run invoke) := by
  intro f hf m receiver receiver' args args' hr hargs
  cases f with
  | inherited c => exact Mirrors.inherited c hr
  | builtin b => exact Mirrors.builtin h b hargs
  | routine role r =>
    simp only [Method.run, accept_eq role hargs]
    apply Mirrors.bindEq (Mirrors.ofExcept _)
    intro m' hint hm
    have hcount : role.argCount args' = role.argCount args := by
      cases role <;> first | rfl | exact hargs.length_eq
    simp only [Routine.run, hcount]
    exact Mirrors.traced (fun depth => ⟨r.id, role, hint, depth, role.argCount args⟩)
      (Mirrors.script h r.body hf ⟨hr.mono hm, hargs.mono hm, rfl⟩)

theorem invokes_within (budget : Nat) : p.Invokes (invokeWithin budget) := by
  induction budget with
  | zero =>
    intro f _ m receiver receiver' args args' _ _
    exact Mirrors.stop _
  | succ budget ih => exact ih.method

namespace Mirrors

theorem find {x : String} (hx : p.allowance.reads x) :
    p.Mirrors m p.SameBinding (Binding.find x) (Binding.find x) := by
  apply lookup hx
  intro found hfound
  cases found with
  | some v =>
    intro limit s t hm hbeside
    exact pure (.bound (same_of_below (hfound v rfl) (hm ▸ hbeside.size))) limit s t hm hbeside
  | none =>
    dsimp only
    split
    · exact pure (.builtin _)
    · exact fail _

theorem toValue {b b' : Binding} (hb : p.SameBinding m b b') :
    p.Mirrors m p.Same b.toValue b'.toValue := by
  cases hb with
  | bound h => exact pure h
  | builtin b => exact allocate (Object.closed_function trivial)

theorem callBinding (h : p.Invokes invoke) {b b' : Binding} (hb : p.SameBinding m b b')
    (hargs : p.SameAll m args args') :
    p.Mirrors m p.Same (b.call invoke args) (b'.call invoke args') := by
  cases hb with
  | bound hv => exact call h hv (.primitive _) hargs
  | builtin b => exact builtin h b hargs

mutual

theorem eval (h : p.Invokes invoke) : (e : Expr) → e.Within p.allowance → ∀ {m},
    p.Mirrors m p.Same (e.eval invoke) (e.eval invoke)
  | .literal _, _, _ => pure (.primitive _)
  | .name _, hx, _ => bind (find hx) fun _ _ _ _ hb => toValue hb
  | .member object field, ho, _ => bind (eval h object ho) fun _ _ _ _ hv => member hv field
  | .index object key, ⟨ho, hk⟩, _ =>
    bind (eval h object ho) fun _ _ _ _ hv => bind (eval h key hk) fun _ _ _ hm hw =>
      bindEq (toText h hw _) fun _ name hm' => member ((hv.mono hm).mono hm') name
  | .call (.member object field) args, ⟨ho, hargs⟩, _ =>
    bind (eval h object ho) fun _ _ _ _ hv => bind (member hv field) fun _ _ _ hm hf =>
      bind (evalAll h args hargs) fun _ _ _ hm' hvs =>
        call h (hf.mono hm') ((hv.mono hm).mono hm') hvs
  | .call (.index object key) args, ⟨⟨ho, hk⟩, hargs⟩, _ =>
    bind (eval h object ho) fun _ _ _ _ hv => bind (eval h key hk) fun _ _ _ hm₁ hw =>
      bindEq (toText h hw _) fun _ name hm₂ =>
        bind (member ((hv.mono hm₁).mono hm₂) name) fun _ _ _ hm₃ hf =>
          bind (evalAll h args hargs) fun _ _ _ hm₄ hvs =>
            call h (hf.mono hm₄) ((((hv.mono hm₁).mono hm₂).mono hm₃).mono hm₄) hvs
  | .call (.name _) args, ⟨hx, hargs⟩, _ =>
    bind (find hx) fun _ _ _ _ hb => bind (evalAll h args hargs) fun _ _ _ hm hvs =>
      callBinding h (hb.mono hm) hvs
  | .call (.literal q) args, ⟨hcallee, hargs⟩, _ =>
    bind (eval h (.literal q) hcallee) fun _ _ _ _ hf =>
      bind (evalAll h args hargs) fun _ _ _ hm hvs => call h (hf.mono hm) (.primitive _) hvs
  | .call (.call callee inner) args, ⟨hcallee, hargs⟩, _ =>
    bind (eval h (.call callee inner) hcallee) fun _ _ _ _ hf =>
      bind (evalAll h args hargs) fun _ _ _ hm hvs => call h (hf.mono hm) (.primitive _) hvs
  | .call (.unary sign operand) args, ⟨hcallee, hargs⟩, _ =>
    bind (eval h (.unary sign operand) hcallee) fun _ _ _ _ hf =>
      bind (evalAll h args hargs) fun _ _ _ hm hvs => call h (hf.mono hm) (.primitive _) hvs
  | .call (.binary op left right) args, ⟨hcallee, hargs⟩, _ =>
    bind (eval h (.binary op left right) hcallee) fun _ _ _ _ hf =>
      bind (evalAll h args hargs) fun _ _ _ hm hvs => call h (hf.mono hm) (.primitive _) hvs
  | .unary _ operand, ho, _ =>
    bind (eval h operand ho) fun _ _ _ _ hv => mapPrimitive (cast h _ hv)
  | .binary op left right, ⟨hl, hr⟩, _ =>
    bind (eval h left hl) fun _ _ _ _ hv => bind (eval h right hr) fun _ _ _ hm hw =>
      mapPrimitive (operate h op (hv.mono hm) hw)

theorem evalAll (h : p.Invokes invoke) : (es : List Expr) → Expr.AllWithin p.allowance es → ∀ {m},
    p.Mirrors m p.SameAll (Expr.evalAll invoke es) (Expr.evalAll invoke es)
  | [], _, _ => pure .nil
  | e :: es, ⟨he, hes⟩, _ =>
    bind (eval h e he) fun _ _ _ _ hv => bind (evalAll h es hes) fun _ _ _ hm hvs =>
      pure (.cons (hv.mono hm) hvs)

end

theorem callMember (h : p.Invokes invoke) (hv : p.Same m v v') (name : String) {es : List Expr}
    (hes : Expr.AllWithin p.allowance es) :
    p.Mirrors m p.Same
      (do
        let f ← v.member name
        let vs ← Expr.evalAll invoke es
        f.call invoke v vs)
      (do
        let f ← v'.member name
        let vs ← Expr.evalAll invoke es
        f.call invoke v' vs) :=
  bind (member hv name) fun _ _ _ hm hf => bind (evalAll h es hes) fun _ _ _ hm' hvs =>
    call h (hf.mono hm') ((hv.mono hm).mono hm') hvs

end Mirrors

theorem invokes_builtin (budget : Nat) (b : Builtin) (hargs : p.SameAll m args args') :
    p.Mirrors m (fun _ => Eq) (invokeWithin budget (.builtin b) receiver args)
      (invokeWithin budget (.builtin b) receiver' args') := by
  cases budget with
  | zero => exact Mirrors.stop _
  | succ budget => exact Mirrors.builtin_eq (invokes_within budget) b hargs

end Coercive.Surplus
