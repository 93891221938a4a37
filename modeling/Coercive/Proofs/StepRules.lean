import Coercive.Proofs.Rules

namespace Coercive

namespace BodyRules

variable {a : Allowance} {L : BodyRules a}

theorem binding {x : String} (hx : a.reads x) : L.holds (Binding.find x) (Binding.find x) := by
  refine L.bind (L.lookup hx) fun found => ?_
  cases found with
  | some v => exact L.pure _
  | none =>
    dsimp only
    split
    · exact L.pure _
    · exact L.fail _

theorem toValue (b : Binding) : L.holds b.toValue b.toValue := by
  cases b with
  | bound v => exact L.pure v
  | builtin b => exact L.allocate trivial

end BodyRules

namespace Rules

open Laws BodyRules

variable {a : Allowance} {L : Rules a} {invoke invoke' : Invoker}

structure Covers (L : Rules a) (invoke invoke' : Invoker) : Prop where
  reduces : L.Reduces invoke invoke'
  invokes : L.Invokes invoke invoke'

theorem callBinding (h : L.Covers invoke invoke') (b : Binding) (args : List Value) :
    L.holds (b.call invoke args) (b.call invoke' args) := by
  cases b with
  | bound v => exact call h.invokes v _ args
  | builtin b => exact builtin h.reduces b args

mutual

theorem eval (h : L.Covers invoke invoke') : (e : Expr) → e.Within a →
    L.holds (e.eval invoke) (e.eval invoke')
  | .literal _, _ => L.pure _
  | .name _, hx => L.bind (binding hx) fun b => toValue b
  | .member object field, ho => L.bind (eval h object ho) fun v => member v field
  | .index object key, ⟨ho, hk⟩ =>
    L.bind (eval h object ho) fun v => L.bind (eval h key hk) fun w =>
      L.bind (toText h.reduces w _) fun name => member v name
  | .call (.member object field) args, ⟨ho, hargs⟩ =>
    L.bind (eval h object ho) fun v => L.bind (member v field) fun f =>
      L.bind (evalAll h args hargs) fun args => call h.invokes f v args
  | .call (.index object key) args, ⟨⟨ho, hk⟩, hargs⟩ =>
    L.bind (eval h object ho) fun v => L.bind (eval h key hk) fun w =>
      L.bind (toText h.reduces w _) fun name => L.bind (member v name) fun f =>
        L.bind (evalAll h args hargs) fun args => call h.invokes f v args
  | .call (.name _) args, ⟨hx, hargs⟩ =>
    L.bind (binding hx) fun b => L.bind (evalAll h args hargs) fun args => callBinding h b args
  | .call (.literal p) args, ⟨hcallee, hargs⟩ =>
    L.bind (eval h (.literal p) hcallee) fun f =>
      L.bind (evalAll h args hargs) fun args => call h.invokes f _ args
  | .call (.call callee inner) args, ⟨hcallee, hargs⟩ =>
    L.bind (eval h (.call callee inner) hcallee) fun f =>
      L.bind (evalAll h args hargs) fun args => call h.invokes f _ args
  | .call (.unary sign operand) args, ⟨hcallee, hargs⟩ =>
    L.bind (eval h (.unary sign operand) hcallee) fun f =>
      L.bind (evalAll h args hargs) fun args => call h.invokes f _ args
  | .call (.binary op left right) args, ⟨hcallee, hargs⟩ =>
    L.bind (eval h (.binary op left right) hcallee) fun f =>
      L.bind (evalAll h args hargs) fun args => call h.invokes f _ args
  | .unary _ operand, ho => L.bind (eval h operand ho) fun v => map _ (cast h.reduces _ v)
  | .binary op left right, ⟨hl, hr⟩ =>
    L.bind (eval h left hl) fun v => L.bind (eval h right hr) fun w =>
      map _ (operate h.reduces op v w)

theorem evalAll (h : L.Covers invoke invoke') : (es : List Expr) → Expr.AllWithin a es →
    L.holds (Expr.evalAll invoke es) (Expr.evalAll invoke' es)
  | [], _ => L.pure _
  | e :: es, ⟨he, hes⟩ => L.bind (eval h e he) fun _ => L.bind (evalAll h es hes) fun _ => L.pure _

end

theorem describe (v : Value) : L.holds v.describe v.describe := by
  cases v with
  | primitive p => exact L.pure _
  | object ref => exact L.object ref fun _ _ => L.pure _

theorem buildAll (bs : List Blueprint) (hbuild : ∀ b ∈ bs, L.holds b.build b.build) :
    L.holds (Blueprint.buildAll bs) (Blueprint.buildAll bs) := by
  induction bs with
  | nil => exact L.pure _
  | cons b bs ih =>
    exact L.bind (hbuild b (.head _)) fun _ =>
      L.bind (ih fun c hc => hbuild c (.tail _ hc)) fun _ => L.pure _

section Sources

variable (h : L.Covers invoke invoke') (hreads : ∀ x, a.reads x)

include h hreads

theorem fill (t : Template) : L.holds (t.fill invoke) (t.fill invoke') := by
  induction t with
  | text cs => exact L.pure cs
  | hole before e rest ih =>
    exact L.bind (eval h e (e.within_of_reads hreads)) fun v =>
      L.bind (toText h.reduces v _) fun _ => L.bind ih fun _ => L.pure _
  | malformed before source => exact L.fail _

theorem evaluate (source : String) :
    L.holds (Coercive.evaluate invoke source) (Coercive.evaluate invoke' source) :=
  L.bind (ofExcept _) fun e => eval h e (e.within_of_reads hreads)

theorem interpolate (source : String) :
    L.holds (Coercive.interpolate invoke source) (Coercive.interpolate invoke' source) :=
  L.bind (fill h hreads _) fun _ => L.pure _

end Sources

theorem within_handle {o : Object} (ho : o.Within a) {handle : Handle} {m : Method}
    (hm : o.handle? handle = some m) : m.Within a := by
  cases handle with
  | hook => exact ho.hook hm
  | conversion c => exact ho.conversion hm

theorem step (h : L.Covers invoke invoke') (hreads : ∀ x, a.reads x)
    (hassign : ∀ x v, L.holds (Run.assign x v) (Run.assign x v)) (step : Step)
    (hbuild : ∀ b ∈ step.blueprints, L.holds b.build b.build) :
    L.holds (step.run invoke) (step.run invoke') := by
  cases step with
  | evaluate source => exact map _ (evaluate h hreads source)
  | interpolate source => exact map _ (interpolate h hreads source)
  | expression e => exact map _ (eval h e (e.within_of_reads hreads))
  | assign x b =>
    exact L.bind (hbuild b (.head _)) fun v => L.bind (hassign x v) fun _ => L.pure _
  | bind x source =>
    exact L.bind (evaluate h hreads source) fun v => L.bind (hassign x v) fun _ => L.pure _
  | resolve x => exact L.bind (L.lookup (hreads x)) fun _ => L.pure _
  | reduce b hint =>
    exact L.bind (hbuild b (.head _)) fun v => L.bind (h.reduces v hint) fun _ => L.pure _
  | cast c b =>
    exact L.bind (hbuild b (.head _)) fun v => L.bind (cast h.reduces c v) fun _ => L.pure _
  | operate op b c =>
    exact L.bind (hbuild b (.head _)) fun v => L.bind (hbuild c (.tail _ (.head _))) fun w =>
      L.bind (operate h.reduces op v w) fun _ => L.pure _
  | member b name =>
    exact L.bind (hbuild b (.head _)) fun v => L.bind (member v name) fun _ => L.pure _
  | call f receiver args =>
    exact L.bind (hbuild f (.head _)) fun f =>
      L.bind (hbuild receiver (.tail _ (.head _))) fun receiver =>
        L.bind (buildAll args fun b hb => hbuild b (.tail _ (.tail _ hb))) fun args =>
          L.bind (call h.invokes f receiver args) fun _ => L.pure _
  | invoke b handle receiver args =>
    refine L.bind (hbuild b (.head _)) fun v =>
      L.bind (hbuild receiver (.tail _ (.head _))) fun receiver =>
        L.bind (buildAll args fun c hc => hbuild c (.tail _ (.tail _ hc))) fun args => ?_
    cases v with
    | primitive p => exact L.pure _
    | object ref =>
      refine L.object ref fun o ho => ?_
      split
      · exact L.pure _
      · next m hm => exact L.bind (h.invokes m (within_handle ho hm) _ _) fun _ => L.pure _
  | inherited c receiver args =>
    exact L.bind (hbuild receiver (.head _)) fun receiver =>
      L.bind (buildAll args fun b hb => hbuild b (.tail _ hb)) fun args =>
        L.bind (h.invokes (.inherited c) trivial receiver args) fun _ => L.pure _
  | same b c =>
    exact L.bind (hbuild b (.head _)) fun _ =>
      L.bind (hbuild c (.tail _ (.head _))) fun _ => L.pure _
  | describe b =>
    exact L.bind (hbuild b (.head _)) fun v => L.bind (describe v) fun _ => L.pure _

theorem define (hassign : ∀ x v, L.holds (Run.assign x v) (Run.assign x v))
    (definitions : List (String × Blueprint))
    (hbuild : ∀ d ∈ definitions, L.holds d.2.build d.2.build) :
    L.holds (Session.define definitions) (Session.define definitions) := by
  induction definitions with
  | nil => exact L.pure _
  | cons d rest ih =>
    exact L.bind (hbuild d (.head _)) fun v =>
      L.bind (hassign d.1 v) fun _ => ih fun d' hd' => hbuild d' (.tail _ hd')

section Budgets

variable (hnested : ∀ {x y : Run Primitive}, L.holds x y → L.holds x.nested y.nested)

include hnested

theorem reduces (h : L.Invokes invoke invoke') : L.Reduces invoke invoke' := by
  intro v hint
  cases v with
  | primitive p => exact L.pure p
  | object ref => exact hnested (L.object ref fun o ho => reduceObject h ho (.object ref) hint)

theorem covers_within (hstop : L.holds (.stop .exhausted : Run Value) (.stop .exhausted))
    (budget : Nat) : L.Covers (invokeWithin budget) (invokeWithin budget) := by
  induction budget with
  | zero =>
    have hstopped : L.Invokes (invokeWithin 0) (invokeWithin 0) := fun _ _ _ _ => hstop
    exact ⟨reduces hnested hstopped, hstopped⟩
  | succ budget ih =>
    have hmethod : L.Invokes (invokeWithin (budget + 1)) (invokeWithin (budget + 1)) :=
      method ih.reduces fun _ => ih.invokes
    exact ⟨reduces hnested hmethod, hmethod⟩

end Budgets

end Rules

end Coercive
