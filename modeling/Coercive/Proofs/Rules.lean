import Coercive.Proofs.Allowance
import Coercive.Proofs.Sparing

namespace Coercive

variable {α β : Type}

/-- A relation between computations that passes from the parts to the whole. -/
structure Laws where
  holds {α : Type} : Run α → Run α → Prop
  pure {α : Type} (v : α) : holds (Pure.pure v) (Pure.pure v)
  fail {α : Type} (f : Failure) : holds (Run.fail f : Run α) (Run.fail f)
  bind {α β : Type} {x y : Run α} {f g : α → Run β} (h : holds x y)
    (hnext : ∀ v, holds (f v) (g v)) : holds (x >>= f) (y >>= g)

namespace Laws

variable (L : Laws) {invoke invoke' : Invoker}

def Reduces (invoke invoke' : Invoker) : Prop :=
  ∀ (v : Value) (hint : Hint), L.holds (v.reduce invoke hint) (v.reduce invoke' hint)

variable {L}

theorem map {x y : Run α} (f : α → β) (h : L.holds x y) : L.holds (f <$> x) (f <$> y) :=
  L.bind h fun v => L.pure (f v)

theorem ofExcept (e : Except Failure α) : L.holds (Run.ofExcept e) (Run.ofExcept e) := by
  cases e with
  | ok v => exact L.pure v
  | error f => exact L.fail f

theorem ofMismatch (e : Except Mismatch α) : L.holds (Run.ofMismatch e) (Run.ofMismatch e) := by
  cases e with
  | ok v => exact L.pure v
  | error m => exact L.fail _

theorem askHook (o : Object) {receiver : Value} {hint : Hint} {hook : Method}
    (h : L.holds (invoke hook receiver [.string hint.name])
      (invoke' hook receiver [.string hint.name])) :
    L.holds (o.askHook invoke receiver hint hook) (o.askHook invoke' receiver hint hook) := by
  refine L.bind h fun v => ?_
  cases v with
  | primitive p => exact L.pure p
  | object ref => exact L.fail _

theorem askEach {o : Object} {receiver : Value}
    (h : ∀ c m, o.conversion? c = some m →
      L.holds (invoke m receiver []) (invoke' m receiver []))
    (cs : List Conversion) :
    L.holds (o.askEach invoke receiver cs) (o.askEach invoke' receiver cs) := by
  induction cs with
  | nil => exact L.fail _
  | cons c rest ih =>
    simp only [Object.askEach]
    split
    · exact ih
    · next m hm =>
      refine L.bind (h c m hm) fun v => ?_
      cases v with
      | primitive p => exact L.pure p
      | object ref => exact ih

theorem reduceObject {o : Object} {receiver : Value}
    (hhook : ∀ m args, o.hook? = some m →
      L.holds (invoke m receiver args) (invoke' m receiver args))
    (h : ∀ c m, o.hook? = none → o.conversion? c = some m →
      L.holds (invoke m receiver []) (invoke' m receiver []))
    (hint : Hint) :
    L.holds (o.reduce invoke receiver hint) (o.reduce invoke' receiver hint) := by
  unfold Object.reduce
  split
  · next m hm => exact askHook o (hhook m _ hm)
  · next hnone => exact askEach (fun c m hm => h c m hnone hm) _

section Conversions

variable (h : L.Reduces invoke invoke')

include h

theorem toNumber (v : Value) (context : Context) :
    L.holds (v.toNumber invoke context) (v.toNumber invoke' context) :=
  L.bind (h v _) fun _ => ofMismatch _

theorem toText (v : Value) (context : Context) :
    L.holds (v.toText invoke context) (v.toText invoke' context) :=
  L.bind (h v _) fun _ => ofMismatch _

theorem showText (v : Value) : L.holds (v.showText invoke) (v.showText invoke') := by
  refine L.bind (h v _) fun p => ?_
  cases p with
  | symbol s => exact L.pure _
  | _ => exact ofMismatch _

theorem cast (c : Cast) (v : Value) : L.holds (c.apply invoke v) (c.apply invoke' v) := by
  cases c with
  | number | plus | negate => exact map _ (toNumber h v _)
  | string => exact map _ (showText h v)
  | output | key => exact map _ (toText h v _)

theorem add (v w : Value) : L.holds (v.add invoke w) (v.add invoke' w) :=
  L.bind (h v _) fun _ => L.bind (h w _) fun _ => ofMismatch _

theorem arithmetic (op : Arithmetic) (v w : Value) :
    L.holds (v.arithmetic invoke op w) (v.arithmetic invoke' op w) :=
  L.bind (toNumber h v _) fun _ => L.bind (toNumber h w _) fun _ => L.pure _

theorem relate (r : Relation) (v w : Value) :
    L.holds (v.relate invoke r w) (v.relate invoke' r w) :=
  L.bind (h v _) fun _ => L.bind (h w _) fun _ => ofMismatch _

theorem looselyEquals (v w : Value) :
    L.holds (v.looselyEquals invoke w) (v.looselyEquals invoke' w) := by
  cases v with
  | primitive p =>
    cases w with
    | primitive q => exact ofMismatch _
    | object b =>
      simp only [Value.looselyEquals]
      split
      · exact L.pure _
      · exact L.bind (h _ _) fun _ => ofMismatch _
  | object a =>
    cases w with
    | primitive q =>
      simp only [Value.looselyEquals]
      split
      · exact L.pure _
      · exact L.bind (h _ _) fun _ => ofMismatch _
    | object b => exact L.pure _

theorem operate (op : Operator) (v w : Value) :
    L.holds (op.apply invoke v w) (op.apply invoke' v w) := by
  cases op with
  | eq | ne => exact map _ (looselyEquals h v w)
  | relation r => exact map _ (relate h r v w)
  | add => exact add h v w
  | arithmetic op => exact arithmetic h op v w

theorem builtin (b : Builtin) (args : List Value) :
    L.holds (b.run invoke args) (b.run invoke' args) := by
  cases b with
  | number =>
    cases args with
    | nil => exact L.pure _
    | cons v _ => exact map _ (cast h _ v)
  | string =>
    cases args with
    | nil => exact L.pure _
    | cons v _ => exact map _ (cast h _ v)

end Conversions

end Laws

/-- Laws for what bodies do by themselves. Variables that they read and objects that they make keep
to the allowance. -/
structure BodyRules (a : Allowance) extends Laws where
  lookup {x : String} (h : a.reads x) : holds (Run.lookup? x) (Run.lookup? x)
  allocate {o : Object} (h : o.Within a) : holds (Run.allocate o) (Run.allocate o)
  count (counter : Nat) : holds (Run.count counter) (Run.count counter)
  depth : holds (do return Value.number (.ofNat (← Run.get).depth))
    (do return Value.number (.ofNat (← Run.get).depth))
  traced (call : Nat → Call) (hcall : ∀ depth, (call depth).depth = depth) {x y : Run Value}
    (h : holds x y) : holds (Run.get >>= fun s => Run.traced (call s.depth) x)
      (Run.get >>= fun s => Run.traced (call s.depth) y)

namespace BodyRules

open Laws

variable {a : Allowance} {L : BodyRules a} {access access' : Accessor} {invoke invoke' : Invoker}

/-- What bodies ask of objects is related: conversions, members and calls of methods. -/
structure Serves (L : BodyRules a) (access access' : Accessor) (invoke invoke' : Invoker) :
    Prop where
  reduces : L.Reduces invoke invoke'
  member (v : Value) (name : String) : L.holds (access v name) (access' v name)
  method (hallowed : a.calls) (v : Value) (name : String) {args args' : Run (List Value)}
    (hargs : L.holds args args') :
    L.holds (access v name >>= fun f => args >>= fun vs => f.call invoke v vs)
      (access' v name >>= fun f => args' >>= fun vs => f.call invoke' v vs)

mutual

theorem script (h : L.Serves access access' invoke invoke') (frame : Frame) :
    (b : Script Value) → b.Within a (fun _ => True) →
    L.holds (b.runThrough access invoke frame) (b.runThrough access' invoke' frame)
  | .ret v, _ => L.pure v
  | .receiver, _ => L.pure _
  | .fresh, _ => L.allocate Record.within_empty
  | .member target name, .member ht => L.bind (script h frame target ht) fun v => h.member v name
  | .method target name args, .method hallowed ht hargs =>
    L.bind (script h frame target ht) fun v =>
      h.method hallowed v name (scripts h frame args hargs)
  | .fail _, _ => L.fail _
  | .byHint string number default, .byHint hs hn hd => by
    simp only [Script.runThrough]
    split
    · exact script h frame string hs
    · exact script h frame number hn
    · exact script h frame default hd
    · exact script h frame default hd
  | .coerce target wanted, .coerce ht =>
    L.bind (script h frame target ht) fun v => map _ (h.reduces v _)
  | .count counter, _ => L.bind (L.count counter) fun _ => L.pure _
  | .sequence counter parts, .sequence hparts =>
    L.bind (L.count counter) fun n => scriptAt h frame (n - 1) parts hparts
  | .cast c operand, .cast ho =>
    L.bind (script h frame operand ho) fun v => map _ (cast h.reduces c v)
  | .operate op left right, .operate hl hr =>
    L.bind (script h frame left hl) fun v =>
      L.bind (script h frame right hr) fun w => map _ (operate h.reduces op v w)
  | .depth, _ => L.depth
  | .hint, _ => L.pure _
  | .argument _, _ => L.pure _
  | .argumentCount, _ => L.pure _
  | .read _, .read hx => L.bind (L.lookup hx) fun _ => L.pure _

theorem scripts (h : L.Serves access access' invoke invoke') (frame : Frame) :
    (bs : List (Script Value)) → (∀ b ∈ bs, b.Within a fun _ => True) →
    L.holds (Script.runAllThrough access invoke frame bs)
      (Script.runAllThrough access' invoke' frame bs)
  | [], _ => L.pure _
  | b :: bs, hbs =>
    L.bind (script h frame b (hbs b (.head _))) fun _ =>
      L.bind (scripts h frame bs fun c hc => hbs c (.tail _ hc)) fun _ => L.pure _

theorem scriptAt (h : L.Serves access access' invoke invoke') (frame : Frame) :
    (n : Nat) → (bs : List (Script Value)) → (∀ b ∈ bs, b.Within a fun _ => True) →
    L.holds (Script.runAtThrough access invoke frame n bs)
      (Script.runAtThrough access' invoke' frame n bs)
  | _, [], _ => L.pure _
  | 0, [b], hbs => script h frame b (hbs b (.head _))
  | _ + 1, [b], hbs => script h frame b (hbs b (.head _))
  | 0, b :: _ :: _, hbs => script h frame b (hbs b (.head _))
  | n + 1, _ :: b :: bs, hbs => scriptAt h frame n (b :: bs) fun c hc => hbs c (.tail _ hc)

end

theorem method (h : L.Serves access access' invoke invoke') {m : Method} (hm : m.Within a)
    {receiver : Value} (args : List Value)
    (hinherited : ∀ c, m = .inherited c → L.holds (c.inherited receiver) (c.inherited receiver)) :
    L.holds (Method.runThrough access invoke m receiver args)
      (Method.runThrough access' invoke' m receiver args) := by
  cases m with
  | inherited c => exact hinherited c rfl
  | builtin b => exact builtin h.reduces b args
  | routine role r =>
    exact L.bind (ofExcept _) fun hint =>
      L.traced (fun depth => ⟨r.id, role, hint, depth, role.argCount args⟩) (fun _ => rfl)
        (script h ⟨receiver, args, hint⟩ r.body hm)

end BodyRules

/-- Laws under which everything that runs is related. Objects that are looked up keep to the
allowance, too. -/
structure Rules (a : Allowance) extends BodyRules a where
  object {α : Type} (ref : Nat) {f g : Object → Run α}
    (hnext : ∀ o, o.Within a → holds (f o) (g o)) :
    holds (Run.object ref >>= f) (Run.object ref >>= g)

namespace Rules

open Laws

variable {a : Allowance} (L : Rules a) {invoke invoke' : Invoker}

def Invokes (invoke invoke' : Invoker) : Prop :=
  ∀ m : Method, m.Within a → ∀ receiver args,
    L.holds (invoke m receiver args) (invoke' m receiver args)

variable {L}

theorem reduceObject (h : L.Invokes invoke invoke') {o : Object} (ho : o.Within a)
    (receiver : Value) (hint : Hint) :
    L.holds (o.reduce invoke receiver hint) (o.reduce invoke' receiver hint) :=
  Laws.reduceObject (fun m _ hm => h m (ho.hook hm) _ _)
    (fun _ m _ hm => h m (ho.conversion hm) _ _) hint

theorem member (v : Value) (name : String) : L.holds (v.member name) (v.member name) := by
  cases v with
  | primitive p => exact L.fail _
  | object ref =>
    refine L.object ref fun o ho => ?_
    cases o with
    | plain | function => exact L.fail _
    | record r =>
      simp only [Object.member, Record.member]
      split
      · exact L.pure _
      · split
        · next m hm =>
          obtain ⟨c, -, hc⟩ := Option.bind_eq_some_iff.1 hm
          exact L.allocate (Record.Within.conversion ho hc)
        · exact L.fail _

theorem call (h : L.Invokes invoke invoke') (f receiver : Value) (args : List Value) :
    L.holds (f.call invoke receiver args) (f.call invoke' receiver args) := by
  cases f with
  | primitive p => exact L.fail _
  | object ref =>
    refine L.object ref fun o ho => ?_
    unfold Object.call
    split
    · next m hm => exact h m (ho.method hm) _ _
    · exact L.fail _

theorem inherited (c : Conversion) (receiver : Value) :
    L.holds (c.inherited receiver) (c.inherited receiver) := by
  cases c with
  | valuate => exact L.pure _
  | stringify =>
    cases receiver with
    | primitive p => exact L.pure _
    | object ref => exact L.object ref fun _ _ => L.pure _

theorem serves (h : L.Reduces invoke invoke') (hcalls : a.calls → L.Invokes invoke invoke') :
    L.Serves Value.member Value.member invoke invoke' where
  reduces := h
  member := member
  method hallowed v name _ _ hargs :=
    L.bind (member v name) fun f => L.bind hargs fun vs => call (hcalls hallowed) f v vs

/-- Methods are related if conversions are, and if the methods are that bodies may call. -/
theorem method (h : L.Reduces invoke invoke') (hcalls : a.calls → L.Invokes invoke invoke') :
    L.Invokes (Method.run invoke) (Method.run invoke') := by
  intro m hm receiver args
  rw [← Method.runThrough_member, ← Method.runThrough_member]
  exact BodyRules.method (serves h hcalls) hm args fun c _ => inherited c receiver

end Rules

end Coercive
