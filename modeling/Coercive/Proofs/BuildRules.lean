import Coercive.Proofs.Closedness

namespace Coercive

variable {a : Allowance}

/-- Claims that pass from the parts to the whole where values are built. `holds n P act` is about
`act` where there are `n` objects. `P` is about its value and the number of objects that there are
then, and what is kept of a value is kept when objects are added. -/
structure BuildRules (a : Allowance) where
  keeps : Nat → Value → Prop
  holds {α : Type} : Nat → (Nat → α → Prop) → Run α → Prop
  primitive {n : Nat} (p : Primitive) : keeps n (.primitive p)
  mono {n n' : Nat} {v : Value} (h : keeps n v) (hle : n ≤ n') : keeps n' v
  pure {α : Type} {n : Nat} {P : Nat → α → Prop} {v : α} (h : P n v) : holds n P (Pure.pure v)
  bind {α β : Type} {n : Nat} {P : Nat → α → Prop} {Q : Nat → β → Prop} {act : Run α}
    {next : α → Run β} (h : holds n P act)
    (hnext : ∀ n' v, n ≤ n' → P n' v → holds n' Q (next v)) : holds n Q (act >>= next)
  lookup {n : Nat} {x : String} (hx : a.reads x) :
    holds n (fun n found => ∀ v ∈ found, keeps n v) (Run.lookup? x)
  plain {n : Nat} (typeName className : String) :
    holds n keeps (Run.allocate (.plain typeName className))
  function {n : Nat} (role : Role) {r : Routine} (h : r.body.Within a (keeps n)) :
    holds n keeps (Run.allocate (.function (.routine role r)))
  record {n : Nat} {edits : List Record.Edit} (h : ∀ e ∈ edits, e.Within a (keeps n)) :
    holds n keeps (Run.allocate (.record (.ofEdits edits)))

namespace BuildRules

variable (L : BuildRules a)

def KeepsBody (n : Nat) (body : Script Value) : Prop := body.Within a (L.keeps n)

variable {L}

theorem KeepsBody.mono {n n' : Nat} {body : Script Value} (h : L.KeepsBody n body)
    (hle : n ≤ n') : L.KeepsBody n' body :=
  h.imp fun _ hv => L.mono hv hle

mutual

theorem build {n : Nat} : (b : Blueprint) → b.Within a → L.holds n L.keeps b.build
  | .primitive p, _ => L.pure (L.primitive p)
  | .read x, .read hx => L.bind (L.lookup hx) fun _ found _ hfound => by
    cases found with
    | none => exact L.pure (L.primitive _)
    | some v => exact L.pure (hfound v rfl)
  | .plain typeName className, _ => L.plain typeName className
  | .function role _ body, .function hbody =>
    L.bind (buildScript body hbody) fun _ _ _ hc => L.function role hc
  | .record id className fields hook stringify valuate, .record hf hh hs hv =>
    L.bind (buildFields fields hf) fun _ _ _ hf => L.bind (buildHook hook hh) fun _ _ hle hh =>
      L.bind (buildSlot stringify hs) fun _ _ hle' hs =>
        L.bind (buildSlot valuate hv) fun _ _ hle'' hv =>
          L.record (Record.forall_mem_edits id className trivial (fun _ => trivial)
            (fun f h => L.mono (L.mono (L.mono (hf f h) hle) hle') hle'')
            (fun c h => ((hh c h).mono hle').mono hle'') (fun c h => (hs c h).mono hle'') hv)

theorem buildFields {n : Nat} : (fields : List (String × Blueprint)) →
    (∀ f ∈ fields, f.2.Within a) →
    L.holds n (fun n built => ∀ f ∈ built, L.keeps n f.2) (Blueprint.buildFields fields)
  | [], _ => L.pure (by simp)
  | (_, b) :: rest, h =>
    L.bind (build b (h _ (.head _))) fun _ _ _ hv =>
      L.bind (buildFields rest fun f hf => h f (.tail _ hf)) fun _ _ hle hvs =>
        L.pure (List.forall_mem_cons.2 ⟨L.mono hv hle, hvs⟩)

theorem buildHook {n : Nat} : (hook : Option (Script Blueprint)) →
    (∀ body, hook = some body → body.Within a (Blueprint.Within a)) →
    L.holds n (fun n built => ∀ c ∈ built, L.KeepsBody n c) (Blueprint.buildHook hook)
  | none, _ => L.pure (by simp)
  | some body, h =>
    L.bind (buildScript body (h body rfl)) fun _ _ _ hc => L.pure (by simpa using hc)

theorem buildSlot {n : Nat} : (slot : Slot (Script Blueprint)) →
    (∀ body, slot = .custom body → body.Within a (Blueprint.Within a)) →
    L.holds n (fun n built => ∀ c, built = .custom c → L.KeepsBody n c) (Blueprint.buildSlot slot)
  | .inherited, _ => L.pure nofun
  | .removed, _ => L.pure nofun
  | .custom body, h =>
    L.bind (buildScript body (h body rfl)) fun _ _ _ hc => L.pure (by simpa using hc)

theorem buildScript {n : Nat} : (b : Script Blueprint) → b.Within a (Blueprint.Within a) →
    L.holds n L.KeepsBody (Blueprint.buildScript b)
  | .ret b, .ret hb => L.bind (build b hb) fun _ _ _ hv => L.pure (.ret hv)
  | .receiver, _ => L.pure .receiver
  | .fresh, _ => L.pure .fresh
  | .member target _, .member ht =>
    L.bind (buildScript target ht) fun _ _ _ h => L.pure (.member h)
  | .method target _ args, .method hcalls ht hargs =>
    L.bind (buildScript target ht) fun _ _ _ h => L.bind (buildScripts args hargs)
      fun _ _ hle hs => L.pure (.method hcalls (h.mono hle) hs)
  | .fail _, _ => L.pure .fail
  | .byHint string number default, .byHint hs hn hd =>
    L.bind (buildScript string hs) fun _ _ _ hs => L.bind (buildScript number hn)
      fun _ _ hle hn => L.bind (buildScript default hd) fun _ _ hle' hd =>
        L.pure (.byHint ((hs.mono hle).mono hle') (hn.mono hle') hd)
  | .coerce target _, .coerce ht =>
    L.bind (buildScript target ht) fun _ _ _ h => L.pure (.coerce h)
  | .count _, _ => L.pure .count
  | .sequence _ parts, .sequence hparts =>
    L.bind (buildScripts parts hparts) fun _ _ _ hs => L.pure (.sequence hs)
  | .cast _ operand, .cast ho =>
    L.bind (buildScript operand ho) fun _ _ _ h => L.pure (.cast h)
  | .operate _ left right, .operate hl hr =>
    L.bind (buildScript left hl) fun _ _ _ hl => L.bind (buildScript right hr)
      fun _ _ hle hr => L.pure (.operate (hl.mono hle) hr)
  | .depth, _ => L.pure .depth
  | .hint, _ => L.pure .hint
  | .argument _, _ => L.pure .argument
  | .argumentCount, _ => L.pure .argumentCount
  | .read _, .read hx => L.pure (.read hx)

theorem buildScripts {n : Nat} : (bs : List (Script Blueprint)) →
    (∀ b ∈ bs, b.Within a (Blueprint.Within a)) →
    L.holds n (fun n cs => ∀ c ∈ cs, L.KeepsBody n c) (Blueprint.buildScripts bs)
  | [], _ => L.pure (by simp)
  | b :: bs, h =>
    L.bind (buildScript b (h b (.head _))) fun _ _ _ hc =>
      L.bind (buildScripts bs fun c hc => h c (.tail _ hc)) fun _ _ hle hcs =>
        L.pure (List.forall_mem_cons.2 ⟨hc.mono hle, hcs⟩)

end

theorem buildAll {n : Nat} {bs : List Blueprint} (h : ∀ b ∈ bs, b.Within a) :
    L.holds n (fun n vs => ∀ v ∈ vs, L.keeps n v) (Blueprint.buildAll bs) := by
  induction bs generalizing n with
  | nil => exact L.pure (by simp)
  | cons b bs ih =>
    exact L.bind (build b (h b (.head _))) fun _ _ _ hv =>
      L.bind (ih fun c hc => h c (.tail _ hc)) fun _ _ hle hvs =>
        L.pure (List.forall_mem_cons.2 ⟨L.mono hv hle, hvs⟩)

end BuildRules

end Coercive
