import Coercive.Proofs.Allowance

namespace Coercive

variable {a : Allowance} {n n' : Nat}

/-- A value that refers to none but the first `n` objects. -/
def Value.Below (n : Nat) : Value → Prop
  | .primitive _ => True
  | .object ref => ref < n

theorem Value.Below.mono {v : Value} (h : v.Below n) (hle : n ≤ n') : v.Below n' := by
  cases v with
  | primitive p => trivial
  | object ref => exact Nat.lt_of_lt_of_le h hle

theorem Script.Within.imp {ν : Type} {c c' : ν → Prop} (himp : ∀ v, c v → c' v) {b : Script ν}
    (h : b.Within a c) : b.Within a c' := by
  induction h with
  | ret h => exact .ret (himp _ h)
  | receiver => exact .receiver
  | fresh => exact .fresh
  | member _ ih => exact .member ih
  | method hcalls _ _ ih ihargs => exact .method hcalls ih ihargs
  | fail => exact .fail
  | byHint _ _ _ ihs ihn ihd => exact .byHint ihs ihn ihd
  | coerce _ ih => exact .coerce ih
  | count => exact .count
  | sequence _ ih => exact .sequence ih
  | cast _ ih => exact .cast ih
  | operate _ _ ihl ihr => exact .operate ihl ihr
  | depth => exact .depth
  | hint => exact .hint
  | argument => exact .argument
  | argumentCount => exact .argumentCount
  | read h => exact .read h

theorem Script.Within.and {ν : Type} {a' : Allowance} {c c' : ν → Prop} {b : Script ν}
    (h : b.Within a c) (h' : b.Within a' c') : b.Within a fun v => c v ∧ c' v := by
  induction h with
  | ret h =>
    cases h' with
    | ret h' => exact .ret ⟨h, h'⟩
  | receiver => exact .receiver
  | fresh => exact .fresh
  | member _ ih =>
    cases h' with
    | member h' => exact .member (ih h')
  | method hcalls _ _ ih ihargs =>
    cases h' with
    | method _ h' hargs' => exact .method hcalls (ih h') fun b hb => ihargs b hb (hargs' b hb)
  | fail => exact .fail
  | byHint _ _ _ ihs ihn ihd =>
    cases h' with
    | byHint hs hn hd => exact .byHint (ihs hs) (ihn hn) (ihd hd)
  | coerce _ ih =>
    cases h' with
    | coerce h' => exact .coerce (ih h')
  | count => exact .count
  | sequence _ ih =>
    cases h' with
    | sequence h' => exact .sequence fun b hb => ih b hb (h' b hb)
  | cast _ ih =>
    cases h' with
    | cast h' => exact .cast (ih h')
  | operate _ _ ihl ihr =>
    cases h' with
    | operate hl hr => exact .operate (ihl hl) (ihr hr)
  | depth => exact .depth
  | hint => exact .hint
  | argument => exact .argument
  | argumentCount => exact .argumentCount
  | read h => exact .read h

/-- The body of a method keeps to the allowance, and its constants refer to the first `n`
objects. -/
def Routine.Closed (a : Allowance) (n : Nat) (r : Routine) : Prop := r.body.Within a (Value.Below n)

def Method.Closed (a : Allowance) (n : Nat) : Method → Prop
  | .inherited _ => True
  | .builtin _ => True
  | .routine _ r => r.Closed a n

structure Record.Closed (a : Allowance) (n : Nat) (r : Record) : Prop where
  hook : ∀ routine, r.hook = some routine → routine.Closed a n
  slot : ∀ c routine, r.slot c = .custom routine → routine.Closed a n
  field : ∀ name v, r.fields.get? name = some v → v.Below n

theorem Record.closed_empty : ({} : Record).Closed a n where
  hook := nofun
  slot c routine hcustom := by
    cases c with
    | stringify | valuate => cases hcustom
  field := nofun

/-- All that can be found in an object is closed. -/
structure Object.Closed (a : Allowance) (n : Nat) (o : Object) : Prop where
  hook : ∀ {m}, o.hook? = some m → m.Closed a n
  conversion : ∀ {c m}, o.conversion? c = some m → m.Closed a n
  method : ∀ {m}, o.method? = some m → m.Closed a n
  field : ∀ {r : Record} {name v}, o = .record r → r.fields.get? name = some v → v.Below n

/-- All that can be found in a state is closed with respect to its first `n` objects. -/
structure State.Closed (a : Allowance) (n : Nat) (s : State) : Prop where
  object : ∀ ref, (s.object ref).Closed a n
  scope : ∀ {x v}, s.scope.get? x = some v → v.Below n

/-- Nothing that can be found in a state refers to an object that there is not. -/
def State.WellFormed (s : State) : Prop := s.Closed .all s.objects.size

theorem Method.Closed.within {m : Method} (h : m.Closed .all n) (hm : m.Within a) :
    m.Closed a n := by
  cases m with
  | inherited | builtin => trivial
  | routine role r => exact (Script.Within.and hm h).imp fun _ hv => hv.2

theorem Method.Closed.mono {m : Method} (h : m.Closed a n) (hle : n ≤ n') : m.Closed a n' := by
  cases m with
  | inherited | builtin => trivial
  | routine role r => exact Script.Within.imp (fun _ hv => hv.mono hle) h

namespace Object

theorem Closed.mono {o : Object} (h : o.Closed a n) (hle : n ≤ n') : o.Closed a n' where
  hook hm := (h.hook hm).mono hle
  conversion hm := (h.conversion hm).mono hle
  method hm := (h.method hm).mono hle
  field hr hv := (h.field hr hv).mono hle

theorem Closed.within {o : Object} (h : o.Closed .all n) (ho : o.Within a) : o.Closed a n where
  hook hm := (h.hook hm).within (ho.hook hm)
  conversion hm := (h.conversion hm).within (ho.conversion hm)
  method hm := (h.method hm).within (ho.method hm)
  field := h.field

theorem closed_function {m : Method} (h : m.Closed a n) : (Object.function m).Closed a n where
  hook hm := nomatch hm
  conversion hm := by
    cases hm
    trivial
  method hm := by
    cases hm
    exact h
  field hr := nomatch hr

theorem closed_plain (typeName className : String) :
    (Object.plain typeName className).Closed a n where
  hook hm := nomatch hm
  conversion hm := by
    cases hm
    trivial
  method hm := nomatch hm
  field hr := nomatch hr

theorem closed_record {r : Record} (h : r.Closed a n) : (Object.record r).Closed a n where
  hook hm := by
    obtain ⟨routine, hroutine, rfl⟩ := Option.map_eq_some_iff.1 hm
    exact h.hook routine hroutine
  conversion {c m} hm := by
    change r.conversion? c = some m at hm
    unfold Record.conversion? at hm
    split at hm
    · cases hm
      trivial
    · cases hm
    · next routine hcustom =>
      cases hm
      exact h.slot c routine hcustom
  method hm := nomatch hm
  field hr hv := by
    cases hr
    exact h.field _ _ hv

end Object

namespace State.Closed

variable {s : State}

theorem mono (h : s.Closed a n) (hle : n ≤ n') : s.Closed a n' where
  object ref := (h.object ref).mono hle
  scope hv := (h.scope hv).mono hle

theorem within (h : s.Closed .all n) (hs : s.Within a) : s.Closed a n where
  object ref := (h.object ref).within (hs ref)
  scope := h.scope

theorem of_eq {t : State} (h : s.Closed a n) (hobjects : t.objects = s.objects)
    (hscope : t.scope = s.scope) : t.Closed a n where
  object ref := by
    have hsame : t.object ref = s.object ref := by rw [State.object, State.object, hobjects]
    rw [hsame]
    exact h.object ref
  scope hv := h.scope (hscope ▸ hv)

theorem push (h : s.Closed a n) {o : Object} (ho : o.Closed a n) :
    { s with objects := s.objects.push o }.Closed a n where
  object ref := by
    rw [object_push]
    split
    · exact ho
    · exact h.object ref
  scope := h.scope

end State.Closed

end Coercive
