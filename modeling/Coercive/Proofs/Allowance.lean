import Coercive.Proofs.Edits
import Coercive.Session

namespace Coercive

/-- What the bodies of methods may do besides converting values. -/
structure Allowance where
  /-- Whether they may call methods themselves. -/
  calls : Prop
  /-- The variables that they may read. -/
  reads : String → Prop

def Allowance.all : Allowance where
  calls := True
  reads := fun _ => True

def Allowance.conversions : Allowance where
  calls := False
  reads := fun _ => True

variable {a : Allowance}

/-- A script that keeps to the allowance, and so do the constants that it returns. -/
inductive Script.Within {ν : Type} (a : Allowance) (constant : ν → Prop) : Script ν → Prop
  | ret {v : ν} (h : constant v) : Within a constant (.ret v)
  | receiver : Within a constant .receiver
  | fresh : Within a constant .fresh
  | member {target : Script ν} {name : String} (h : Within a constant target) :
      Within a constant (.member target name)
  | method {target : Script ν} {name : String} {args : List (Script ν)} (hcalls : a.calls)
      (h : Within a constant target) (hargs : ∀ b ∈ args, Within a constant b) :
      Within a constant (.method target name args)
  | fail {message : String} : Within a constant (.fail message)
  | byHint {string number default : Script ν} (hstring : Within a constant string)
      (hnumber : Within a constant number) (hdefault : Within a constant default) :
      Within a constant (.byHint string number default)
  | coerce {target : Script ν} {hint : Option Hint} (h : Within a constant target) :
      Within a constant (.coerce target hint)
  | count {counter : Nat} : Within a constant (.count counter)
  | sequence {counter : Nat} {parts : List (Script ν)} (h : ∀ b ∈ parts, Within a constant b) :
      Within a constant (.sequence counter parts)
  | cast {c : Cast} {operand : Script ν} (h : Within a constant operand) :
      Within a constant (.cast c operand)
  | operate {op : Operator} {left right : Script ν} (hleft : Within a constant left)
      (hright : Within a constant right) : Within a constant (.operate op left right)
  | depth : Within a constant .depth
  | hint : Within a constant .hint
  | argument {i : Nat} : Within a constant (.argument i)
  | argumentCount : Within a constant .argumentCount
  | read {x : String} (h : a.reads x) : Within a constant (.read x)

/-- The constants of a body are values, and the methods of an object are a matter of the state. -/
def Routine.Within (a : Allowance) (r : Routine) : Prop := r.body.Within a fun _ => True

def Method.Within (a : Allowance) : Method → Prop
  | .inherited _ => True
  | .builtin _ => True
  | .routine _ r => r.Within a

def Slot.Within (a : Allowance) : Slot Routine → Prop
  | .inherited => True
  | .removed => True
  | .custom routine => routine.Within a

structure Record.Within (a : Allowance) (r : Record) : Prop where
  hook : ∀ routine, r.hook = some routine → routine.Within a
  stringify : r.stringify.Within a
  valuate : r.valuate.Within a

def Object.Within (a : Allowance) : Object → Prop
  | .plain _ _ => True
  | .function m => m.Within a
  | .record r => r.Within a

def State.Within (a : Allowance) (s : State) : Prop := ∀ ref, (s.object ref).Within a

/-- A description of a value whose objects keep to the allowance, and those that their bodies return
do so too. -/
inductive Blueprint.Within (a : Allowance) : Blueprint → Prop
  | primitive {p : Primitive} : Within a (.primitive p)
  | read {x : String} (h : a.reads x) : Within a (.read x)
  | plain {typeName className : String} : Within a (.plain typeName className)
  | function {role : Role} {id : String} {body : Script Blueprint} (h : body.Within a (Within a)) :
      Within a (.function role id body)
  | record {id className : String} {fields : List (String × Blueprint)}
      {hook : Option (Script Blueprint)} {stringify valuate : Slot (Script Blueprint)}
      (hfields : ∀ f ∈ fields, Within a f.2)
      (hhook : ∀ body, hook = some body → body.Within a (Within a))
      (hstringify : ∀ body, stringify = .custom body → body.Within a (Within a))
      (hvaluate : ∀ body, valuate = .custom body → body.Within a (Within a)) :
      Within a (.record id className fields hook stringify valuate)

def Step.blueprints : Step → List Blueprint
  | .evaluate _ | .interpolate _ | .expression _ | .bind _ _ | .resolve _ => []
  | .assign _ b | .reduce b _ | .cast _ b | .member b _ | .describe b => [b]
  | .operate _ b c | .same b c => [b, c]
  | .call b c bs | .invoke b _ c bs => b :: c :: bs
  | .inherited _ b bs => b :: bs

def Step.Within (a : Allowance) (step : Step) : Prop := ∀ b ∈ step.blueprints, b.Within a

structure Session.Within (a : Allowance) (session : Session) : Prop where
  definitions : ∀ d ∈ session.definitions, d.2.Within a
  steps : ∀ step ∈ session.steps, step.Within a

mutual

/-- An expression that reads no other variables than bodies may. -/
def Expr.Within (a : Allowance) : Expr → Prop
  | .literal _ => True
  | .name x => a.reads x
  | .member object _ => object.Within a
  | .index object key => object.Within a ∧ key.Within a
  | .call callee args => callee.Within a ∧ Expr.AllWithin a args
  | .unary _ operand => operand.Within a
  | .binary _ left right => left.Within a ∧ right.Within a

def Expr.AllWithin (a : Allowance) : List Expr → Prop
  | [] => True
  | e :: es => e.Within a ∧ Expr.AllWithin a es

end

mutual

theorem Expr.within_of_reads (h : ∀ x, a.reads x) : (e : Expr) → e.Within a
  | .literal _ => trivial
  | .name x => h x
  | .member object _ => object.within_of_reads h
  | .index object key => ⟨object.within_of_reads h, key.within_of_reads h⟩
  | .call callee args => ⟨callee.within_of_reads h, Expr.allWithin_of_reads h args⟩
  | .unary _ operand => operand.within_of_reads h
  | .binary _ left right => ⟨left.within_of_reads h, right.within_of_reads h⟩

theorem Expr.allWithin_of_reads (h : ∀ x, a.reads x) : (es : List Expr) → Expr.AllWithin a es
  | [] => trivial
  | e :: es => ⟨e.within_of_reads h, Expr.allWithin_of_reads h es⟩

end

section Constants

variable {ν : Type} [SizeOf ν] {constant : ν → Prop}

mutual

/-- The constants of a script are smaller than the script. -/
theorem Script.within_all : (b : Script ν) → (∀ v, sizeOf v < sizeOf b → constant v) →
    b.Within .all constant
  | .ret v, h => .ret (h v (by simp))
  | .receiver, _ => .receiver
  | .fresh, _ => .fresh
  | .member target _, h => .member (target.within_all fun v hv => h v (by simp; omega))
  | .method target _ args, h =>
    .method trivial (target.within_all fun v hv => h v (by simp; omega))
      (Script.allWithin_all args fun v hv => h v (by simp; omega))
  | .fail _, _ => .fail
  | .byHint string number default, h =>
    .byHint (string.within_all fun v hv => h v (by simp; omega))
      (number.within_all fun v hv => h v (by simp; omega))
      (default.within_all fun v hv => h v (by simp; omega))
  | .coerce target _, h => .coerce (target.within_all fun v hv => h v (by simp; omega))
  | .count _, _ => .count
  | .sequence _ parts, h =>
    .sequence (Script.allWithin_all parts fun v hv => h v (by simp; omega))
  | .cast _ operand, h => .cast (operand.within_all fun v hv => h v (by simp; omega))
  | .operate _ left right, h =>
    .operate (left.within_all fun v hv => h v (by simp; omega))
      (right.within_all fun v hv => h v (by simp; omega))
  | .depth, _ => .depth
  | .hint, _ => .hint
  | .argument _, _ => .argument
  | .argumentCount, _ => .argumentCount
  | .read _, _ => .read trivial

theorem Script.allWithin_all : (bs : List (Script ν)) →
    (∀ v, sizeOf v < sizeOf bs → constant v) → ∀ b ∈ bs, b.Within .all constant
  | [], _ => by simp
  | b :: bs, h => List.forall_mem_cons.2
    ⟨b.within_all fun v hv => h v (by simp; omega),
      Script.allWithin_all bs fun v hv => h v (by simp; omega)⟩

end

end Constants

theorem Blueprint.within_all : (b : Blueprint) → b.Within .all
  | .primitive _ => .primitive
  | .read _ => .read trivial
  | .plain _ _ => .plain
  | .function _ _ body => .function (body.within_all fun b _ => b.within_all)
  | .record _ _ _ _ _ _ =>
    .record (fun f _ => f.2.within_all)
      (fun body _ => body.within_all fun b _ => b.within_all)
      (fun body _ => body.within_all fun b _ => b.within_all)
      (fun body _ => body.within_all fun b _ => b.within_all)
decreasing_by
  -- a body, a field, and the bodies of the hook and of the two slots
  · simp
    omega
  · have hlt := List.sizeOf_lt_of_mem ‹f ∈ _›
    rw [← Prod.eta f, Prod.mk.sizeOf_spec] at hlt
    simp
    omega
  all_goals
    subst_vars
    simp
    omega

theorem Routine.within_all (r : Routine) : r.Within .all :=
  r.body.within_all fun _ _ => trivial

theorem Method.within_all (m : Method) : m.Within .all := by
  cases m with
  | inherited | builtin => trivial
  | routine role r => exact r.within_all

theorem Slot.within_all (slot : Slot Routine) : slot.Within .all := by
  cases slot with
  | inherited | removed => trivial
  | custom r => exact r.within_all

theorem Object.within_all (o : Object) : o.Within .all := by
  cases o with
  | plain => trivial
  | function m => exact m.within_all
  | record r => exact ⟨fun r _ => r.within_all, r.stringify.within_all, r.valuate.within_all⟩

namespace Record

theorem Within.slot {r : Record} (h : r.Within a) (c : Conversion) : (r.slot c).Within a := by
  cases c with
  | stringify => exact h.stringify
  | valuate => exact h.valuate

theorem Within.conversion {r : Record} (h : r.Within a) {c : Conversion} {m : Method}
    (hm : r.conversion? c = some m) : m.Within a := by
  have hslot := h.slot c
  unfold conversion? at hm
  split at hm
  · cases hm
    trivial
  · cases hm
  · next routine hcustom =>
    cases hm
    rw [hcustom] at hslot
    exact hslot

theorem within_empty : ({} : Record).Within a where
  hook := fun _ h => nomatch h
  stringify := trivial
  valuate := trivial

def Edit.Within (a : Allowance) (constant : Value → Prop) : Edit → Prop
  | .field _ v => constant v
  | .className _ => True
  | .hook routine => routine.body.Within a constant
  | .custom _ routine => routine.body.Within a constant
  | .remove _ => True

theorem within_ofEdits {edits : List Edit} (h : ∀ e ∈ edits, e.Within a fun _ => True) :
    (ofEdits edits).Within a := by
  have hslot : ∀ c, ((ofEdits edits).slot c).Within a := by
    intro c
    cases hc : (ofEdits edits).slot c with
    | inherited | removed => trivial
    | custom routine => exact h _ (Has.mem (e := .custom c routine) hc)
  exact ⟨fun routine hr => h _ (Has.mem (e := .hook routine) hr), hslot .stringify, hslot .valuate⟩

end Record

namespace Object.Within

variable {o : Object} {m : Method}

theorem hook (h : o.Within a) (hm : o.hook? = some m) : m.Within a := by
  cases o with
  | plain | function => cases hm
  | record r =>
    obtain ⟨routine, hroutine, rfl⟩ := Option.map_eq_some_iff.1 hm
    exact Record.Within.hook h routine hroutine

theorem conversion (h : o.Within a) {c : Conversion} (hm : o.conversion? c = some m) :
    m.Within a := by
  cases o with
  | plain | function =>
    cases hm
    trivial
  | record r => exact Record.Within.conversion h hm

theorem method (h : o.Within a) (hm : o.method? = some m) : m.Within a := by
  cases o with
  | plain | record => cases hm
  | function f =>
    cases hm
    exact h

end Object.Within

theorem State.object_push (s : State) (o : Object) (ref : Nat) :
    { s with objects := s.objects.push o }.object ref =
      if ref = s.objects.size then o else s.object ref := by
  by_cases href : ref = s.objects.size
  · simp [State.object, href]
  · simp [State.object, Array.getElem?_push, href]

namespace State.Within

variable {s t : State}

theorem of_objects (h : s.Within a) (hobjects : t.objects = s.objects) : t.Within a := by
  intro ref
  have hsame : t.object ref = s.object ref := by rw [State.object, State.object, hobjects]
  rw [hsame]
  exact h ref

theorem push (h : s.Within a) {o : Object} (ho : o.Within a) :
    { s with objects := s.objects.push o }.Within a := by
  intro ref
  rw [object_push]
  split
  · exact ho
  · exact h ref

theorem empty : ({} : State).Within a := fun _ => trivial

end State.Within

end Coercive
