import Coercive.Script
import Coercive.Table

namespace Coercive

inductive Value where
  | primitive (p : Primitive)
  | object (ref : Nat)
  deriving DecidableEq, Inhabited

namespace Value

def undefined : Value := .primitive .undefined

def string (s : String) : Value := .primitive (.string s)

def number (n : Number) : Value := .primitive (.number n)

def sameObject : Value → Value → Bool
  | .object a, .object b => a == b
  | _, _ => false

/-- Equality without conversion: primitives by value, objects by identity. -/
def equal : Value → Value → Bool
  | .primitive p, .primitive q => p.equal q
  | v, w => v.sameObject w

end Value

/-- A script under the name that calls of it are logged with. -/
structure Routine where
  id : String
  body : Script Value

/-- How a routine may be called, and as what a call of it is logged. -/
inductive Role where
  | hook
  | stringify
  | valuate
  | function
  | nullary
  | hinted
  deriving DecidableEq, Repr

/-- The functions that every expression can name. -/
inductive Builtin where
  | number
  | string
  deriving DecidableEq, Repr

def Builtin.ofName? : String → Option Builtin
  | "Number" => some .number
  | "String" => some .string
  | _ => none

inductive Method where
  | inherited (c : Conversion)
  | builtin (b : Builtin)
  | routine (role : Role) (r : Routine)

/-- How a record treats a method that it would inherit. -/
inductive Slot (α : Type) where
  | inherited
  | removed
  | custom (a : α)

def Slot.map {α β : Type} (f : α → β) : Slot α → Slot β
  | .inherited => .inherited
  | .removed => .removed
  | .custom a => .custom (f a)

structure Record where
  fields : Table String Value := []
  className : String := "Object"
  hook : Option Routine := none
  stringify : Slot Routine := .inherited
  valuate : Slot Routine := .inherited

namespace Record

def slot (r : Record) : Conversion → Slot Routine
  | .stringify => r.stringify
  | .valuate => r.valuate

def conversion? (r : Record) (c : Conversion) : Option Method :=
  match r.slot c with
  | .inherited => some (.inherited c)
  | .removed => none
  | .custom routine =>
    some (.routine (match c with | .stringify => .stringify | .valuate => .valuate) routine)

/-- One step in the making of a record. -/
inductive Edit where
  | field (name : String) (v : Value)
  | className (name : String)
  | hook (r : Routine)
  | custom (c : Conversion) (r : Routine)
  | remove (c : Conversion)

def setSlot (r : Record) (c : Conversion) (slot : Slot Routine) : Record :=
  match c with
  | .stringify => { r with stringify := slot }
  | .valuate => { r with valuate := slot }

def edit (r : Record) : Edit → Record
  | .field name v => { r with fields := r.fields.insert name v }
  | .className name => { r with className := name }
  | .hook routine => { r with hook := some routine }
  | .custom c routine => r.setSlot c (.custom routine)
  | .remove c => r.setSlot c .removed

/-- The record that a series of edits makes out of the empty one. -/
def ofEdits (edits : List Edit) : Record := edits.foldl edit {}

/-- The edits that bring a slot of a new record into a given form. -/
def slotEdits (c : Conversion) : Slot Routine → List Edit
  | .inherited => []
  | .removed => [.remove c]
  | .custom routine => [.custom c routine]

end Record

inductive Object where
  | plain (typeName className : String)
  | function (m : Method)
  | record (r : Record)

namespace Object

instance : Inhabited Object := ⟨.plain "object" "Object"⟩

def typeName : Object → String
  | .plain typeName _ => typeName
  | .function _ => "function"
  | .record _ => "object"

def className : Object → String
  | .plain _ className => className
  | .function _ => "Function"
  | .record r => r.className

def hook? : Object → Option Method
  | .record r => r.hook.map (.routine .hook)
  | _ => none

def conversion? : Object → Conversion → Option Method
  | .record r, c => r.conversion? c
  | _, c => some (.inherited c)

def method? : Object → Option Method
  | .function m => some m
  | _ => none

end Object

end Coercive
