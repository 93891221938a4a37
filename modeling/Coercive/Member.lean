import Coercive.Reduction

namespace Coercive

/-- A member of a record: a field, or else a conversion method as a new function. -/
def Record.member (r : Record) (name : String) : Run Value :=
  match r.fields.get? name with
  | some v => pure v
  | none =>
    match (Conversion.ofName? name).bind r.conversion? with
    | some m => Run.allocate (.function m)
    | none => .fail (.unknownMember (Object.record r).typeName name)

def Object.member (o : Object) (name : String) : Run Value :=
  match o with
  | .record r => r.member name
  | o => .fail (.unknownMember o.typeName name)

def Value.member (v : Value) (name : String) : Run Value :=
  match v with
  | .primitive p => .fail (.unknownMember p.typeName name)
  | .object ref => do (← Run.object ref).member name

def Object.call (invoke : Invoker) (o : Object) (receiver : Value) (args : List Value) :
    Run Value :=
  match o.method? with
  | some m => invoke m receiver args
  | none => .fail (.notCallable o.typeName)

def Value.call (invoke : Invoker) (f receiver : Value) (args : List Value) : Run Value :=
  match f with
  | .primitive p => .fail (.notCallable p.typeName)
  | .object ref => do (← Run.object ref).call invoke receiver args

end Coercive
