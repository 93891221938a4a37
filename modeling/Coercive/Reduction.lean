import Coercive.Run

namespace Coercive

/-- How a method runs. It is a parameter of everything that may call one. -/
abbrev Invoker := Method → Value → List Value → Run Value

def Object.askHook (invoke : Invoker) (o : Object) (receiver : Value) (hint : Hint)
    (hook : Method) : Run Primitive := do
  match ← invoke hook receiver [.string hint.name] with
  | .primitive p => pure p
  | .object _ => .fail (.hookReturnedObject o.typeName hint)

/-- Tries conversion methods in turn until one returns a primitive. -/
def Object.askEach (invoke : Invoker) (o : Object) (receiver : Value) :
    List Conversion → Run Primitive
  | [] => .fail (.noConversion o.typeName)
  | c :: rest =>
    match o.conversion? c with
    | none => o.askEach invoke receiver rest
    | some m => do
      match ← invoke m receiver [] with
      | .primitive p => pure p
      | .object _ => o.askEach invoke receiver rest

def Object.reduce (invoke : Invoker) (o : Object) (receiver : Value) (hint : Hint) :
    Run Primitive :=
  match o.hook? with
  | some hook => o.askHook invoke receiver hint hook
  | none => o.askEach invoke receiver (Conversion.order hint)

/-- Reduces a value to a primitive. Primitives stay as they are at every depth. -/
def Value.reduce (invoke : Invoker) (v : Value) (hint : Hint) : Run Primitive :=
  match v with
  | .primitive p => pure p
  | .object ref => Run.nested do (← Run.object ref).reduce invoke v hint

end Coercive
