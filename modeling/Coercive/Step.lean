import Coercive.Blueprint
import Coercive.Template

namespace Coercive

/-- The methods by which an object takes part in conversions. -/
inductive Handle where
  | hook
  | conversion (c : Conversion)
  deriving DecidableEq, Repr

inductive Step where
  | evaluate (source : String)
  | interpolate (source : String)
  | expression (e : Expr)
  | assign (x : String) (value : Blueprint)
  | bind (x source : String)
  | resolve (x : String)
  | reduce (value : Blueprint) (hint : Hint)
  | cast (c : Cast) (value : Blueprint)
  | operate (op : Operator) (left right : Blueprint)
  | member (value : Blueprint) (name : String)
  | call (f receiver : Blueprint) (args : List Blueprint)
  | invoke (value : Blueprint) (handle : Handle) (receiver : Blueprint) (args : List Blueprint)
  | inherited (c : Conversion) (receiver : Blueprint) (args : List Blueprint)
  | same (a b : Blueprint)
  | describe (value : Blueprint)

/-- What a description says of objects only: the class, and which of those methods there are. -/
structure ObjectDescription where
  className : String
  hasHook : Bool
  hasStringify : Bool
  hasValuate : Bool
  deriving DecidableEq, Repr

structure Description where
  typeName : String
  debug : String
  object : Option ObjectDescription

inductive Answer where
  | nothing
  | absent
  | value (v : Value)
  | text (s : String)
  | identity (sameObject equal : Bool)
  | description (d : Description)

def Object.describe (o : Object) : ObjectDescription where
  className := o.className
  hasHook := o.hook?.isSome
  hasStringify := (o.conversion? .stringify).isSome
  hasValuate := (o.conversion? .valuate).isSome

def Object.handle? (o : Object) : Handle → Option Method
  | .hook => o.hook?
  | .conversion c => o.conversion? c

def ObjectDescription.dispatch? (d : ObjectDescription) (hint : Hint) :
    Option (List Conversion) :=
  if d.hasHook then none else some (Conversion.order hint)

def Value.describe (v : Value) : Run Description :=
  match v with
  | .primitive p => pure ⟨p.typeName, p.debug, none⟩
  | .object ref => do
    let o ← Run.object ref
    return ⟨o.typeName, "<" ++ o.typeName ++ ">", some o.describe⟩

def Blueprint.buildAll : List Blueprint → Run (List Value)
  | [] => pure []
  | b :: bs => do
    let v ← b.build
    let vs ← buildAll bs
    return v :: vs

def evaluate (invoke : Invoker) (source : String) : Run Value := do
  (← Run.ofExcept (Source.parse source)).eval invoke

theorem evaluate_of_parse {source : String} {e : Expr} (h : Source.parse source = .ok e)
    (invoke : Invoker) : evaluate invoke source = e.eval invoke := by
  rw [evaluate, h]
  rfl

def interpolate (invoke : Invoker) (source : String) : Run String := do
  return String.ofList (← (Template.ofText source.toList).fill invoke)

def Step.run (invoke : Invoker) : Step → Run Answer
  | .evaluate source => .value <$> Coercive.evaluate invoke source
  | .interpolate source => .text <$> Coercive.interpolate invoke source
  | .expression e => .value <$> e.eval invoke
  | .assign x value => do
    Run.assign x (← value.build)
    return .nothing
  | .bind x source => do
    let v ← Coercive.evaluate invoke source
    Run.assign x v
    return .value v
  | .resolve x => do return (← Run.lookup? x).elim .nothing .value
  | .reduce value hint => do
    let v ← value.build
    return .value (.primitive (← v.reduce invoke hint))
  | .cast c value => do
    let v ← value.build
    return .value (.primitive (← c.apply invoke v))
  | .operate op left right => do
    let v ← left.build
    let w ← right.build
    return .value (.primitive (← op.apply invoke v w))
  | .member value name => do
    let v ← value.build
    return .value (← v.member name)
  | .call f receiver args => do
    let f ← f.build
    let receiver ← receiver.build
    let args ← Blueprint.buildAll args
    return .value (← f.call invoke receiver args)
  | .invoke value handle receiver args => do
    let v ← value.build
    let receiver ← receiver.build
    let args ← Blueprint.buildAll args
    match v with
    | .primitive _ => return .absent
    | .object ref =>
      match (← Run.object ref).handle? handle with
      | none => return .absent
      | some m => return .value (← invoke m receiver args)
  | .inherited c receiver args => do
    let receiver ← receiver.build
    let args ← Blueprint.buildAll args
    return .value (← invoke (.inherited c) receiver args)
  | .same a b => do
    let v ← a.build
    let w ← b.build
    return .identity (v.sameObject w) (v.equal w)
  | .describe value => do
    let v ← value.build
    return .description (← v.describe)

end Coercive
