namespace Coercive

inductive Hint where
  | string
  | number
  | default
  deriving DecidableEq, Repr, Inhabited

namespace Hint

def name : Hint → String
  | .string => "string"
  | .number => "number"
  | .default => "default"

def ofName? : String → Option Hint
  | "string" => some .string
  | "number" => some .number
  | "default" => some .default
  | _ => none

@[simp] theorem ofName?_name (h : Hint) : ofName? h.name = some h := by
  cases h <;> rfl

end Hint

/-- The places where a value is reduced to a primitive. -/
inductive Context where
  | stringOutput
  | explicitString
  | propertyKey
  | explicitNumber
  | unaryPlus
  | arithmetic
  | relational
  | additive
  | looseEquality
  | ambiguous
  deriving DecidableEq, Repr

def Context.hint : Context → Hint
  | .stringOutput | .explicitString | .propertyKey => .string
  | .explicitNumber | .unaryPlus | .arithmetic | .relational => .number
  | .additive | .looseEquality | .ambiguous => .default

/-- The two conversion methods that every object has unless it replaces or removes them. -/
inductive Conversion where
  | stringify
  | valuate
  deriving DecidableEq, Repr

namespace Conversion

def name : Conversion → String
  | .stringify => "stringify"
  | .valuate => "valuate"

def ofName? : String → Option Conversion
  | "stringify" => some .stringify
  | "valuate" => some .valuate
  | _ => none

@[simp] theorem ofName?_name (c : Conversion) : ofName? c.name = some c := by
  cases c <;> rfl

def order : Hint → List Conversion
  | .string => [.stringify, .valuate]
  | .number | .default => [.valuate, .stringify]

end Conversion

end Coercive
