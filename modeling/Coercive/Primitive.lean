import Coercive.Failure
import Coercive.Numeral.Read
import Coercive.Numeral.Write
import Coercive.Text.Quoted

namespace Coercive

/-- A symbol. Two symbols are the same when their identities are, whatever they are described as. -/
structure Symbol where
  identity : Nat
  description : Option String
  deriving DecidableEq

def Symbol.text (s : Symbol) : String := "Symbol(" ++ s.description.getD "" ++ ")"

inductive Primitive where
  | undefined
  | null
  | bool (b : Bool)
  | number (n : Number)
  | string (s : String)
  | symbol (s : Symbol)
  deriving DecidableEq, Inhabited

namespace Primitive

def typeName : Primitive → String
  | .undefined => "undefined"
  | .null => "null"
  | .bool _ => "boolean"
  | .number _ => "number"
  | .string _ => "string"
  | .symbol _ => "symbol"

def isString : Primitive → Bool
  | .string _ => true
  | _ => false

def isNullish : Primitive → Bool
  | .undefined | .null => true
  | _ => false

def number? : Primitive → Option Number
  | .number n => some n
  | _ => none

def string? : Primitive → Option String
  | .string s => some s
  | _ => none

def toNumber : Primitive → Except Mismatch Number
  | .undefined => .ok .nan
  | .null => .ok .zero
  | .bool b => .ok (if b then .one else .zero)
  | .number n => .ok n
  | .string s => .ok (.ofText s)
  | .symbol _ => .error .symbolToNumber

def display : Primitive → String
  | .undefined => "undefined"
  | .null => "null"
  | .bool b => if b then "true" else "false"
  | .number n => n.text
  | .string s => s
  | .symbol s => s.text

def toText : Primitive → Except Mismatch String
  | .symbol _ => .error .symbolToString
  | p => .ok p.display

/-- The text that shows a primitive and puts strings in quotes. -/
def debug : Primitive → String
  | .string s => Text.quoted s
  | p => p.display

/-- Equality without conversion. Numbers compare numerically and symbols by identity. -/
def equal : Primitive → Primitive → Bool
  | .undefined, .undefined => true
  | .null, .null => true
  | .bool a, .bool b => a == b
  | .number a, .number b => a.equal b
  | .string a, .string b => a == b
  | .symbol a, .symbol b => a.identity == b.identity
  | _, _ => false

end Primitive

end Coercive
