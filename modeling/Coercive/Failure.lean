import Coercive.Hint

namespace Coercive

inductive Mismatch where
  | symbolToNumber
  | symbolToString
  | hintNotString
  | unknownHint (name : String)
  deriving DecidableEq, Repr

def Mismatch.message : Mismatch → String
  | .symbolToNumber => "cannot convert a symbol to a number"
  | .symbolToString => "cannot convert a symbol to a string"
  | .hintNotString => "hint must be a string"
  | .unknownHint name => "invalid hint '" ++ name ++ "'"

def Hint.ofName (name : String) : Except Mismatch Hint :=
  match Hint.ofName? name with
  | some h => .ok h
  | none => .error (.unknownHint name)

inductive Arity where
  | zero
  | one
  deriving DecidableEq, Repr

def Arity.message : Arity → String
  | .zero => "expected 0 args"
  | .one => "expected 1 arg"

/-- Whether a source text stands alone or in a hole of a template. -/
inductive Place where
  | alone
  | hole
  deriving DecidableEq, Repr

inductive Failure where
  | hookReturnedObject (typeName : String) (hint : Hint)
  | noConversion (typeName : String)
  | depthExceeded (limit : Nat)
  | host (message : String)
  | unresolved (name : String)
  | notCallable (typeName : String)
  | mismatch (cause : Mismatch)
  | arity (expected : Arity)
  | unknownMember (typeName member : String)
  | malformed (place : Place) (beginning : String)
  deriving DecidableEq, Repr

/-- The failure of reading a source text, which quotes its first eighty characters. -/
def Failure.ofSource (place : Place) (source : List Char) : Failure :=
  .malformed place (String.ofList (source.take 80))

def Failure.message : Failure → String
  | .hookReturnedObject typeName hint =>
    "override hook of " ++ typeName ++ " returned an object for hint '" ++ hint.name ++ "'"
  | .noConversion typeName => "cannot convert " ++ typeName ++ " to a primitive value"
  | .depthExceeded limit =>
    "conversion depth exceeded (limit: " ++ String.ofList (Nat.toDigits 10 limit) ++ ")"
  | .host message => message
  | .unresolved name => "unable to resolve variable: " ++ name
  | .notCallable typeName => typeName ++ " is not callable"
  | .mismatch cause => "type mismatch: " ++ cause.message
  | .arity expected => "evaluation failed: " ++ expected.message
  | .unknownMember typeName member =>
    "unknown member '" ++ member ++ "' for type " ++ typeName
  | .malformed .alone beginning => "parse error: (near: '" ++ beginning ++ "')"
  | .malformed .hole beginning =>
    "parse error: inside interpolation (near: '" ++ beginning ++ "')"

end Coercive
