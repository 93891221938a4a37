import Coercive.Source.Chain
import Coercive.Source.Forest
import Coercive.Source.Scan
import Coercive.Text.Bytes

namespace Coercive.Source

def atomOperand? : Atom → Option Expr
  | .number n => some (.literal (.number n))
  | .string s => some (.literal (.string s))
  | .word "true" => some (.literal (.bool true))
  | .word "false" => some (.literal (.bool false))
  | .word "null" => some (.literal .null)
  | .word "undefined" => some (.literal .undefined)
  | .word w => some (.name w)
  | _ => none

def atomSign? : Atom → Option Sign
  | .operator .add => some .plus
  | .operator (.arithmetic .sub) => some .minus
  | _ => none

/-- A chain, and the expressions that follow it after commas. -/
abbrev Row := Chain Expr × List Expr

def Row.toList (row : Row) : List Expr := row.1.toExpr :: row.2

mutual

/-- Reads a row from where an operand is due. Only a `list` may hold commas. -/
def row? (list : Bool) : Forest → Option Row
  | .nil => none
  | .leaf a rest =>
    match atomSign? a, atomOperand? a with
    | some s, _ => (row? list rest).map fun (c, es) => (.signed s c, es)
    | none, some e => rowAfter? list e rest
    | none, none => none
  | .group .round inner rest => (row? false inner).bind fun (c, _) => rowAfter? list c.toExpr rest
  | .group .square _ _ => none

/-- Reads on after the operand `e`, which members, keys and calls may extend. -/
def rowAfter? (list : Bool) (e : Expr) : Forest → Option Row
  | .nil => some (.last e, [])
  | .leaf .dot (.leaf (.word w) rest) => rowAfter? list (.member e w) rest
  | .leaf (.operator op) rest => (row? list rest).map fun (c, es) => (.more e op c, es)
  | .leaf .comma .nil => if list then some (.last e, []) else none
  | .leaf .comma rest =>
    if list then (row? list rest).map fun row => (.last e, Row.toList row) else none
  | .leaf _ _ => none
  | .group .square inner rest =>
    (row? false inner).bind fun (c, _) => rowAfter? list (.index e c.toExpr) rest
  | .group .round .nil rest => rowAfter? list (.call e []) rest
  | .group .round inner rest =>
    (row? true inner).bind fun row => rowAfter? list (.call e (Row.toList row)) rest

end

def expr? (ts : List Token) : Option Expr :=
  (Forest.ofTokens? ts).bind fun f => (row? false f).map fun (c, _) => c.toExpr

def parse? (cs : List Char) : Option Expr :=
  match scan cs with
  | (ts, []) => expr? ts
  | _ => none

def parseHole? (cs : List Char) : Option (Expr × List Char) :=
  match scan cs with
  | (ts, '\x7d' :: rest) => (expr? ts).map fun e => (e, rest)
  | _ => none

def parse (source : String) : Except Failure Expr :=
  match parse? source.toList with
  | some e => .ok e
  | none => .error (.ofSource .alone source.toList)

def parseHole (cs : List Char) : Except Failure (Expr × List Char) :=
  match parseHole? cs with
  | some found => .ok found
  | none => .error (.ofSource .hole cs)

/-- Reads an expression up to its closing brace, and counts the bytes that it takes with it. -/
def parseBraced (source : String) : Except Failure (Expr × Nat) := do
  let (e, rest) ← parseHole source.toList
  return (e, Text.byteLength source.toList - Text.byteLength rest)

end Coercive.Source
