import Coercive.Proofs.Grammar
import Coercive.Proofs.Layout
import Coercive.Proofs.Precedence
import Coercive.Numeral.Read
import Coercive.Text.Bytes

namespace Coercive

namespace Grammar

inductive Fault where
  | noPair
  | empty (r : Rule)
  | missingOperand
  | unexpected (r : Rule)
  | misplaced (m : Pratt.Misplaced)
  | numeral (text : List Char)
  | danglingEscape
  deriving DecidableEq, Repr

abbrev Built := Except Fault Expr

inductive Binding where
  | sign (power : Nat)
  | operator (power : Nat) (rightward : Bool)

namespace Rule

/-- The table of powers. What is not in it is an operand. -/
def binding? : Rule → Option Binding
  | .eq | .ne => some (.operator 10 false)
  | .lt | .le | .gt | .ge => some (.operator 20 false)
  | .add | .sub => some (.operator 30 false)
  | .mul | .div | .rem => some (.operator 40 false)
  | .plus | .minus => some (.sign 50)
  | .pow => some (.operator 60 true)
  | _ => none

def toSign : Rule → Except Fault Sign
  | .plus => .ok .plus
  | .minus => .ok .minus
  | r => .error (.unexpected r)

def toOperator : Rule → Except Fault Operator
  | .eq => .ok .eq
  | .ne => .ok .ne
  | .lt => .ok (.relation .lt)
  | .le => .ok (.relation .le)
  | .gt => .ok (.relation .gt)
  | .ge => .ok (.relation .ge)
  | .add => .ok .add
  | .sub => .ok (.arithmetic .sub)
  | .mul => .ok (.arithmetic .mul)
  | .div => .ok (.arithmetic .div)
  | .rem => .ok (.arithmetic .rem)
  | .pow => .ok (.arithmetic .pow)
  | r => .error (.unexpected r)

end Rule

def assemble (entries : List (Pratt.Entry Built)) : Built :=
  match Pratt.parse entries with
  | .ok built => built
  | .error m => .error (.misplaced m)

/-- The content of a string. The text that a rule leaves never ends with a backslash alone. -/
def unescapeAll : List Char → Except Fault (List Char)
  | [] => .ok []
  | ['\\'] => .error .danglingEscape
  | '\\' :: c :: cs => do return Source.unescape c :: (← unescapeAll cs)
  | c :: cs => do return c :: (← unescapeAll cs)

namespace Pair

def text : Pair → List Char
  | .mk _ text _ => text

mutual

def entry : Pair → Pratt.Entry Built
  | .mk r _ inner =>
    match r.binding? with
    | some (.sign power) => .sign power fun e => do return .unary (← r.toSign) (← e)
    | some (.operator power rightward) =>
      .operator power rightward fun l r' => do return .binary (← r.toOperator) (← l) (← r')
    | none => .operand (operand inner)

def entries : List Pair → List (Pratt.Entry Built)
  | [] => []
  | p :: ps => entry p :: entries ps

/-- An operand is the first of some pairs, which the others extend. -/
def operand : List Pair → Built
  | [] => .error .missingOperand
  | p :: ps => do extended (← primary p) ps

def extended (e : Expr) : List Pair → Built
  | [] => .ok e
  | p :: ps => do extended (← suffix e p) ps

def suffix (e : Expr) : Pair → Built
  | .mk .member _ inner =>
    match inner with
    | [] => .error (.empty .member)
    | .mk _ field _ :: _ => .ok (.member e (String.ofList field))
  | .mk .index _ inner =>
    match inner with
    | [] => .error (.empty .index)
    | .mk _ _ key :: _ => do return .index e (← assemble (entries key))
  | .mk .call _ inner => do return .call e (← arguments inner)
  | .mk r _ _ => .error (.unexpected r)

def arguments : List Pair → Except Fault (List Expr)
  | [] => .ok []
  | .mk _ _ inner :: ps => do return (← assemble (entries inner)) :: (← arguments ps)

def primary : Pair → Built
  | .mk .number text _ =>
    match Numeral.unsigned? text with
    | some d => .ok (.literal (.number (.signed false d.nearest)))
    | none => .error (.numeral text)
  | .mk .string _ inner =>
    match inner with
    | [] => .error (.empty .string)
    | .mk _ raw _ :: _ => do return .literal (.string (String.ofList (← unescapeAll raw)))
  | .mk .boolean text _ => .ok (.literal (.bool (text == "true".toList)))
  | .mk .null _ _ => .ok (.literal .null)
  | .mk .undefined _ _ => .ok (.literal .undefined)
  | .mk .identifier text _ => .ok (.name (String.ofList text))
  | .mk .expr _ inner => assemble (entries inner)
  | .mk r _ _ => .error (.unexpected r)

end

def first : List Pair → Built
  | [] => .error .noPair
  | .mk r _ [] :: _ => .error (.empty r)
  | .mk _ _ (.mk _ _ inner :: _) :: _ => assemble (entries inner)

end Pair

def buildProgram (ps : List Pair) : Built := Pair.first ps

def buildBraced (ps : List Pair) : Except Fault (Expr × Nat) := do
  return (← Pair.first ps, Text.byteLength ((ps.head?.map Pair.text).getD []))

end Grammar

def Sign.rule : Sign → Grammar.Rule
  | .plus => .plus
  | .minus => .minus

def Operator.rule : Operator → Grammar.Rule
  | .eq => .eq
  | .ne => .ne
  | .relation .lt => .lt
  | .relation .le => .le
  | .relation .gt => .gt
  | .relation .ge => .ge
  | .add => .add
  | .arithmetic .sub => .sub
  | .arithmetic .mul => .mul
  | .arithmetic .div => .div
  | .arithmetic .rem => .rem
  | .arithmetic .pow => .pow

namespace Grammar

def exprBuilder : Pratt.Builder Expr Built where
  operand := .ok
  unary s e := do return .unary s (← e)
  binary op l r := do return .binary op (← l) (← r)

theorem fold_exprBuilder (t : OpTree Expr) : t.fold exprBuilder = .ok t.toExpr := by
  induction t with
  | operand e => rfl
  | unary s t ih =>
    rw [OpTree.fold, ih]
    rfl
  | binary op l r ihl ihr =>
    rw [OpTree.fold, ihl, ihr]
    rfl

/-- The entries of a chain are in order for the pass, which builds the expression of the chain. -/
theorem assemble_entries (c : Chain Expr) :
    assemble (Pratt.entries exprBuilder c) = .ok c.toExpr := by
  rw [assemble, Pratt.parse_entries]
  exact fold_exprBuilder c.tree

namespace Pair

theorem entry_sign (s : Sign) (text : List Char) (inner : List Pair) :
    entry (.mk s.rule text inner) = (Item.sign s).entry exprBuilder := by
  cases s <;> rfl

theorem entry_operator (op : Operator) (text : List Char) (inner : List Pair) :
    entry (.mk op.rule text inner) = (Item.operator op).entry exprBuilder := by
  cases op with
  | relation r => cases r <;> rfl
  | arithmetic a => cases a <;> rfl
  | eq | ne | add => rfl

theorem entry_operand {text : List Char} {inner : List Pair} {e : Expr}
    (h : operand inner = .ok e) :
    entry (.mk .operand text inner) = (Item.operand e).entry exprBuilder := by
  show Pratt.Entry.operand (operand inner) = _
  rw [h]
  rfl

theorem entries_eq_map (ps : List Pair) : entries ps = ps.map entry := by
  induction ps with
  | nil => rfl
  | cons p ps ih => rw [entries, ih, List.map_cons]

theorem operand_cons {p : Pair} {ps : List Pair} {e : Expr} (h : primary p = .ok e) :
    operand (p :: ps) = extended e ps := by
  rw [operand, h]
  rfl

theorem extended_cons {p : Pair} {ps : List Pair} {e e' : Expr} (h : suffix e p = .ok e') :
    extended e (p :: ps) = extended e' ps := by
  rw [extended, h]
  rfl

theorem arguments_cons {r : Rule} {text : List Char} {inner ps : List Pair} {e : Expr}
    {es : List Expr} (h : assemble (entries inner) = .ok e) (hes : arguments ps = .ok es) :
    arguments (.mk r text inner :: ps) = .ok (e :: es) := by
  rw [arguments, h, hes]
  rfl

end Pair

theorem unescapeAll_parts {quote : Char} (parts : List (Source.StringPart quote)) :
    unescapeAll (parts.flatMap Source.StringPart.text) =
      .ok (parts.map Source.StringPart.value) := by
  induction parts with
  | nil => rfl
  | cons part parts ih =>
    cases part with
    | plain c hc =>
      have hplain : unescapeAll (c :: parts.flatMap Source.StringPart.text) =
          (do return c :: (← unescapeAll (parts.flatMap Source.StringPart.text))) := by
        rw [unescapeAll.eq_def]
        split <;> simp_all
      rw [List.flatMap_cons]
      exact hplain.trans (by rw [ih]; rfl)
    | escaped c =>
      rw [List.flatMap_cons]
      show unescapeAll ('\\' :: c :: parts.flatMap Source.StringPart.text) = _
      rw [unescapeAll, ih]
      rfl

end Grammar

end Coercive
