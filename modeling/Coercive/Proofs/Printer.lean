import Coercive.Proofs.Grouping
import Coercive.Proofs.Lexeme
import Coercive.Source.Forest

namespace Coercive

/-- What a writer may choose: the quotes of each string and the spelling of each number. -/
structure Style where
  quote : String → Char
  quote_cases : ∀ s, quote s = '\'' ∨ quote s = '"'
  numeral : Magnitude → Numeral.Spelling
  value_numeral : ∀ m, (numeral m).value = m

def Style.exact : Style where
  quote _ := '"'
  quote_cases _ := .inr rfl
  numeral := .exact
  value_numeral := Numeral.Spelling.value_exact

namespace Expr

def keywords : List String := ["true", "false", "null", "undefined"]

/-- The expressions that a text can spell without a sign before a literal. An infinite literal is
spelled by a number that is too large for a double. -/
inductive WellFormed : Expr → Prop
  | undefined : WellFormed (.literal .undefined)
  | null : WellFormed (.literal .null)
  | bool (b : Bool) : WellFormed (.literal (.bool b))
  | number (m : Magnitude) : WellFormed (.literal (.number (.signed false m)))
  | string (s : String) : WellFormed (.literal (.string s))
  | name {x : String} (hx : Source.isIdentifier x = true) (hkeyword : x ∉ keywords) :
      WellFormed (.name x)
  | member {e : Expr} {f : String} (he : WellFormed e) (hf : Source.isIdentifier f = true) :
      WellFormed (.member e f)
  | index {e k : Expr} (he : WellFormed e) (hk : WellFormed k) : WellFormed (.index e k)
  | call {e : Expr} {args : List Expr} (he : WellFormed e) (hargs : ∀ a ∈ args, WellFormed a) :
      WellFormed (.call e args)
  | unary (s : Sign) {e : Expr} (he : WellFormed e) : WellFormed (.unary s e)
  | binary (op : Operator) {l r : Expr} (hl : WellFormed l) (hr : WellFormed r) :
      WellFormed (.binary op l r)

def level : Expr → Nat
  | .unary _ _ => Sign.level
  | .binary op _ _ => op.level
  | _ => operandLevel

end Expr

namespace Bracket

def opening : Bracket → Char
  | .round => '('
  | .square => '['

def closing : Bracket → Char
  | .round => ')'
  | .square => ']'

def around (b : Bracket) (text : List Char) : List Char := b.opening :: (text ++ [b.closing])

end Bracket

def Style.literal (style : Style) : Primitive → List Char
  | .undefined => "undefined".toList
  | .null => "null".toList
  | .bool true => "true".toList
  | .bool false => "false".toList
  | .number (.signed _ m) => (style.numeral m).text
  | .string s => Source.quoted (style.quote s) s
  | .number .nan | .symbol _ => []

namespace Expr

/-- Puts brackets around the text of an expression that binds too loosely for its place. -/
def enclose (needed : Nat) (e : Expr) (text : List Char) : List Char :=
  if e.level < needed then Bracket.round.around text else text

mutual

def chars (style : Style) : Expr → List Char
  | .literal p => style.literal p
  | .name x => x.toList
  | .member e f => enclose operandLevel e (chars style e) ++ '.' :: f.toList
  | .index e k => enclose operandLevel e (chars style e) ++ Bracket.square.around (chars style k)
  | .call e args =>
    enclose operandLevel e (chars style e) ++ Bracket.round.around (charsAll style args)
  | .unary s e => s.char :: enclose Sign.level e (chars style e)
  | .binary op l r =>
    enclose op.leftLevel l (chars style l) ++
      (' ' :: op.text ++ ' ' :: enclose op.rightLevel r (chars style r))

def charsAll (style : Style) : List Expr → List Char
  | [] => []
  | [e] => chars style e
  | e :: es => chars style e ++ ',' :: ' ' :: charsAll style es

end

def print (style : Style) (e : Expr) : String := String.ofList (e.chars style)

def literalAtom : Primitive → Atom
  | .undefined => .word "undefined"
  | .null => .word "null"
  | .bool true => .word "true"
  | .bool false => .word "false"
  | .number n => .number n
  | .string s => .string s
  | .symbol s => .string s.text

def encloseForest (needed : Nat) (e : Expr) (forest : Forest → Forest) (rest : Forest) : Forest :=
  if e.level < needed then .group .round (forest .nil) rest else forest rest

mutual

/-- The atoms and groups of an expression, before those that follow it. -/
def forest : Expr → Forest → Forest
  | .literal p, rest => .leaf (literalAtom p) rest
  | .name x, rest => .leaf (.word x) rest
  | .member e f, rest => encloseForest operandLevel e (forest e) (.leaf .dot (.leaf (.word f) rest))
  | .index e k, rest =>
    encloseForest operandLevel e (forest e) (.group .square (forest k .nil) rest)
  | .call e args, rest =>
    encloseForest operandLevel e (forest e) (.group .round (forestAll args) rest)
  | .unary s e, rest => .leaf (.operator s.operator) (encloseForest Sign.level e (forest e) rest)
  | .binary op l r, rest =>
    encloseForest op.leftLevel l (forest l)
      (.leaf (.operator op) (encloseForest op.rightLevel r (forest r) rest))

def forestAll : List Expr → Forest
  | [] => .nil
  | [e] => forest e .nil
  | e :: es => forest e (.leaf .comma (forestAll es))

end

end Expr

namespace Source

/-- Scanning a text gives a forest, before the forest of any detached text behind it. -/
def Scans (text : List Char) (forest : Forest → Forest) : Prop :=
  ∀ (rest : Forest) ⦃cs stop : List Char⦄ ⦃ts : List Token⦄, Detached cs →
    scan cs = (rest.tokens ++ ts, stop) → scan (text ++ cs) = ((forest rest).tokens ++ ts, stop)

theorem detached_nil : Detached [] := ⟨by simp, rfl⟩

theorem detached_cons {c : Char} (hc : isWordPart c = false) (hpoint : c ≠ '.') (cs : List Char) :
    Detached (c :: cs) := by
  refine ⟨by simpa using hc, ?_⟩
  unfold fraction
  split
  · next heq => exact absurd (List.cons.inj heq).1 hpoint
  · rfl

theorem detached_opening (b : Bracket) (cs : List Char) : Detached (b.opening :: cs) := by
  cases b <;> exact detached_cons rfl (by decide) cs

theorem detached_closing (b : Bracket) (cs : List Char) : Detached (b.closing :: cs) := by
  cases b <;> exact detached_cons rfl (by decide) cs

theorem detached_member {f : String} (hf : isIdentifier f = true) (cs : List Char) :
    Detached ('.' :: f.toList ++ cs) := by
  obtain ⟨c, tail, htail, hstart, -⟩ := exists_of_isIdentifier hf
  have hdigit : Numeral.isDigit c ≠ true := by
    intro hdigit
    rw [isWordStart_of_isDigit hdigit] at hstart
    cases hstart
  have hpoint : Numeral.digits (f.toList ++ cs) = ([], f.toList ++ cs) := by
    simp [htail, Numeral.digits, hdigit]
  refine ⟨by simp [isWordPart, isWordStart, Numeral.isDigit], ?_⟩
  rw [List.cons_append, fraction, hpoint]

theorem scan_dot {cs stop : List Char} {ts : List Token} (h : scan cs = (ts, stop)) :
    scan ('.' :: cs) = (.atom .dot :: ts, stop) := scan_token rfl (by simp) h

theorem scan_comma {cs stop : List Char} {ts : List Token} (h : scan cs = (ts, stop)) :
    scan (',' :: cs) = (.atom .comma :: ts, stop) := scan_token rfl (by simp) h

theorem scan_opening (b : Bracket) {cs stop : List Char} {ts : List Token}
    (h : scan cs = (ts, stop)) : scan (b.opening :: cs) = (.opening b :: ts, stop) := by
  cases b <;> exact scan_token rfl (by simp [Bracket.opening]) h

theorem scan_closing (b : Bracket) {cs stop : List Char} {ts : List Token}
    (h : scan cs = (ts, stop)) : scan (b.closing :: cs) = (.closing b :: ts, stop) := by
  cases b <;> exact scan_token rfl (by simp [Bracket.closing]) h

namespace Scans

variable {text : List Char} {forest : Forest → Forest}

theorem around (b : Bracket) (h : Scans text forest) :
    Scans (b.around text) (.group b (forest .nil)) := by
  intro rest cs stop ts hdetached hcs
  have hinner := h .nil (detached_closing b cs) (scan_closing b hcs)
  have hgroup := scan_opening b hinner
  simpa [Bracket.around, Forest.tokens] using hgroup

theorem enclose (e : Expr) (needed : Nat) (h : Scans text forest) :
    Scans (e.enclose needed text) (e.encloseForest needed forest) := by
  intro rest cs stop ts hdetached hcs
  rw [Expr.enclose, Expr.encloseForest]
  split
  · exact h.around .round rest hdetached hcs
  · exact h rest hdetached hcs

theorem word {w : String} (hw : isIdentifier w = true) : Scans w.toList (.leaf (.word w)) :=
  fun _ _ _ _ hdetached hcs => scan_word hw hdetached hcs

theorem literal (style : Style) {p : Primitive} (hp : (Expr.literal p).WellFormed) :
    Scans (style.literal p) (.leaf (Expr.literalAtom p)) := by
  intro rest cs stop ts hdetached hcs
  cases hp with
  | undefined | null => exact scan_word (by decide) hdetached hcs
  | bool b => cases b <;> exact scan_word (by decide) hdetached hcs
  | number m =>
    have hnumber := scan_number (style.numeral m) hdetached hcs
    rwa [style.value_numeral] at hnumber
  | string s => exact scan_string (style.quote_cases s) s hcs

end Scans

theorem scan_charsAll (style : Style) {args : List Expr}
    (hargs : ∀ a ∈ args, Scans (a.chars style) a.forest) (b : Bracket) {cs stop : List Char}
    {ts : List Token} (hcs : scan cs = (ts, stop)) :
    scan (Expr.charsAll style args ++ b.closing :: cs)
      = ((Expr.forestAll args).tokens ++ .closing b :: ts, stop) := by
  induction args with
  | nil => exact scan_closing b hcs
  | cons a args ih =>
    have ha := hargs a (List.mem_cons_self ..)
    cases args with
    | nil => exact ha .nil (detached_closing b cs) (scan_closing b hcs)
    | cons a' args =>
      have hrest := ih fun x hx => hargs x (List.mem_cons_of_mem _ hx)
      have hlist := ha (.leaf .comma (Expr.forestAll (a' :: args)))
        (detached_cons rfl (by decide) _) (scan_comma ((scan_blank _).trans hrest))
      simpa only [Expr.charsAll, Expr.forestAll, List.append_assoc, List.cons_append] using hlist

theorem scans_chars (style : Style) {e : Expr} (h : e.WellFormed) :
    Scans (e.chars style) e.forest := by
  induction h with
  | undefined => exact Scans.literal style .undefined
  | null => exact Scans.literal style .null
  | bool b => exact Scans.literal style (.bool b)
  | number m => exact Scans.literal style (.number m)
  | string s => exact Scans.literal style (.string s)
  | name hx _ => exact Scans.word hx
  | @member e f _ hf ih =>
    intro rest cs stop ts hdetached hcs
    have hfield := scan_word hf hdetached hcs
    have hmember := ih.enclose e operandLevel (.leaf .dot (.leaf (.word f) rest))
      (detached_member hf cs) (scan_dot hfield)
    rw [Expr.chars, Expr.forest, List.append_assoc]
    exact hmember
  | @index e k _ _ ihe ihk =>
    intro rest cs stop ts hdetached hcs
    have hkey := ihk.around .square rest hdetached hcs
    have hindex := ihe.enclose e operandLevel _ (detached_opening .square _) hkey
    rw [Expr.chars, Expr.forest, List.append_assoc]
    exact hindex
  | @call e args _ _ ihe ihargs =>
    intro rest cs stop ts hdetached hcs
    have hargs := scan_opening .round (scan_charsAll style ihargs .round hcs)
    have hcall := ihe.enclose e operandLevel (.group .round (Expr.forestAll args) rest)
      (detached_opening .round _) (by simpa [Forest.tokens] using hargs)
    rw [Expr.chars, Expr.forest, List.append_assoc, Bracket.around, List.cons_append,
      List.append_assoc]
    exact hcall
  | unary s _ ih =>
    intro rest cs stop ts hdetached hcs
    exact scan_sign s (ih.enclose _ Sign.level rest hdetached hcs)
  | @binary op l r _ _ ihl ihr =>
    intro rest cs stop ts hdetached hcs
    have hright := ihr.enclose r op.rightLevel rest hdetached hcs
    have hoperator := scan_operator op hright
    have hbinary := ihl.enclose l op.leftLevel (.leaf (.operator op) _)
      (detached_cons rfl (by decide) _) hoperator
    rw [Expr.chars, Expr.forest, List.append_assoc, List.append_assoc]
    exact hbinary

end Source

end Coercive
