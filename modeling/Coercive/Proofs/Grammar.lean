import Coercive.Source.Scan

namespace Coercive.Grammar

open Source

/-- The rules of a second description of the language, as a parsing expression grammar. -/
inductive Rule where
  | program
  | braced
  | expr
  | sign
  | plus
  | minus
  | operator
  | eq
  | ne
  | le
  | ge
  | lt
  | gt
  | add
  | sub
  | pow
  | mul
  | div
  | rem
  | operand
  | suffix
  | member
  | index
  | call
  | primary
  | literal
  | number
  | string
  | singleQuoted
  | doubleQuoted
  | boolean
  | null
  | undefined
  | identifier
  | blank
  | comment
  | ending
  deriving DecidableEq, Repr

/-- Whether gaps may stand between the parts of a rule, and whether pairs are left. -/
inductive Mode where
  | spaced
  | compact
  | atomic
  deriving DecidableEq

/-- A plain or a silent rule is matched as the rule around it. An atomic one has no pairs inside. -/
inductive Kind where
  | plain
  | silent
  | compound
  | atomic

def Kind.mode : Kind → Mode → Mode
  | .plain, m | .silent, m => m
  | .compound, _ => .compact
  | .atomic, _ => .atomic

/-- The parts of rules. -/
inductive Peg where
  | gap
  | one (p : Char → Bool)
  | text (t : List Char)
  | rule (r : Rule)
  | seq (a b : Peg)
  | alt (a b : Peg)
  | many (a : Peg)
  | opt (a : Peg)
  | absent (a : Peg)

namespace Peg

/-- One part and, behind a gap, another one. -/
def before (a b : Peg) : Peg := .seq a (.seq .gap b)

def repeated (a : Peg) : Peg := .opt (.seq a (.many (.seq .gap a)))

def run (a : Peg) : Peg := .seq a (.many a)

def oneOf (r : Rule) : List Rule → Peg
  | [] => .rule r
  | r' :: rs => .alt (.rule r) (oneOf r' rs)

def digits : Peg := run (.one Numeral.isDigit)

def keyword (w : Peg) : Peg := .seq w (.absent (.one isWordPart))

def quotedPart (quote : Char) : Peg :=
  .alt (.seq (.text ['\\']) (.one fun _ => true))
    (.seq (.absent (.alt (.text [quote]) (.alt (.text ['\\']) (.text ['\n']))))
      (.one fun _ => true))

def layout : Peg :=
  .seq (.many (.rule .blank)) (.many (.seq (.rule .comment) (.many (.rule .blank))))

def signed : Peg := .before (repeated (.rule .sign)) (.rule .operand)

def operation : Peg := .before (.rule .operator) signed

def furtherArgument : Peg := .before (.text [',']) (.rule .expr)

def arguments : Peg :=
  .before (.rule .expr) (.before (repeated furtherArgument) (.opt (.text [','])))

end Peg

open Peg

namespace Rule

def kind : Rule → Kind
  | .sign | .operator | .suffix | .primary | .literal | .blank | .comment => .silent
  | .string => .compound
  | .number | .singleQuoted | .doubleQuoted | .boolean | .null | .undefined | .identifier => .atomic
  | _ => .plain

def body : Rule → Peg
  | .program => .before (.text []) (.before (.rule .expr) (.rule .ending))
  | .braced => .before (.text []) (.before (.rule .expr) (.text ['\x7d']))
  | .expr => .before signed (repeated operation)
  | .sign => oneOf .plus [.minus]
  | .plus => .text ['+']
  | .minus => .text ['-']
  | .operator => oneOf .eq [.ne, .le, .ge, .lt, .gt, .add, .sub, .pow, .mul, .div, .rem]
  | .eq => .text ['=', '=']
  | .ne => .text ['!', '=']
  | .le => .text ['<', '=']
  | .ge => .text ['>', '=']
  | .lt => .text ['<']
  | .gt => .text ['>']
  | .add => .text ['+']
  | .sub => .text ['-']
  | .pow => .text ['*', '*']
  | .mul => .text ['*']
  | .div => .text ['/']
  | .rem => .text ['%']
  | .operand => .before (.rule .primary) (repeated (.rule .suffix))
  | .suffix => oneOf .member [.index, .call]
  | .member => .before (.text ['.']) (.rule .identifier)
  | .index => .before (.text ['[']) (.before (.rule .expr) (.text [']']))
  | .call => .before (.text ['(']) (.before (.opt arguments) (.text [')']))
  | .primary =>
    .alt (.rule .literal) (.alt (.rule .identifier)
      (.before (.text ['(']) (.before (.rule .expr) (.text [')']))))
  | .literal => oneOf .number [.string, .boolean, .null, .undefined]
  | .number =>
    .seq digits (.seq (.opt (.seq (.text ['.']) digits))
      (.opt (.seq (.one fun c => c == 'e' || c == 'E')
        (.seq (.opt (.alt (.text ['+']) (.text ['-']))) digits))))
  | .string =>
    .alt (.seq (.text ['\'']) (.seq (.rule .singleQuoted) (.text ['\''])))
      (.seq (.text ['"']) (.seq (.rule .doubleQuoted) (.text ['"'])))
  | .singleQuoted => .many (quotedPart '\'')
  | .doubleQuoted => .many (quotedPart '"')
  | .boolean => keyword (.alt (.text "true".toList) (.text "false".toList))
  | .null => keyword (.text "null".toList)
  | .undefined => keyword (.text "undefined".toList)
  | .identifier => .seq (.one isWordStart) (.many (.one isWordPart))
  | .blank => .one isBlank
  | .comment => .seq (.text ['/', '/']) (.many (.seq (.absent (.text ['\n'])) (.one fun _ => true)))
  | .ending => .absent (.one fun _ => true)

end Rule

/-- What a rule leaves: the text that it matched and the pairs of the rules inside it. -/
inductive Pair where
  | mk (rule : Rule) (text : List Char) (inner : List Pair)

def consumed (cs rest : List Char) : List Char := cs.take (cs.length - rest.length)

theorem consumed_append (t rest : List Char) : consumed (t ++ rest) rest = t := by
  rw [consumed, List.length_append, Nat.add_sub_cancel, List.take_left]

/-- The pairs of a matched rule, with those of the rules inside it. -/
def Rule.leave (r : Rule) (m : Mode) (text : List Char) (inner : List Pair) : List Pair :=
  match r.kind, m with
  | .silent, _ => inner
  | _, .atomic => []
  | _, _ => [.mk r text inner]

/-- The pairs and the rest of a text, or nothing where no match is. -/
abbrev Outcome := Option (List Pair × List Char)

/-- How a part of the grammar comes out at a text. -/
inductive Derives : Mode → Peg → List Char → Outcome → Prop where
  | gap {cs out} (h : Derives .atomic layout cs out) : Derives .spaced .gap cs out
  | noGap {m cs} (h : m ≠ .spaced) : Derives m .gap cs (some ([], cs))
  | one {m p c cs} (h : p c = true) : Derives m (.one p) (c :: cs) (some ([], cs))
  | oneFail {m p cs} (h : ∀ c ∈ cs.head?, p c = false) : Derives m (.one p) cs none
  | text {m t cs rest} (h : cs = t ++ rest) : Derives m (.text t) cs (some ([], rest))
  | textFail {m t cs} (h : ¬ t <+: cs) : Derives m (.text t) cs none
  | rule {m r cs inner rest} (h : Derives (r.kind.mode m) r.body cs (some (inner, rest))) :
      Derives m (.rule r) cs (some (r.leave m (consumed cs rest) inner, rest))
  | ruleFail {m r cs} (h : Derives (r.kind.mode m) r.body cs none) : Derives m (.rule r) cs none
  | seq {m a b cs mid rest ps qs} (ha : Derives m a cs (some (ps, mid)))
      (hb : Derives m b mid (some (qs, rest))) : Derives m (.seq a b) cs (some (ps ++ qs, rest))
  | seqLeft {m a b cs} (ha : Derives m a cs none) : Derives m (.seq a b) cs none
  | seqRight {m a b cs mid ps} (ha : Derives m a cs (some (ps, mid))) (hb : Derives m b mid none) :
      Derives m (.seq a b) cs none
  | first {m a b cs found} (ha : Derives m a cs (some found)) :
      Derives m (.alt a b) cs (some found)
  | second {m a b cs out} (ha : Derives m a cs none) (hb : Derives m b cs out) :
      Derives m (.alt a b) cs out
  | done {m a cs} (ha : Derives m a cs none) : Derives m (.many a) cs (some ([], cs))
  | again {m a cs mid rest ps qs} (ha : Derives m a cs (some (ps, mid)))
      (hrest : Derives m (.many a) mid (some (qs, rest))) :
      Derives m (.many a) cs (some (ps ++ qs, rest))
  | present {m a cs found} (ha : Derives m a cs (some found)) : Derives m (.opt a) cs (some found)
  | missing {m a cs} (ha : Derives m a cs none) : Derives m (.opt a) cs (some ([], cs))
  | absent {m a cs} (ha : Derives m a cs none) : Derives m (.absent a) cs (some ([], cs))
  | absentFail {m a cs found} (ha : Derives m a cs (some found)) : Derives m (.absent a) cs none

namespace Derives

/-- A part of the grammar comes out in one way only. -/
theorem unique {m : Mode} {a : Peg} {cs : List Char} {out out' : Outcome} (h : Derives m a cs out)
    (h' : Derives m a cs out') : out = out' := by
  induction h generalizing out' with
  | gap h ih =>
    cases h' with
    | gap h' => exact ih h'
    | noGap hm => exact absurd rfl hm
  | noGap hm =>
    cases h' with
    | gap h' => exact absurd rfl hm
    | noGap => rfl
  | one h =>
    cases h' with
    | one => rfl
    | oneFail hfail => simp [h] at hfail
  | oneFail hfail =>
    cases h' with
    | one h => simp [h] at hfail
    | oneFail => rfl
  | text h =>
    cases h' with
    | text h' => rw [List.append_cancel_left (h.symm.trans h')]
    | textFail hfail => exact absurd ⟨_, h.symm⟩ hfail
  | textFail hfail =>
    cases h' with
    | text h => exact absurd ⟨_, h.symm⟩ hfail
    | textFail => rfl
  | rule h ih =>
    cases h' with
    | rule h' =>
      cases ih h'
      rfl
    | ruleFail h' => cases ih h'
  | ruleFail h ih =>
    cases h' with
    | rule h' => cases ih h'
    | ruleFail => rfl
  | seq ha hb iha ihb =>
    cases h' with
    | seq ha' hb' =>
      cases iha ha'
      cases ihb hb'
      rfl
    | seqLeft ha' => cases iha ha'
    | seqRight ha' hb' =>
      cases iha ha'
      cases ihb hb'
  | seqLeft ha iha =>
    cases h' with
    | seq ha' hb' => cases iha ha'
    | seqLeft | seqRight => rfl
  | seqRight ha hb iha ihb =>
    cases h' with
    | seq ha' hb' =>
      cases iha ha'
      cases ihb hb'
    | seqLeft | seqRight => rfl
  | first ha iha =>
    cases h' with
    | first ha' => exact iha ha'
    | second ha' hb' => cases iha ha'
  | second ha hb iha ihb =>
    cases h' with
    | first ha' => cases iha ha'
    | second ha' hb' => exact ihb hb'
  | done ha iha =>
    cases h' with
    | done => rfl
    | again ha' hrest' => cases iha ha'
  | again ha hrest iha ihrest =>
    cases h' with
    | done ha' => cases iha ha'
    | again ha' hrest' =>
      cases iha ha'
      cases ihrest hrest'
      rfl
  | present ha iha =>
    cases h' with
    | present ha' => exact iha ha'
    | missing ha' => cases iha ha'
  | missing ha iha =>
    cases h' with
    | present ha' => cases iha ha'
    | missing => rfl
  | absent ha iha =>
    cases h' with
    | absent => rfl
    | absentFail ha' => cases iha ha'
  | absentFail ha iha =>
    cases h' with
    | absent ha' => cases iha ha'
    | absentFail => rfl

/-- What is left of a text is an end of it. -/
theorem suffix {m : Mode} {a : Peg} {cs : List Char} {ps : List Pair} {rest : List Char}
    (h : Derives m a cs (some (ps, rest))) : rest <:+ cs := by
  generalize hout : some (ps, rest) = out at h
  induction h generalizing ps rest with
  | gap h ih => exact ih hout
  | noGap | done | missing | absent =>
    cases hout
    exact List.suffix_rfl
  | one =>
    cases hout
    exact List.suffix_cons _ _
  | text h =>
    cases hout
    rw [h]
    exact List.suffix_append _ _
  | rule h ih =>
    cases hout
    exact ih rfl
  | seq ha hb iha ihb =>
    cases hout
    exact (ihb rfl).trans (iha rfl)
  | again ha hrest iha ihrest =>
    cases hout
    exact (ihrest rfl).trans (iha rfl)
  | first ha iha | present ha iha => exact iha hout
  | second ha hb iha ihb => exact ihb hout
  | oneFail | textFail | ruleFail | seqLeft | seqRight | absentFail => cases hout

end Derives

end Coercive.Grammar
