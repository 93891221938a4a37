import Coercive.Proofs.Locality
import Coercive.Proofs.Printer

namespace Coercive.Source

/-- A character of a string as it is written between the given quotes. -/
inductive StringPart (quote : Char) where
  | plain (c : Char) (h : c ≠ quote ∧ c ≠ '\\' ∧ c ≠ '\n')
  | escaped (c : Char)

namespace StringPart

variable {quote : Char}

def text : StringPart quote → List Char
  | .plain c _ => [c]
  | .escaped c => ['\\', c]

def value : StringPart quote → Char
  | .plain c _ => c
  | .escaped c => unescape c

end StringPart

/-- A string as it is written, between quotes of either kind. -/
structure Quotation where
  quote : Char
  quote_cases : quote = '\'' ∨ quote = '"'
  parts : List (StringPart quote)

namespace Quotation

def text (q : Quotation) : List Char := q.quote :: (q.parts.flatMap StringPart.text ++ [q.quote])

def value (q : Quotation) : String := String.ofList (q.parts.map StringPart.value)

theorem string?_parts {quote : Char} (hquote : '\\' ≠ quote) (parts : List (StringPart quote)) :
    string? quote (parts.flatMap StringPart.text ++ [quote]) =
      some (parts.map StringPart.value, []) := by
  induction parts with
  | nil => exact string?_close quote []
  | cons part parts ih =>
    rw [List.flatMap_cons, List.append_assoc]
    cases part with
    | plain c hc =>
      rw [StringPart.text, List.singleton_append, string?_plain hc, ih]
      rfl
    | escaped c =>
      rw [StringPart.text, List.cons_append, List.singleton_append, string?_backslash hquote, ih]
      rfl

end Quotation

/-- A token as it is written in a text. The closing brace is a token of its own, which belongs to no
expression. -/
inductive Lexeme where
  | number (s : Numeral.Spelling)
  | string (q : Quotation)
  | word (w : String) (h : isIdentifier w = true)
  | operator (op : Operator)
  | dot
  | comma
  | opening (b : Bracket)
  | closing (b : Bracket)
  | brace

namespace Lexeme

def text : Lexeme → List Char
  | .number s => s.text
  | .string q => q.text
  | .word w _ => w.toList
  | .operator op => op.text
  | .dot => ['.']
  | .comma => [',']
  | .opening b => [b.opening]
  | .closing b => [b.closing]
  | .brace => ['\x7d']

/-- The token that is scanned, if it may be part of an expression. -/
def token? : Lexeme → Option Token
  | .number s => some (.atom (.number (.signed false s.value)))
  | .string q => some (.atom (.string q.value))
  | .word w _ => some (.atom (.word w))
  | .operator op => some (.atom (.operator op))
  | .dot => some (.atom .dot)
  | .comma => some (.atom .comma)
  | .opening b => some (.opening b)
  | .closing b => some (.closing b)
  | .brace => none

theorem scanned_string (q : Quotation) :
    Source.token? q.text = some (.atom (.string q.value), []) := by
  have hmark : q.quote ∉ marks := by rcases q.quote_cases with h | h <;> rw [h] <;> decide
  have hopen : (q.quote == '\'' || q.quote == '"') = true := by
    rcases q.quote_cases with h | h <;> rw [h] <;> rfl
  have hback : '\\' ≠ q.quote := by rcases q.quote_cases with h | h <;> rw [h] <;> decide
  rw [Quotation.text, token?_cons hmark, if_pos hopen, Quotation.string?_parts hback]
  rfl

theorem scanned {l : Lexeme} {t : Token} (h : l.token? = some t) :
    Source.token? l.text = some (t, []) := by
  cases l with
  | number s =>
    cases h
    have hnumber := (token?_number s detached_nil).1
    rwa [List.append_nil] at hnumber
  | string q =>
    cases h
    exact scanned_string q
  | word w hw =>
    cases h
    have hword := (token?_word hw detached_nil).1
    rwa [List.append_nil] at hword
  | operator op =>
    cases h
    cases op with
    | relation r => cases r <;> rfl
    | arithmetic a => cases a <;> rfl
    | eq | ne | add => rfl
  | dot | comma =>
    cases h
    rfl
  | opening b | closing b =>
    cases h
    cases b <;> rfl
  | brace => cases h

def tokens? : List Lexeme → Option (List Token)
  | [] => some []
  | l :: ls => l.token?.bind fun t => (tokens? ls).map (t :: ·)

/-- In front of a text that continues no token, a token is scanned as it is written. -/
theorem scan_text {l : Lexeme} {t : Token} (h : l.token? = some t) {rest : List Char}
    (hrest : Closed rest) :
    scan (l.text ++ rest) = (t :: (scan rest).1, (scan rest).2) := by
  have halone : Source.token? (l.text ++ []) = some (t, [] ++ []) := by
    rw [List.append_nil]
    exact scanned h
  have htoken : Source.token? (l.text ++ rest) = some (t, rest) := token?_closed .nil hrest halone
  have hslash : rest.head? ≠ some '/' := fun hhead => absurd (hrest _ hhead) (by decide)
  exact scan_token htoken (fun _ => hslash) rfl

end Lexeme

/-- A blank, or a comment with the end of its line. -/
inductive Filler where
  | blank (c : Char) (h : isBlank c = true)
  | comment (content : List Char) (h : '\n' ∉ content)

def Filler.text : Filler → List Char
  | .blank c _ => [c]
  | .comment content _ => '/' :: '/' :: (content ++ ['\n'])

/-- Blanks and comments that begin with a blank. -/
structure Gap where
  first : Char
  isBlank_first : isBlank first = true
  fillers : List Filler

def Gap.text (g : Gap) : List Char := g.first :: g.fillers.flatMap Filler.text

/-- What may stand behind the last token: no line end needs to close the last comment. -/
inductive Ending where
  | nothing
  | gap (g : Gap)
  | comment (g : Gap) (content : List Char) (h : '\n' ∉ content)

def Ending.text : Ending → List Char
  | .nothing => []
  | .gap g => g.text
  | .comment g content _ => g.text ++ '/' :: '/' :: content

theorem skip_comment {content : List Char} (h : '\n' ∉ content) (rest : List Char) :
    skip true (content ++ rest) = skip true rest := by
  induction content with
  | nil => rfl
  | cons c content ih =>
    rw [List.mem_cons, not_or] at h
    obtain ⟨hc, hcontent⟩ := h
    have hinside : (c != '\n') = true := by simpa using Ne.symm hc
    rw [List.cons_append, skip, if_pos rfl, hinside, ih hcontent]

theorem skip_filler (f : Filler) (rest : List Char) :
    skip false (f.text ++ rest) = skip false rest := by
  cases f with
  | blank c hc => simp [Filler.text, skip, hc]
  | comment content hcontent =>
    calc skip false ('/' :: '/' :: (content ++ ['\n']) ++ rest)
        = skip true (content ++ ('\n' :: rest)) := by simp [skip, isBlank]
      _ = skip true ('\n' :: rest) := skip_comment hcontent _
      _ = skip false rest := rfl

theorem skip_fillers (fs : List Filler) (rest : List Char) :
    skip false (fs.flatMap Filler.text ++ rest) = skip false rest := by
  induction fs with
  | nil => rfl
  | cons f fs ih => rw [List.flatMap_cons, List.append_assoc, skip_filler, ih]

theorem skip_gap (g : Gap) (rest : List Char) : skip false (g.text ++ rest) = skip false rest := by
  have hfirst := skip_filler (.blank g.first g.isBlank_first)
    (g.fillers.flatMap Filler.text ++ rest)
  rw [skip_fillers] at hfirst
  exact hfirst

theorem skip_ending (e : Ending) : skip false e.text = [] := by
  cases e with
  | nothing => rfl
  | gap g =>
    have hgap := skip_gap g []
    rwa [List.append_nil] at hgap
  | comment g content hcontent =>
    have hopen := skip_comment hcontent []
    rw [List.append_nil] at hopen
    rw [Ending.text, skip_gap]
    exact hopen

theorem closed_gap (g : Gap) (rest : List Char) : Closed (g.text ++ rest) := by
  refine .cons ?_ _
  have hfirst := g.isBlank_first
  simp only [isBlank, Bool.or_eq_true, beq_iff_eq] at hfirst
  rcases hfirst with ((h | h) | h) | h <;> rw [h] <;> decide

theorem closed_ending (e : Ending) : Closed e.text := by
  cases e with
  | nothing => exact .nil
  | gap g =>
    have hgap := closed_gap g []
    rwa [List.append_nil] at hgap
  | comment g content _ => exact closed_gap g _

theorem scan_congr {cs ds : List Char} (h : skip false cs = skip false ds) : scan cs = scan ds := by
  rw [scan_eq, scan_eq ds, h]

/-- Blanks and comments before the tokens of a text, behind each of them and at its end. -/
structure Layout where
  before : List Filler
  between : Nat → Gap
  ending : Ending

namespace Layout

def spread (x : Layout) (i : Nat) : List Lexeme → List Char
  | [] => x.ending.text
  | [l] => l.text ++ x.ending.text
  | l :: l' :: ls => l.text ++ ((x.between i).text ++ x.spread (i + 1) (l' :: ls))

def text (x : Layout) (ls : List Lexeme) : List Char :=
  x.before.flatMap Filler.text ++ x.spread 0 ls

def scanned? (cs : List Char) : Option (List Token) :=
  match scan cs with
  | (ts, []) => some ts
  | _ => none

end Layout

open Layout

theorem parse?_eq (cs : List Char) : parse? cs = (scanned? cs).bind expr? := by
  rw [parse?, scanned?]
  rcases scan cs with ⟨ts, _ | ⟨c, stop⟩⟩ <;> rfl

theorem scanned?_lexeme (l : Lexeme) {rest : List Char} (hrest : Closed rest) :
    scanned? (l.text ++ rest) = l.token?.bind fun t => (scanned? rest).map (t :: ·) := by
  cases ht : l.token? with
  | some t =>
    rw [scanned?, Lexeme.scan_text ht hrest, scanned?]
    rcases scan rest with ⟨ts, _ | ⟨c, stop⟩⟩ <;> rfl
  | none =>
    cases l with
    | brace => rw [scanned?, Lexeme.text, List.singleton_append, scan_closingBrace]; rfl
    | number | string | word | operator | dot | comma | opening | closing => cases ht

theorem scanned?_spread (x : Layout) (i : Nat) (ls : List Lexeme) :
    scanned? (x.spread i ls) = Lexeme.tokens? ls := by
  have hend : scanned? x.ending.text = some [] := by
    have hskip : scan x.ending.text = scan [] := scan_congr (skip_ending _)
    rw [scanned?, hskip, scan_nil]
  induction ls generalizing i with
  | nil => exact hend
  | cons l ls ih =>
    cases ls with
    | nil =>
      rw [spread, scanned?_lexeme l (closed_ending _), hend]
      rfl
    | cons l' ls =>
      have hgap : scanned? ((x.between i).text ++ x.spread (i + 1) (l' :: ls)) =
          Lexeme.tokens? (l' :: ls) := by
        rw [scanned?, scan_congr (skip_gap _ _)]
        exact ih (i + 1)
      rw [spread, scanned?_lexeme l (closed_gap _ _), hgap]
      rfl

theorem parse?_layout (x : Layout) (ls : List Lexeme) :
    parse? (x.text ls) = (Lexeme.tokens? ls).bind expr? := by
  have hbefore : scan (x.text ls) = scan (x.spread 0 ls) := scan_congr (skip_fillers _ _)
  rw [parse?_eq, scanned?, hbefore, ← scanned?, scanned?_spread]

/-- However the same tokens are laid out, they are read as the same expression or as none. -/
theorem parse_layout (x y : Layout) (ls : List Lexeme) (e : Expr) :
    parse (String.ofList (x.text ls)) = .ok e ↔ parse (String.ofList (y.text ls)) = .ok e := by
  rw [parse_eq_ok, parse_eq_ok, String.toList_ofList, String.toList_ofList, parse?_layout,
    parse?_layout]

end Coercive.Source
