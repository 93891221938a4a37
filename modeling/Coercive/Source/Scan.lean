import Coercive.Numeral.Decimal
import Coercive.Source.Token

namespace Coercive.Source

def isBlank (c : Char) : Bool := c == ' ' || c == '\t' || c == '\r' || c == '\n'

def isWordStart (c : Char) : Bool :=
  ('a' ≤ c && c ≤ 'z') || ('A' ≤ c && c ≤ 'Z') || c == '_'

def isWordPart (c : Char) : Bool := isWordStart c || Numeral.isDigit c

/-- Drops blanks and comments. A comment runs from two slashes to the end of its line. -/
def skip (comment : Bool) : List Char → List Char
  | [] => []
  | c :: rest =>
    if comment then skip (c != '\n') rest
    else if isBlank c then skip false rest
    else if c == '/' && rest.head? == some '/' then skip true rest
    else c :: rest

def unescape (c : Char) : Char :=
  match c with
  | 'n' => '\n'
  | 'r' => '\r'
  | 't' => '\t'
  | c => c

/-- The content of a string up to its closing quote, and what follows the quote. -/
def string? (quote : Char) : List Char → Option (List Char × List Char)
  | [] => none
  | c :: rest =>
    if c == quote then some ([], rest)
    else if c == '\\' then
      match rest with
      | [] => none
      | d :: rest =>
        (string? quote rest).map fun (content, rest) => (unescape d :: content, rest)
    else if c == '\n' then none
    else (string? quote rest).map fun (content, rest) => (c :: content, rest)

/-- The fraction of a number. A point that no digit follows is not part of it. -/
def fraction (cs : List Char) : List Char × List Char :=
  match cs with
  | '.' :: rest =>
    match Numeral.digits rest with
    | ([], _) => ([], cs)
    | (ds, rest) => (ds, rest)
  | cs => ([], cs)

def number? (cs : List Char) : Option (Number × List Char) :=
  match Numeral.digits cs with
  | ([], _) => none
  | (whole, rest) =>
    let (fraction, rest) := fraction rest
    let (power, rest) := (Numeral.power? rest).getD (0, rest)
    some (.signed false (Numeral.decimal whole fraction power).nearest, rest)

/-- The operator that a text begins with; of two possible ones, the longer. -/
def operator? : List Char → Option (Operator × List Char)
  | '=' :: '=' :: rest => some (.eq, rest)
  | '!' :: '=' :: rest => some (.ne, rest)
  | '<' :: '=' :: rest => some (.relation .le, rest)
  | '>' :: '=' :: rest => some (.relation .ge, rest)
  | '<' :: rest => some (.relation .lt, rest)
  | '>' :: rest => some (.relation .gt, rest)
  | '+' :: rest => some (.add, rest)
  | '-' :: rest => some (.arithmetic .sub, rest)
  | '*' :: '*' :: rest => some (.arithmetic .pow, rest)
  | '*' :: rest => some (.arithmetic .mul, rest)
  | '/' :: rest => some (.arithmetic .div, rest)
  | '%' :: rest => some (.arithmetic .rem, rest)
  | _ => none

def token? (cs : List Char) : Option (Token × List Char) :=
  match cs with
  | [] => none
  | '.' :: rest => some (.atom .dot, rest)
  | ',' :: rest => some (.atom .comma, rest)
  | '(' :: rest => some (.opening .round, rest)
  | ')' :: rest => some (.closing .round, rest)
  | '[' :: rest => some (.opening .square, rest)
  | ']' :: rest => some (.closing .square, rest)
  | c :: rest =>
    if c == '\'' || c == '"' then
      (string? c rest).map fun (content, rest) =>
        (.atom (.string (String.ofList content)), rest)
    else if isWordStart c then
      some (.atom (.word (String.ofList (c :: rest.takeWhile isWordPart))),
        rest.dropWhile isWordPart)
    else if Numeral.isDigit c then
      (number? cs).map fun (n, rest) => (.atom (.number n), rest)
    else
      (operator? cs).map fun (op, rest) => (.atom (.operator op), rest)

theorem length_skip_le (comment : Bool) (cs : List Char) :
    (skip comment cs).length ≤ cs.length := by
  fun_induction skip comment cs <;> grind

theorem length_string?_lt {quote : Char} {cs content rest : List Char}
    (h : string? quote cs = some (content, rest)) : rest.length < cs.length := by
  fun_induction string? quote cs generalizing content <;> grind [Option.map_eq_some_iff]

theorem length_fraction_le (cs : List Char) : (fraction cs).2.length ≤ cs.length := by
  unfold fraction
  split
  · next rest =>
    have := Numeral.length_digits_le rest
    split
    · exact Nat.le_refl _
    · simp_all only [List.length_cons]
      omega
  · exact Nat.le_refl _

theorem length_number?_lt {cs rest : List Char} {n : Number}
    (h : number? cs = some (n, rest)) : rest.length < cs.length := by
  unfold number? at h
  split at h
  · cases h
  · next whole tail hne heq =>
    have hcut : whole.length + tail.length = cs.length := by
      have := congrArg List.length
        (List.takeWhile_append_dropWhile (p := Numeral.isDigit) (l := cs))
      simp_all [Numeral.digits]
    have hwhole : 0 < whole.length := List.length_pos_iff.2 hne
    have hfraction := length_fraction_le tail
    simp only [Option.some.injEq, Prod.mk.injEq] at h
    rw [← h.2]
    cases hp : Numeral.power? (fraction tail).2 with
    | none => simp only [Option.getD_none]; omega
    | some p =>
      have := Numeral.length_power?_le hp
      simp only [Option.getD_some]
      omega

theorem length_operator?_lt {cs rest : List Char} {op : Operator}
    (h : operator? cs = some (op, rest)) : rest.length < cs.length := by
  unfold operator? at h
  split at h <;> cases h <;> simp only [List.length_cons] <;> omega

theorem length_token?_lt {cs rest : List Char} {t : Token}
    (h : token? cs = some (t, rest)) : rest.length < cs.length := by
  unfold token? at h
  split at h
  case h_8 c tail _ _ _ _ _ _ =>
    split at h
    · obtain ⟨⟨content, rest⟩, hs, heq⟩ := Option.map_eq_some_iff.1 h
      cases heq
      exact Nat.lt_succ_of_lt (length_string?_lt hs)
    · split at h
      · cases h
        exact Nat.lt_succ_of_le (List.dropWhile_sublist isWordPart).length_le
      · split at h
        · obtain ⟨⟨n, rest⟩, hn, heq⟩ := Option.map_eq_some_iff.1 h
          cases heq
          exact length_number?_lt hn
        · obtain ⟨⟨op, rest⟩, ho, heq⟩ := Option.map_eq_some_iff.1 h
          cases heq
          exact length_operator?_lt ho
  all_goals cases h
  all_goals simp

/-- The tokens of a text up to where no token begins, and the text from there on. -/
def scan (cs : List Char) : List Token × List Char :=
  match _h : token? (skip false cs) with
  | none => ([], skip false cs)
  | some (t, rest) =>
    let (ts, stop) := scan rest
    (t :: ts, stop)
termination_by cs.length
decreasing_by
  exact Nat.lt_of_lt_of_le (length_token?_lt _h) (length_skip_le false cs)

theorem length_scan_le (cs : List Char) : (scan cs).2.length ≤ cs.length := by
  fun_induction scan cs with
  | case1 => exact length_skip_le false _
  | case2 cs t rest h ts stop hscan ih =>
    have := length_token?_lt h
    have := length_skip_le false cs
    simp_all
    omega

end Coercive.Source
