import Coercive.Proofs.Locality
import Coercive.Proofs.RoundTrip

namespace Coercive

namespace Forest

def append : Forest → Forest → Forest
  | .nil, rest => rest
  | .leaf a f, rest => .leaf a (f.append rest)
  | .group b inner f, rest => .group b inner (f.append rest)

theorem tokens_append (f rest : Forest) : (f.append rest).tokens = f.tokens ++ rest.tokens := by
  induction f with
  | nil => rfl
  | leaf a f ih => simp only [append, tokens, ih, List.cons_append]
  | group b inner f _ ih => simp only [append, tokens, ih, List.cons_append, List.append_assoc]

end Forest

namespace Source

structure Piece where
  text : String
  expr : Expr
  parsed : parse text = .ok expr

namespace Piece

def round (p : Piece) : String := "(" ++ p.text ++ "\n)"

def square (p : Piece) : String := "[" ++ p.text ++ "\n]"

def list : List Piece → String
  | [] => ""
  | [p] => p.text
  | p :: q :: ps => p.text ++ "\n," ++ list (q :: ps)

end Piece

/-- Behind every operand, the forest ends its expression and gives the ones that follow it. -/
def Closes (list : Bool) (rest : Forest) (es : List Expr) : Prop :=
  ∀ e, rowAfter? list e rest = some (.last e, es)

theorem closes_nil (list : Bool) : Closes list .nil [] := fun e => by rw [rowAfter?]

theorem closes_trailingComma : Closes true (.leaf .comma .nil) [] := fun e => by
  rw [rowAfter?, if_pos rfl]

theorem closes_comma {rest : Forest} {row : Row} (h : row? true rest = some row) :
    Closes true (.leaf .comma rest) row.toList := rowAfter?_comma h rfl

section

variable {list : Bool} {rest : Forest} {es : List Expr}

mutual

theorem row?_append (hrest : Closes list rest es) : (f : Forest) → {row : Row} →
    row? false f = some row → row? list (f.append rest) = some (row.1, es)
  | .nil, _, h => by
    rw [row?] at h
    cases h
  | .leaf a f, _, h => by
    rw [row?] at h
    rw [Forest.append, row?]
    cases hs : atomSign? a with
    | some s =>
      rw [hs] at h
      obtain ⟨row, hf, rfl⟩ := Option.map_eq_some_iff.1 h
      simp only [row?_append hrest f hf, Option.map_some]
    | none =>
      cases he : atomOperand? a with
      | some e =>
        rw [hs, he] at h
        exact rowAfter?_append hrest f h
      | none =>
        rw [hs, he] at h
        cases h
  | .group .round inner f, _, h => by
    rw [row?] at h
    rw [Forest.append, row?]
    obtain ⟨row, hinner, hf⟩ := Option.bind_eq_some_iff.1 h
    rw [hinner]
    exact rowAfter?_append hrest f hf
  | .group .square _ _, _, h => by
    rw [row?] at h
    cases h

theorem rowAfter?_append (hrest : Closes list rest es) : {e : Expr} → (f : Forest) → {row : Row} →
    rowAfter? false e f = some row → rowAfter? list e (f.append rest) = some (row.1, es)
  | e, .nil, _, h => by
    rw [rowAfter?] at h
    cases h
    exact hrest e
  | _, .leaf .dot .nil, _, h => by simp [rowAfter?] at h
  | _, .leaf .dot (.group ..), _, h => by simp [rowAfter?] at h
  | _, .leaf .dot (.leaf a f), _, h => by
    cases a with
    | word w =>
      rw [rowAfter?] at h
      rw [Forest.append, Forest.append, rowAfter?]
      exact rowAfter?_append hrest f h
    | number | string | operator | dot | comma => simp [rowAfter?] at h
  | _, .leaf (.operator op) f, _, h => by
    rw [rowAfter?] at h
    obtain ⟨row, hf, rfl⟩ := Option.map_eq_some_iff.1 h
    rw [Forest.append, rowAfter?, row?_append hrest f hf]
    rfl
  | _, .leaf .comma f, _, h => by cases f <;> simp [rowAfter?] at h
  | _, .leaf (.number _) _, _, h => by simp [rowAfter?] at h
  | _, .leaf (.string _) _, _, h => by simp [rowAfter?] at h
  | _, .leaf (.word _) _, _, h => by simp [rowAfter?] at h
  | _, .group .square inner f, _, h => by
    rw [rowAfter?] at h
    rw [Forest.append, rowAfter?]
    obtain ⟨row, hinner, hf⟩ := Option.bind_eq_some_iff.1 h
    rw [hinner]
    exact rowAfter?_append hrest f hf
  | _, .group .round inner f, _, h => by
    rw [rowAfter?_args] at h
    rw [Forest.append, rowAfter?_args]
    obtain ⟨args, hinner, hf⟩ := Option.bind_eq_some_iff.1 h
    rw [hinner]
    exact rowAfter?_append hrest f hf

end

end

/-- The text is scanned in full into a forest that is read as the expression. -/
def Spells (cs : List Char) (f : Forest) (e : Expr) : Prop :=
  scan cs = (f.tokens, []) ∧ ∃ row, row? false f = some row ∧ row.1.toExpr = e

theorem parse?_eq_some {cs : List Char} {e : Expr} :
    parse? cs = some e ↔ ∃ f, Spells cs f e := by
  constructor
  · intro h
    unfold parse? at h
    split at h
    · next ts hscan =>
      obtain ⟨f, hf, hrow⟩ := Option.bind_eq_some_iff.1 h
      obtain ⟨row, hrow, he⟩ := Option.map_eq_some_iff.1 hrow
      rw [Forest.ofTokens?_eq_some_iff.1 hf] at hscan
      exact ⟨f, hscan, row, hrow, he⟩
    · cases h
  · rintro ⟨f, hscan, row, hrow, rfl⟩
    rw [parse?_of_scan hscan, expr?, Forest.ofTokens?_tokens, Option.bind_some, hrow]
    rfl

theorem parse_of_scan {s : String} {cs : List Char} {f : Forest} {c : Chain Expr} {es : List Expr}
    (hs : s.toList = cs) (hscan : scan cs = (f.tokens, [])) (hrow : row? false f = some (c, es)) :
    parse s = .ok c.toExpr :=
  parse_eq_ok.2 (hs ▸ parse?_eq_some.2 ⟨f, hscan, (c, es), hrow, rfl⟩)

/-- A text stands between brackets as a group, before what follows the closing one. -/
theorem Spells.scan_group {cs : List Char} {f : Forest} {e : Expr} (h : Spells cs f e) (b : Bracket)
    {rest stop : List Char} {r : Forest} (hrest : scan rest = (r.tokens, stop)) :
    scan (b.opening :: (cs ++ '\n' :: b.closing :: rest)) =
      ((Forest.group b f r).tokens, stop) := by
  have hinner := scan_line h.1 (b.closing :: rest)
  rw [scan_closing b hrest] at hinner
  exact scan_opening b hinner

namespace Piece

theorem spells (p : Piece) : ∃ f, Spells p.text.toList f p.expr :=
  parse?_eq_some.1 (parse_eq_ok.1 p.parsed)

theorem exists_round (p : Piece) : ∃ f,
    (∀ (r : Forest) {rest stop : List Char}, scan rest = (r.tokens, stop) →
      scan (p.round.toList ++ rest) = ((Forest.group .round f r).tokens, stop)) ∧
    ∀ list r, row? list (.group .round f r) = rowAfter? list p.expr r := by
  obtain ⟨f, hspells⟩ := p.spells
  refine ⟨f, fun r rest stop hrest => ?_, fun list r => ?_⟩
  · have hgroup := hspells.scan_group .round hrest
    simpa [round, Bracket.opening, Bracket.closing] using hgroup
  · obtain ⟨-, row, hrow, he⟩ := hspells
    rw [row?, hrow, ← he]
    rfl

theorem exists_square (p : Piece) : ∃ f,
    (∀ (r : Forest) {rest stop : List Char}, scan rest = (r.tokens, stop) →
      scan (p.square.toList ++ rest) = ((Forest.group .square f r).tokens, stop)) ∧
    ∀ list e r,
      rowAfter? list e (.group .square f r) = rowAfter? list (.index e p.expr) r := by
  obtain ⟨f, hspells⟩ := p.spells
  refine ⟨f, fun r rest stop hrest => ?_, fun list e r => ?_⟩
  · have hgroup := hspells.scan_group .square hrest
    simpa [square, Bracket.opening, Bracket.closing] using hgroup
  · obtain ⟨-, row, hrow, he⟩ := hspells
    rw [rowAfter?, hrow, ← he]
    rfl

end Piece

theorem scan_operator_opening (op : Operator) (b : Bracket) {rest stop : List Char}
    {ts : List Token} (h : scan (b.opening :: rest) = (ts, stop)) :
    scan (op.text ++ b.opening :: rest) = (.atom (.operator op) :: ts, stop) := by
  have hoperator : token? (op.text ++ b.opening :: rest) =
      some (.atom (.operator op), b.opening :: rest) := by
    cases b <;> cases op with
    | relation r => cases r <;> rfl
    | arithmetic a => cases a <;> rfl
    | eq | ne | add => rfl
  apply scan_token hoperator _ h
  cases b <;> simp [Bracket.opening]

/-- The arguments of a call, which a closing forest may follow before the closing bracket. -/
theorem exists_list {closing : Forest} (hclosing : Closes true closing []) (p : Piece)
    (ps : List Piece) :
    ∃ f row, row? true f = some row ∧ row.toList = (p :: ps).map Piece.expr ∧
      ∀ {rest stop : List Char} {ts : List Token}, scan rest = (closing.tokens ++ ts, stop) →
        scan ((Piece.list (p :: ps)).toList ++ '\n' :: rest) = (f.tokens ++ ts, stop) := by
  induction ps generalizing p with
  | nil =>
    obtain ⟨f, hscan, row, hrow, he⟩ := p.spells
    refine ⟨f.append closing, _, row?_append hclosing f hrow, ?_, fun {rest stop ts} hrest => ?_⟩
    · rw [Row.toList, he]
      rfl
    · rw [Piece.list, scan_line hscan, hrest, Forest.tokens_append, List.append_assoc]
  | cons q ps ih =>
    obtain ⟨f, hscan, row, hrow, he⟩ := p.spells
    obtain ⟨f', row', hrow', hlist, htail⟩ := ih q
    refine ⟨f.append (.leaf .comma f'), _, row?_append (closes_comma hrow') f hrow, ?_,
      fun {rest stop ts} hrest => ?_⟩
    · rw [Row.toList, he, hlist]
      rfl
    · have htext : (Piece.list (p :: q :: ps)).toList ++ '\n' :: rest =
          p.text.toList ++ '\n' :: ',' :: ((Piece.list (q :: ps)).toList ++ '\n' :: rest) := by
        simp [Piece.list]
      rw [htext, scan_line hscan, scan_comma (htail hrest), Forest.tokens_append]
      simp [Forest.tokens]

namespace Piece

theorem parse_round (p : Piece) : parse p.round = .ok p.expr := by
  obtain ⟨f, hscan, hrow⟩ := p.exists_round
  have hoperand : row? false (.group .round f .nil) = some (.last p.expr, []) := by
    rw [hrow, closes_nil]
  exact parse_of_scan (List.append_nil _).symm (hscan .nil scan_nil) hoperand

theorem parse_operator (p q : Piece) (op : Operator) :
    parse (p.round ++ String.ofList op.text ++ q.round) = .ok (.binary op p.expr q.expr) := by
  obtain ⟨f, hscan, hrow⟩ := p.exists_round
  obtain ⟨g, hscan', hrow'⟩ := q.exists_round
  have hright := hscan' .nil scan_nil
  have hopening : q.round.toList ++ [] =
      Bracket.round.opening :: (q.text.toList ++ ['\n', ')']) := by
    simp [round, Bracket.opening]
  have hchain : row? false (.group .round f (.leaf (.operator op) (.group .round g .nil))) =
      some (.more p.expr op (.last q.expr), []) := by
    rw [hrow, rowAfter?, hrow', closes_nil]
    rfl
  rw [hopening] at hright
  refine parse_of_scan ?_ (hscan (.leaf _ _) (scan_operator_opening op .round hright)) hchain
  rw [← hopening]
  simp

theorem parse_sign (p : Piece) (sign : Sign) :
    parse (String.ofList [sign.char] ++ p.round) = .ok (.unary sign p.expr) := by
  obtain ⟨f, hscan, hrow⟩ := p.exists_round
  have hchain : row? false (.leaf (.operator sign.operator) (.group .round f .nil)) =
      some (.signed sign (.last p.expr), []) := by
    rw [row?_sign, hrow, closes_nil]
    rfl
  refine parse_of_scan ?_ (scan_sign sign (hscan .nil scan_nil)) hchain
  simp

theorem parse_member (p : Piece) {f : String} (hf : isIdentifier f = true) :
    parse (p.round ++ "." ++ f) = .ok (.member p.expr f) := by
  obtain ⟨g, hscan, hrow⟩ := p.exists_round
  have hfield : scan ('.' :: (f.toList ++ [])) =
      ((Forest.leaf .dot (.leaf (.word f) .nil)).tokens, []) :=
    scan_dot (scan_word hf detached_nil scan_nil)
  have hchain : row? false (.group .round g (.leaf .dot (.leaf (.word f) .nil))) =
      some (.last (.member p.expr f), []) := by
    rw [hrow, rowAfter?, closes_nil]
  refine parse_of_scan ?_ (hscan (.leaf .dot (.leaf (.word f) .nil)) hfield) hchain
  simp

theorem parse_index (p q : Piece) : parse (p.round ++ q.square) = .ok (.index p.expr q.expr) := by
  obtain ⟨f, hscan, hrow⟩ := p.exists_round
  obtain ⟨g, hscan', hrow'⟩ := q.exists_square
  have hchain : row? false (.group .round f (.group .square g .nil)) =
      some (.last (.index p.expr q.expr), []) := by
    rw [hrow, hrow', closes_nil]
  refine parse_of_scan ?_ (hscan _ (hscan' .nil scan_nil)) hchain
  simp

theorem parse_call (p : Piece) {s : String} {rest : List Char} {inner : Forest} {args : List Expr}
    (hs : s.toList = p.round.toList ++ '(' :: rest)
    (hscan : scan rest = (inner.tokens ++ [.closing .round], []))
    (hargs : args? inner = some args) : parse s = .ok (.call p.expr args) := by
  obtain ⟨f, hround, hrow⟩ := p.exists_round
  have hopening : scan ('(' :: rest) = ((Forest.group .round inner .nil).tokens, []) :=
    scan_opening .round hscan
  have hchain : row? false (.group .round f (.group .round inner .nil)) =
      some (.last (.call p.expr args), []) := by
    rw [hrow, rowAfter?_args, hargs]
    exact closes_nil false _
  exact parse_of_scan hs (hround _ hopening) hchain

theorem parse_list (p : Piece) {rs : List Piece} (hrs : rs ≠ []) {s : String} {rest : List Char}
    {closing : Forest} (hs : s.toList = p.round.toList ++ '(' :: ((list rs).toList ++ '\n' :: rest))
    (hscan : scan rest = (closing.tokens ++ [.closing .round], []))
    (hclosing : Closes true closing []) : parse s = .ok (.call p.expr (rs.map expr)) := by
  obtain ⟨r, rs, rfl⟩ := List.exists_cons_of_ne_nil hrs
  obtain ⟨inner, row, hrow, hargs, hinner⟩ := exists_list hclosing r rs
  rw [← hargs]
  exact p.parse_call hs (hinner hscan) (args?_of_row? hrow)

end Piece

/-- Texts that spell expressions, put between brackets, are operands of what they are put into:
alone, around an operator, behind a sign, before a member, a key or arguments. -/
theorem parse_composed (p q : Piece) (rs : List Piece) :
    parse p.round = .ok p.expr ∧
    (∀ op : Operator,
      parse (p.round ++ String.ofList op.text ++ q.round) = .ok (.binary op p.expr q.expr)) ∧
    (∀ sign : Sign, parse (String.ofList [sign.char] ++ p.round) = .ok (.unary sign p.expr)) ∧
    (∀ f, isIdentifier f = true → parse (p.round ++ "." ++ f) = .ok (.member p.expr f)) ∧
    parse (p.round ++ q.square) = .ok (.index p.expr q.expr) ∧
    parse (p.round ++ "(" ++ Piece.list rs ++ "\n)") = .ok (.call p.expr (rs.map Piece.expr)) ∧
    parse (p.round ++ "()") = .ok (.call p.expr []) ∧
    (rs ≠ [] → ∀ gap ∈ ["", "\n"],
      parse (p.round ++ "(" ++ Piece.list rs ++ "\n," ++ gap ++ ")") =
        .ok (.call p.expr (rs.map Piece.expr))) := by
  have hround : scan [')'] = (Forest.tokens .nil ++ [.closing .round], []) :=
    scan_closing .round scan_nil
  have hline : ∀ cs, scan ('\n' :: cs) = scan cs := fun cs => by rw [scan_eq, scan_eq cs]; rfl
  refine ⟨p.parse_round, p.parse_operator q, p.parse_sign, fun f hf => p.parse_member hf,
    p.parse_index q, ?_, p.parse_call (by simp) hround rfl, fun hrs gap hgap => ?_⟩
  · by_cases hrs : rs = []
    · subst hrs
      exact p.parse_call (by simp [Piece.list]) ((hline _).trans hround) rfl
    · exact p.parse_list hrs (by simp) hround (closes_nil true)
  · have hend : scan (gap.toList ++ [')']) = (Forest.tokens .nil ++ [.closing .round], []) := by
      simp only [List.mem_cons, List.not_mem_nil, or_false] at hgap
      rcases hgap with rfl | rfl
      · exact hround
      · exact (hline _).trans hround
    have hcomma : scan (',' :: (gap.toList ++ [')'])) =
        (Forest.tokens (.leaf .comma .nil) ++ [.closing .round], []) := scan_comma hend
    exact p.parse_list hrs (by simp) hcomma closes_trailingComma

/-- A comment keeps its brackets and commas to itself, and a keyword may name a member. -/
theorem parse_composed_comment :
    let p : Piece := ⟨"a // ),(", .name "a", by cbv⟩
    let q : Piece := ⟨"b + c", .binary .add (.name "b") (.name "c"), by cbv⟩
    isIdentifier "null" = true ∧ [p, q] ≠ [] ∧ "\n" ∈ ["", "\n"] ∧
      p.round ++ "." ++ "null" = "(a // ),(\n).null" ∧
      parse (p.round ++ "." ++ "null") = .ok (.member (.name "a") "null") ∧
      q.round ++ "(" ++ Piece.list [p, q] ++ "\n," ++ "\n" ++ ")" =
        "(b + c\n)(a // ),(\n,b + c\n,\n)" ∧
      parse (q.round ++ "(" ++ Piece.list [p, q] ++ "\n," ++ "\n" ++ ")") =
        .ok (.call q.expr [p.expr, q.expr]) := by
  intro p q
  obtain ⟨-, -, -, hmember, -⟩ := parse_composed p q [p, q]
  obtain ⟨-, -, -, -, -, -, -, hcall⟩ := parse_composed q p [p, q]
  exact ⟨by decide, by simp, by simp, rfl, hmember "null" (by decide), rfl,
    hcall (by simp) "\n" (by simp)⟩

end Source

end Coercive
