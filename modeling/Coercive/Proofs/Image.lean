import Coercive.Proofs.Composition
import Coercive.Proofs.Lexing
import Coercive.Proofs.Precedence

namespace Coercive

namespace Expr

mutual

def nodes : Expr → List Expr
  | .literal p => [.literal p]
  | .name x => [.name x]
  | .member e f => .member e f :: nodes e
  | .index e k => .index e k :: (nodes e ++ nodes k)
  | .call e args => .call e args :: (nodes e ++ nodesAll args)
  | .unary s e => .unary s e :: nodes e
  | .binary op l r => .binary op l r :: (nodes l ++ nodes r)

def nodesAll : List Expr → List Expr
  | [] => []
  | e :: es => nodes e ++ nodesAll es

end

/-- What a text can spell by itself: numbers that are not NaN and have no sign bit, identifiers as
the names of members, identifiers that are no keywords as variables, and no symbols. -/
def Spellable : Expr → Prop
  | .literal (.number n) => ∃ m, n = .signed false m
  | .literal (.symbol _) => False
  | .name x => Source.isIdentifier x = true ∧ x ∉ keywords
  | .member _ f => Source.isIdentifier f = true
  | _ => True

theorem forall_mem_nodesAll {P : Expr → Prop} {es : List Expr} :
    (∀ n ∈ nodesAll es, P n) ↔ ∀ e ∈ es, ∀ n ∈ e.nodes, P n := by
  induction es with
  | nil => simp [nodesAll]
  | cons e es ih => rw [nodesAll, List.forall_mem_append, ih, List.forall_mem_cons]

theorem WellFormed.spellable {e : Expr} (h : e.WellFormed) : ∀ n ∈ e.nodes, n.Spellable := by
  induction h with
  | undefined | null | bool | string =>
    rw [nodes, List.forall_mem_singleton]
    trivial
  | number m =>
    rw [nodes, List.forall_mem_singleton]
    exact ⟨m, rfl⟩
  | name hx hkeyword =>
    rw [nodes, List.forall_mem_singleton]
    exact ⟨hx, hkeyword⟩
  | member _ hf ih =>
    rw [nodes, List.forall_mem_cons]
    exact ⟨hf, ih⟩
  | index _ _ ihe ihk =>
    rw [nodes, List.forall_mem_cons, List.forall_mem_append]
    exact ⟨trivial, ihe, ihk⟩
  | call _ _ ihe ihargs =>
    rw [nodes, List.forall_mem_cons, List.forall_mem_append, forall_mem_nodesAll]
    exact ⟨trivial, ihe, ihargs⟩
  | unary s _ ih =>
    rw [nodes, List.forall_mem_cons]
    exact ⟨trivial, ih⟩
  | binary op _ _ ihl ihr =>
    rw [nodes, List.forall_mem_cons, List.forall_mem_append]
    exact ⟨trivial, ihl, ihr⟩

end Expr

def Chain.WellFormed (c : Chain Expr) : Prop := ∀ e, Item.operand e ∈ c.items → e.WellFormed

theorem OpTree.wellFormed_toExpr {t : OpTree Expr}
    (h : ∀ e, Item.operand e ∈ t.items → e.WellFormed) : t.toExpr.WellFormed := by
  induction t with
  | operand e => exact h e (List.mem_singleton.2 rfl)
  | unary s t ih => exact .unary s (ih fun e he => h e (List.mem_cons_of_mem _ he))
  | binary op l r ihl ihr =>
    refine .binary op (ihl fun e he => h e ?_) (ihr fun e he => h e ?_)
    · exact List.mem_append_left _ he
    · exact List.mem_append_right _ (List.mem_cons_of_mem _ he)

theorem Chain.WellFormed.last {e : Expr} (he : e.WellFormed) : (Chain.last e).WellFormed := by
  intro x hx
  cases List.mem_singleton.1 hx
  exact he

theorem Chain.WellFormed.signed {c : Chain Expr} (hc : c.WellFormed) (s : Sign) :
    (Chain.signed s c).WellFormed := by
  intro x hx
  rcases List.mem_cons.1 hx with heq | hx
  · cases heq
  · exact hc x hx

theorem Chain.WellFormed.more {e : Expr} (he : e.WellFormed) {c : Chain Expr} (hc : c.WellFormed)
    (op : Operator) : (Chain.more e op c).WellFormed := by
  intro x hx
  rcases List.mem_cons.1 hx with heq | hx
  · cases heq
    exact he
  · rcases List.mem_cons.1 hx with heq | hx
    · cases heq
    · exact hc x hx

theorem Chain.WellFormed.toExpr {c : Chain Expr} (h : c.WellFormed) : c.toExpr.WellFormed := by
  apply OpTree.wellFormed_toExpr
  rwa [c.items_tree]

namespace Source

def SpellableAtom : Atom → Prop
  | .number n => ∃ m, n = .signed false m
  | .word w => isIdentifier w = true
  | _ => True

def Spellable (ts : List Token) : Prop := ∀ a, Token.atom a ∈ ts → SpellableAtom a

theorem Spellable.leaf {a : Atom} {f : Forest} (h : Spellable (Forest.leaf a f).tokens) :
    SpellableAtom a ∧ Spellable f.tokens :=
  ⟨h a List.mem_cons_self, fun b hb => h b (List.mem_cons_of_mem _ hb)⟩

theorem Spellable.group {b : Bracket} {inner f : Forest}
    (h : Spellable (Forest.group b inner f).tokens) :
    Spellable inner.tokens ∧ Spellable f.tokens := by
  constructor
  · intro a ha
    exact h a (List.mem_cons_of_mem _ (List.mem_append_left _ ha))
  · intro a ha
    exact h a (List.mem_cons_of_mem _ (List.mem_append_right _ (List.mem_cons_of_mem _ ha)))

theorem spellableAtom_of_token? {cs rest : List Char} {a : Atom}
    (h : token? cs = some (.atom a, rest)) : SpellableAtom a := by
  obtain ⟨l, hl, -⟩ := exists_lexeme_of_token? h
  cases l with
  | number s =>
    cases hl
    exact ⟨_, rfl⟩
  | word w hw =>
    cases hl
    exact hw
  | string | operator | dot | comma =>
    cases hl
    trivial
  | opening | closing | brace => cases hl

theorem spellable_scan (cs : List Char) : Spellable (scan cs).1 := by
  fun_induction scan cs with
  | case1 =>
    intro a ha
    cases ha
  | case2 cs t rest h ts stop hscan ih =>
    rw [hscan] at ih
    intro a ha
    rcases List.mem_cons.1 ha with rfl | ha
    · exact spellableAtom_of_token? h
    · exact ih a ha

theorem wellFormed_of_atomOperand? {a : Atom} (ha : SpellableAtom a) {e : Expr}
    (h : atomOperand? a = some e) : e.WellFormed := by
  unfold atomOperand? at h
  split at h
  · obtain ⟨m, rfl⟩ := ha
    cases h
    exact .number m
  · cases h
    exact .string _
  · cases h
    exact .bool true
  · cases h
    exact .bool false
  · cases h
    exact .null
  · cases h
    exact .undefined
  · next w htrue hfalse hnull hundefined =>
    cases h
    refine .name ha ?_
    simp only [Expr.keywords, List.mem_cons, List.not_mem_nil, or_false, not_or]
    exact ⟨htrue, hfalse, hnull, hundefined⟩
  · cases h

def Row.WellFormed (row : Row) : Prop := row.1.WellFormed ∧ ∀ e ∈ row.2, e.WellFormed

theorem Row.WellFormed.toList {row : Row} (h : row.WellFormed) :
    ∀ e ∈ row.toList, e.WellFormed := by
  intro e he
  rcases List.mem_cons.1 he with rfl | he
  · exact h.1.toExpr
  · exact h.2 e he

theorem wellFormed_of_args? {f : Forest} (hf : ∀ row, row? true f = some row → row.WellFormed)
    {args : List Expr} (h : args? f = some args) : ∀ e ∈ args, e.WellFormed := by
  rcases args?_eq_some h with ⟨-, rfl⟩ | ⟨row, hrow, rfl⟩
  · simp
  · exact (hf row hrow).toList

mutual

theorem wellFormed_of_row? (list : Bool) : (f : Forest) → Spellable f.tokens → {row : Row} →
    row? list f = some row → row.WellFormed
  | .nil, _, _, h => by
    rw [row?] at h
    cases h
  | .leaf a f, hf, _, h => by
    obtain ⟨ha, hrest⟩ := hf.leaf
    rw [row?] at h
    cases hs : atomSign? a with
    | some s =>
      rw [hs] at h
      obtain ⟨row, hrow, rfl⟩ := Option.map_eq_some_iff.1 h
      obtain ⟨hc, hes⟩ := wellFormed_of_row? list f hrest hrow
      exact ⟨hc.signed s, hes⟩
    | none =>
      cases he : atomOperand? a with
      | some e =>
        rw [hs, he] at h
        exact wellFormed_of_rowAfter? list f hrest (wellFormed_of_atomOperand? ha he) h
      | none =>
        rw [hs, he] at h
        cases h
  | .group .round inner f, hf, _, h => by
    obtain ⟨hinner, hrest⟩ := hf.group
    rw [row?] at h
    obtain ⟨row, hrow, h⟩ := Option.bind_eq_some_iff.1 h
    have he := (wellFormed_of_row? false inner hinner hrow).1.toExpr
    exact wellFormed_of_rowAfter? list f hrest he h
  | .group .square _ _, _, _, h => by
    rw [row?] at h
    cases h

theorem wellFormed_of_rowAfter? (list : Bool) : {e : Expr} → (f : Forest) → Spellable f.tokens →
    e.WellFormed → {row : Row} → rowAfter? list e f = some row → row.WellFormed
  | e, .nil, _, he, _, h => by
    rw [rowAfter?] at h
    cases h
    exact ⟨.last he, by simp⟩
  | _, .leaf .dot .nil, _, _, _, h => by simp [rowAfter?] at h
  | _, .leaf .dot (.group ..), _, _, _, h => by simp [rowAfter?] at h
  | _, .leaf .dot (.leaf a f), hf, he, _, h => by
    obtain ⟨ha, hrest⟩ := hf.leaf.2.leaf
    cases a with
    | word w =>
      rw [rowAfter?] at h
      exact wellFormed_of_rowAfter? list f hrest (.member he ha) h
    | number | string | operator | dot | comma => simp [rowAfter?] at h
  | e, .leaf (.operator op) f, hf, he, _, h => by
    rw [rowAfter?] at h
    obtain ⟨row, hrow, rfl⟩ := Option.map_eq_some_iff.1 h
    obtain ⟨hc, hes⟩ := wellFormed_of_row? list f hf.leaf.2 hrow
    exact ⟨.more he hc op, hes⟩
  | e, .leaf .comma f, hf, he, _, h => by
    obtain ⟨-, ⟨-, rfl⟩ | ⟨row', hrow, rfl⟩⟩ := rowAfter?_comma_eq_some h
    · exact ⟨.last he, by simp⟩
    · exact ⟨.last he, (wellFormed_of_row? true f hf.leaf.2 hrow).toList⟩
  | _, .leaf (.number _) _, _, _, _, h => by simp [rowAfter?] at h
  | _, .leaf (.string _) _, _, _, _, h => by simp [rowAfter?] at h
  | _, .leaf (.word _) _, _, _, _, h => by simp [rowAfter?] at h
  | _, .group .square inner f, hf, he, _, h => by
    obtain ⟨hinner, hrest⟩ := hf.group
    rw [rowAfter?] at h
    obtain ⟨row, hrow, h⟩ := Option.bind_eq_some_iff.1 h
    have hk := (wellFormed_of_row? false inner hinner hrow).1.toExpr
    exact wellFormed_of_rowAfter? list f hrest (.index he hk) h
  | _, .group .round inner f, hf, he, _, h => by
    obtain ⟨hinner, hrest⟩ := hf.group
    have hrows : ∀ row, row? true inner = some row → row.WellFormed :=
      fun row hrow => wellFormed_of_row? true inner hinner hrow
    rw [rowAfter?_args] at h
    obtain ⟨args, hargs, h⟩ := Option.bind_eq_some_iff.1 h
    exact wellFormed_of_rowAfter? list f hrest (.call he (wellFormed_of_args? hrows hargs)) h

end

theorem wellFormed_of_parse? {cs : List Char} {e : Expr} (h : parse? cs = some e) :
    e.WellFormed := by
  obtain ⟨f, hscan, row, hrow, rfl⟩ := parse?_eq_some.1 h
  have hspellable := spellable_scan cs
  rw [hscan] at hspellable
  exact (wellFormed_of_row? false f hspellable hrow).1.toExpr

theorem wellFormed_of_parseBraced {s : String} {e : Expr} {n : Nat}
    (h : parseBraced s = .ok (e, n)) : e.WellFormed := by
  obtain ⟨rest, hhole, -⟩ := parseBraced_eq_ok.1 h
  obtain ⟨pre, -, hparse, -⟩ := parseHole?_eq_some hhole
  exact wellFormed_of_parse? hparse

end Source

theorem Expr.WellFormed.reread {e : Expr} (h : e.WellFormed) (style : Style) :
    Source.parse (e.print style) = .ok e := by
  have hempty : Source.scan [] = (Forest.tokens .nil ++ [], []) := Source.scan_nil
  have hscan := Source.scans_chars style h .nil Source.detached_nil hempty
  rw [List.append_nil, List.append_nil] at hscan
  have hparse := Source.parse_of_scan String.toList_ofList hscan
    ((Source.reads_forest h).alone false)
  rwa [e.toExpr_chain] at hparse

/-- Every part of an expression that is read is spellable, and reading the text of the expression,
in which an infinite number is spelled by one that is too large, gives it back. -/
theorem parse_image {s : String} {e : Expr}
    (h : Source.parse s = .ok e ∨ ∃ n, Source.parseBraced s = .ok (e, n)) :
    (∀ n ∈ e.nodes, n.Spellable) ∧
      ∀ style : Style, Source.parse (e.print style) = .ok e := by
  have he : e.WellFormed := by
    rcases h with h | ⟨n, h⟩
    · exact Source.wellFormed_of_parse? (Source.parse_eq_ok.1 h)
    · exact Source.wellFormed_of_parseBraced h
  exact ⟨he.spellable, he.reread⟩

def Numeral.Spelling.overflow : Numeral.Spelling :=
  .ofDecimal ⟨1, 999⟩

def Style.overflowing : Style where
  quote _ := '"'
  quote_cases := Style.exact.quote_cases
  numeral m := if m = .infinite then .overflow else .exact m
  value_numeral m := by
    split
    · next h =>
      rw [h, Numeral.Spelling.value, Numeral.Spelling.overflow, Numeral.Spelling.decimal_ofDecimal]
      rfl
    · exact Numeral.Spelling.value_exact m

theorem parse_image_overflow :
    let e : Expr := .binary (.arithmetic .sub) (.unary .minus (.member (.name "truth") "null"))
      (.literal (.number .infinity))
    Source.parse "-truth.null - 1e999" = .ok e ∧
      (∀ n ∈ e.nodes, n.Spellable) ∧ Source.parse (e.print .overflowing) = .ok e := by
  intro e
  have he : e.WellFormed :=
    .binary _ (.unary _ (.member (.name (by decide) (by decide)) (by decide))) (.number _)
  have hprint : e.print .overflowing = "-truth.null - 1e999" := by
    rfl
  have hparse := he.reread .overflowing
  rw [hprint] at hparse
  obtain ⟨hnodes, hreread⟩ := parse_image (.inl hparse)
  exact ⟨hparse, hnodes, hreread .overflowing⟩

end Coercive
