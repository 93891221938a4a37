import Coercive.Proofs.Printer
import Coercive.Source.Parse

namespace Coercive

namespace Expr

def encloseTree (needed : Nat) (e : Expr) (tree : OpTree Expr) : OpTree Expr :=
  if e.level < needed then .operand e else tree

/-- The operators and signs of an expression that are written outside brackets. -/
def tree : Expr → OpTree Expr
  | .unary s e => .unary s (encloseTree Sign.level e (tree e))
  | .binary op l r =>
    .binary op (encloseTree op.leftLevel l (tree l)) (encloseTree op.rightLevel r (tree r))
  | e => .operand e

theorem level_tree (e : Expr) : e.tree.level = e.level := by
  cases e <;> rfl

theorem level_encloseTree (e : Expr) {needed : Nat} (h : needed ≤ operandLevel) :
    needed ≤ (encloseTree needed e e.tree).level := by
  rw [encloseTree]
  split
  · exact h
  · next hlevel =>
    rw [level_tree]
    exact Nat.le_of_not_lt hlevel

theorem toExpr_tree (e : Expr) : e.tree.toExpr = e := by
  have henclose : ∀ {e : Expr} (needed : Nat), e.tree.toExpr = e →
      (encloseTree needed e e.tree).toExpr = e := by
    intro e needed he
    rw [encloseTree]
    split
    · rfl
    · exact he
  fun_induction tree e with
  | case1 s e ih => rw [OpTree.toExpr, henclose _ ih]
  | case2 op l r ihl ihr => rw [OpTree.toExpr, henclose _ ihl, henclose _ ihr]
  | case3 e => rfl

theorem grouped_tree (e : Expr) : e.tree.Grouped := by
  have henclose : ∀ {e : Expr} (needed : Nat), e.tree.Grouped →
      (encloseTree needed e e.tree).Grouped := by
    intro e needed he
    rw [encloseTree]
    split
    · trivial
    · exact he
  fun_induction tree e with
  | case1 s e ih => exact ⟨henclose _ ih, level_encloseTree e (by decide)⟩
  | case2 op l r ihl ihr =>
    obtain ⟨-, hleft, hright⟩ := op.levels_le
    exact ⟨⟨henclose _ ihl, level_encloseTree l hleft⟩, henclose _ ihr, level_encloseTree r hright⟩
  | case3 e => trivial

/-- An expression is found again in the chain of its operators and signs. -/
theorem toExpr_chain (e : Expr) : e.tree.chain.toExpr = e := by
  rw [Chain.toExpr, OpTree.tree_chain e.grouped_tree, toExpr_tree]

theorem encloseTree_operandLevel (e : Expr) :
    encloseTree operandLevel e e.tree = .operand e := by
  cases e with
  | unary s e => rfl
  | binary op l r => exact if_pos op.levels_le.1
  | literal | name | member | index | call => rfl

end Expr

namespace Source

/-- Reading a forest before any other gives the chain of a tree, before the chain of the other. -/
def Reads (forest : Forest → Forest) (tree : OpTree Expr) : Prop :=
  ∀ ⦃list : Bool⦄ ⦃rest : Forest⦄ ⦃k : Expr → Chain Expr⦄ ⦃es : List Expr⦄,
    (∀ x, rowAfter? list x rest = some (k x, es)) →
      row? list (forest rest) = some (tree.append k, es)

namespace Reads

variable {forest : Forest → Forest} {e : Expr}

theorem alone (h : Reads forest e.tree) (list : Bool) :
    row? list (forest .nil) = some (e.tree.chain, []) := by
  apply h
  intro x
  rw [rowAfter?]

theorem round (h : Reads forest e.tree) (list : Bool) (rest : Forest) :
    row? list (.group .round (forest .nil) rest) = rowAfter? list e rest := by
  rw [row?, h.alone false, Option.bind_some]
  simp only [e.toExpr_chain]

theorem enclose (needed : Nat) (h : Reads forest e.tree) :
    Reads (e.encloseForest needed forest) (e.encloseTree needed e.tree) := by
  intro list rest k es hrest
  rw [Expr.encloseForest, Expr.encloseTree]
  split
  · rw [h.round, hrest]
    rfl
  · exact h hrest

theorem extend (h : Reads forest e.tree) {list : Bool} {rest rest' : Forest}
    {k : Expr → Chain Expr} {es : List Expr} (f : Expr → Expr)
    (hextend : ∀ x, rowAfter? list x rest' = rowAfter? list (f x) rest)
    (hrest : ∀ x, rowAfter? list x rest = some (k x, es)) :
    row? list (e.encloseForest operandLevel forest rest') = some (k (f e), es) := by
  have hread := h.enclose operandLevel (k := fun x => k (f x))
    fun x => (hextend x).trans (hrest (f x))
  rw [e.encloseTree_operandLevel] at hread
  exact hread

end Reads

theorem row?_leaf {a : Atom} {e : Expr} (hsign : atomSign? a = none) (he : atomOperand? a = some e)
    (list : Bool) (rest : Forest) : row? list (.leaf a rest) = rowAfter? list e rest := by
  rw [row?, hsign, he]

theorem atomOperand?_word {w : String} (h : w ∉ Expr.keywords) :
    atomOperand? (.word w) = some (.name w) := by
  unfold atomOperand?
  split <;> simp_all [Expr.keywords]

theorem row?_sign (s : Sign) (list : Bool) (rest : Forest) :
    row? list (.leaf (.operator s.operator) rest)
      = (row? list rest).map fun (c, es) => (.signed s c, es) := by
  cases s <;> rw [Sign.operator, row?, atomSign?]

theorem rowAfter?_comma {list : Bool} {rest : Forest} {row : Row}
    (hrest : row? true rest = some row) (hlist : list = true) (e : Expr) :
    rowAfter? list e (.leaf .comma rest) = some (.last e, row.toList) := by
  subst hlist
  cases rest with
  | nil => cases hrest
  | leaf | group => simp [rowAfter?, hrest]

theorem rowAfter?_comma_eq_some {list : Bool} {e : Expr} {f : Forest} {row : Row}
    (h : rowAfter? list e (.leaf .comma f) = some row) :
    list = true ∧ (f = .nil ∧ row = (.last e, []) ∨
      ∃ row', row? true f = some row' ∧ row = (.last e, row'.toList)) := by
  cases list with
  | false => cases f <;> simp [rowAfter?] at h
  | true =>
    cases f with
    | nil =>
      rw [rowAfter?] at h
      cases h
      exact ⟨rfl, .inl ⟨rfl, rfl⟩⟩
    | leaf | group =>
      simp only [rowAfter?, if_true] at h
      obtain ⟨row', hrow, rfl⟩ := Option.map_eq_some_iff.1 h
      exact ⟨rfl, .inr ⟨row', hrow, rfl⟩⟩

def args? : Forest → Option (List Expr)
  | .nil => some []
  | f => (row? true f).map Row.toList

theorem rowAfter?_args (list : Bool) (e : Expr) (inner rest : Forest) :
    rowAfter? list e (.group .round inner rest) =
      (args? inner).bind fun args => rowAfter? list (.call e args) rest := by
  cases inner with
  | nil => rw [rowAfter?]; rfl
  | leaf | group =>
    simp only [rowAfter?, args?, Option.bind_map]
    rfl

theorem args?_of_row? {f : Forest} {row : Row} (h : row? true f = some row) :
    args? f = some row.toList := by
  cases f with
  | nil => cases h
  | leaf | group => rw [args?, h, Option.map_some]; simp

theorem args?_eq_some {f : Forest} {args : List Expr} (h : args? f = some args) :
    f = .nil ∧ args = [] ∨ ∃ row, row? true f = some row ∧ args = row.toList := by
  unfold args? at h
  split at h
  · cases h
    exact .inl ⟨rfl, rfl⟩
  · obtain ⟨row, hrow, rfl⟩ := Option.map_eq_some_iff.1 h
    exact .inr ⟨row, hrow, rfl⟩

theorem row?_forestAll {args : List Expr} (hargs : ∀ a ∈ args, Reads a.forest a.tree)
    (hne : args ≠ []) :
    ∃ row, row? true (Expr.forestAll args) = some row ∧ Row.toList row = args := by
  induction args with
  | nil => exact absurd rfl hne
  | cons a args ih =>
    have ha := hargs a List.mem_cons_self
    cases args with
    | nil =>
      refine ⟨_, ha.alone true, ?_⟩
      rw [Row.toList, a.toExpr_chain]
    | cons a' args =>
      obtain ⟨row, hrow, hlist⟩ := ih (fun x hx => hargs x (List.mem_cons_of_mem _ hx)) (by simp)
      refine ⟨_, ha (rowAfter?_comma hrow rfl), ?_⟩
      rw [hlist]
      exact congrArg (· :: _) a.toExpr_chain

theorem reads_forest {e : Expr} (h : e.WellFormed) : Reads e.forest e.tree := by
  induction h with
  | undefined | null | number | string =>
    intro list rest k es hrest
    exact (row?_leaf rfl rfl list rest).trans (hrest _)
  | bool b =>
    intro list rest k es hrest
    cases b <;> exact (row?_leaf rfl rfl list rest).trans (hrest _)
  | name _ hkeyword =>
    intro list rest k es hrest
    exact (row?_leaf rfl (atomOperand?_word hkeyword) list rest).trans (hrest _)
  | @member e f _ _ ih =>
    intro list rest k es hrest
    exact ih.extend (.member · f) (fun x => by rw [rowAfter?]) hrest
  | @index e key _ _ ihe ihkey =>
    intro list rest k es hrest
    apply ihe.extend (.index · key) _ hrest
    intro x
    rw [rowAfter?, ihkey.alone false, Option.bind_some]
    simp only [key.toExpr_chain]
  | @call e args _ _ ihe ihargs =>
    intro list rest k es hrest
    apply ihe.extend (.call · args) _ hrest
    intro x
    by_cases hargs : args = []
    · subst hargs
      rw [Expr.forestAll, rowAfter?]
    · obtain ⟨row, hrow, hlist⟩ := row?_forestAll ihargs hargs
      rw [rowAfter?_args, args?_of_row? hrow, hlist, Option.bind_some]
  | @unary s e _ ih =>
    intro list rest k es hrest
    have hbody := ih.enclose Sign.level hrest
    rw [Expr.forest, row?_sign, hbody]
    rfl
  | @binary op l r _ _ ihl ihr =>
    intro list rest k es hrest
    have hright := ihr.enclose op.rightLevel hrest
    rw [Expr.forest]
    apply ihl.enclose op.leftLevel (k := fun x => .more x op _)
    intro x
    rw [rowAfter?, hright]
    rfl

theorem parse?_chars (style : Style) {e : Expr} (h : e.WellFormed) :
    parse? (e.chars style) = some e := by
  have hempty : scan [] = (Forest.tokens .nil ++ [], []) := by
    rw [scan_eq]
    rfl
  have hscan := scans_chars style h .nil detached_nil hempty
  simp only [List.append_nil] at hscan
  rw [parse?, hscan]
  simp only [expr?, Forest.ofTokens?_tokens, Option.bind_some, (reads_forest h).alone,
    Option.map_some, e.toExpr_chain]

end Source

/-- Reading the text of an expression gives the expression, whatever quotes and spellings its text
is written with. -/
theorem parse_print (style : Style) {e : Expr} (h : e.WellFormed) :
    Source.parse (e.print style) = .ok e := by
  rw [Source.parse, Expr.print, String.toList_ofList, Source.parse?_chars style h]

/-- A sign may stand on the right of a power without brackets but not on its left, and a number is
not continued by the member behind it. -/
theorem parse_print_signed_power :
    let call : Expr := .call (.name "nulls")
      [.literal (.string "it's \"b\"\n"), .binary .eq (.name "x") (.literal .null)]
    let power : Expr := .binary (.arithmetic .pow)
      (.member (.literal (.number .zero)) "e5") call
    let e : Expr := .binary (.arithmetic .pow) (.unary .minus (.name "a")) (.unary .minus power)
    e.WellFormed ∧
      e.print .exact = "(-a) ** -0e-1074.e5 ** nulls(\"it's \\\"b\\\"\\n\", x == null)" ∧
      Source.parse (e.print .exact) = .ok e := by
  intro call power e
  have hname : ∀ x ∈ ["a", "x", "nulls"], (Expr.name x).WellFormed := by
    intro x hx
    simp only [List.mem_cons, List.not_mem_nil, or_false] at hx
    rcases hx with rfl | rfl | rfl <;> exact .name (by decide) (by decide)
  have hcall : call.WellFormed := by
    refine .call (hname _ (by simp)) fun a ha => ?_
    simp only [List.mem_cons, List.not_mem_nil, or_false] at ha
    rcases ha with rfl | rfl
    · exact .string _
    · exact .binary _ (hname _ (by simp)) .null
  have he : e.WellFormed :=
    .binary _ (.unary _ (hname _ (by simp)))
      (.unary _ (.binary _ (.member (.number .zero) (by decide)) hcall))
  have hzero : Style.exact.literal (.number .zero) = "0e-1074".toList := by
    have hsize : Magnitude.size .zero = 0 := by decide
    have hdecimal : Decimal.exact .zero = ⟨0, -1074⟩ := by
      rw [Decimal.exact, hsize]
      generalize Nat.pow 5 1074 = five
      rw [Nat.zero_mul]
    have htext : (Numeral.Spelling.ofDecimal ⟨0, -1074⟩).text = "0e-1074".toList := by cbv
    rw [← hdecimal] at htext
    exact htext
  have hstring : ∀ s, Style.exact.literal (.string s) = Source.quoted '"' s := fun _ => rfl
  have hnull : Style.exact.literal .null = "null".toList := rfl
  have hprint : e.print .exact
      = "(-a) ** -0e-1074.e5 ** nulls(\"it's \\\"b\\\"\\n\", x == null)" := by
    simp only [e, power, call, Expr.print, Expr.chars, Expr.charsAll, hzero, hstring, hnull]
    cbv
  exact ⟨he, hprint, parse_print .exact he⟩

end Coercive
