import Coercive.Proofs.Composition
import Coercive.Proofs.Taking

namespace Coercive

namespace Forest

theorem append_assoc (f g h : Forest) : (f.append g).append h = f.append (g.append h) := by
  induction f with
  | nil => rfl
  | leaf a f ih => rw [append, append, append, ih]
  | group b inner f _ ih => rw [append, append, append, ih]

end Forest

def Chain.signedAll {α : Type} (ss : List Sign) (c : Chain α) : Chain α := ss.foldr .signed c

theorem Chain.items_signedAll {α : Type} (ss : List Sign) (c : Chain α) :
    (c.signedAll ss).items = ss.map Item.sign ++ c.items := by
  induction ss with
  | nil => rfl
  | cons s ss ih => exact congrArg (Item.sign s :: ·) ih

namespace Grammar

open Source Peg

variable {cs mid rest left : List Char} {ps : List Pair} {n : Nat}

/-- The tokens of a forest are scanned in front of the rest. -/
def Covers (cs : List Char) (f : Forest) (rest : List Char) : Prop :=
  scan cs = (f.tokens ++ (scan rest).1, (scan rest).2)

theorem scan_clean {t : Token} (hcs : Clean cs) (h : token? cs = some (t, left)) :
    scan cs = (t :: (scan (skip false left)).1, (scan (skip false left)).2) := by
  rw [scan_eq, show skip false cs = cs from hcs, h, scan_congr (skip_skip false left)]

namespace Covers

theorem nil (cs : List Char) : Covers cs .nil cs := rfl

theorem append {f g : Forest} (hf : Covers cs f mid) (hg : Covers mid g rest) :
    Covers cs (f.append g) rest := by
  rw [Covers, hf, hg, Forest.tokens_append, List.append_assoc]

theorem leaf {a : Atom} (hcs : Clean cs) (h : token? cs = some (.atom a, left)) :
    Covers cs (.leaf a .nil) (skip false left) := scan_clean hcs h

theorem group {f : Forest} (b : Bracket) (hcs : Clean (b.opening :: left))
    (hf : Covers (skip false left) f (b.closing :: mid)) (hmid : Clean (b.closing :: mid)) :
    Covers (b.opening :: left) (.group b f .nil) (skip false mid) := by
  have hopen : token? (b.opening :: left) = some (.opening b, left) := by cases b <;> rfl
  have hclose : token? (b.closing :: mid) = some (.closing b, mid) := by cases b <;> rfl
  rw [Covers, scan_clean hcs hopen, hf, scan_clean hmid hclose]
  simp [Forest.tokens]

end Covers

/-- The pair of an expression is built as the reader reads its forest. -/
structure Yields (inner : List Pair) (f : Forest) (c : Chain Expr) : Prop where
  built : assemble (Pair.entries inner) = .ok c.toExpr
  row : row? false f = some (c, [])

/-- Whatever the rule for expressions takes of a text is built as it is read. -/
def Faithful (cs : List Char) : Prop :=
  ∀ ps rest, Takes (.rule .expr) cs ps rest → ∃ text inner f c,
    ps = [.mk .expr text inner] ∧ Covers cs f rest ∧ Yields inner f c

theorem takes_sign (hcs : Clean cs) (h : Takes (.rule .sign) cs ps rest) :
    ∃ p s, ps = [p] ∧ Pair.entry p = (Item.sign s).entry exprBuilder ∧
      Covers cs (.leaf (.operator s.operator) .nil) rest := by
  by_cases hsign : ∃ s : Sign, cs.head? = some s.char
  · obtain ⟨s, hs⟩ := hsign
    obtain ⟨left, rfl⟩ := List.head?_eq_some_iff.1 hs
    obtain ⟨rfl, rfl⟩ := h.of_derives (derives_sign s left)
    refine ⟨_, s, rfl, Pair.entry_sign s _ _, .leaf hcs ?_⟩
    cases s <;> rfl
  · have hnone : ∀ s : Sign, cs.head? ≠ some s.char := fun s hs => hsign ⟨s, hs⟩
    exact absurd (derives_sign_none hnone) h.not_fails

theorem repeats_sign (hcs : Clean cs) (h : Repeats (.rule .sign) cs ps rest) :
    ∃ (f : Forest) (ss : List Sign),
      ps.map Pair.entry = (ss.map Item.sign).map (Item.entry exprBuilder) ∧ Covers cs f rest ∧
        ∀ list g, row? list (f.append g) =
          (row? list g).map fun (c, es) => (c.signedAll ss, es) := by
  induction h with
  | stop =>
    refine ⟨.nil, [], rfl, .nil _, ?_⟩
    intro list g
    exact Option.map_id'.symm
  | step hstep _ ihrest =>
    obtain ⟨p, s, rfl, hp, hcovers⟩ := takes_sign hcs hstep
    obtain ⟨f, ss, hps, hcovers', hrow⟩ := ihrest hstep.clean
    refine ⟨.leaf (.operator s.operator) f, s :: ss, ?_, hcovers.append hcovers', ?_⟩
    · rw [List.singleton_append, List.map_cons, hp, hps]
      rfl
    · intro list g
      rw [Forest.append, row?_sign, hrow, Option.map_map]
      rfl

theorem exists_operator? (h : Takes (.rule .operator) cs ps rest) :
    ∃ op left, operator? cs = some (op, left) ∧ ps = [.mk op.rule op.text []] ∧
      skip false left = rest := by
  have hmatch := derives_operator cs
  cases hop : operator? cs with
  | none =>
    rw [hop] at hmatch
    exact absurd hmatch h.not_fails
  | some found =>
    obtain ⟨op, left⟩ := found
    rw [hop] at hmatch
    exact ⟨op, left, rfl, h.of_derives hmatch⟩

theorem takes_operator (hcs : Clean cs) (h : Takes (.rule .operator) cs ps rest) :
    ∃ op p, ps = [p] ∧ Pair.entry p = (Item.operator op).entry exprBuilder ∧
      Covers cs (.leaf (.operator op) .nil) rest := by
  obtain ⟨op, left, hop, rfl, rfl⟩ := exists_operator? h
  exact ⟨op, _, rfl, Pair.entry_operator op _ _, .leaf hcs (token?_of_operator? hop)⟩

/-- A single pair extends an operand as the reader does with the tokens that the pair spans. -/
def Extends (cs : List Char) (ps : List Pair) (rest : List Char) (e : Expr) : Prop :=
  ∃ p f e', ps = [p] ∧ Pair.suffix e p = .ok e' ∧ Covers cs f rest ∧
    ∀ list g, rowAfter? list e (f.append g) = rowAfter? list e' g

theorem takes_member (hcs : Clean cs) (h : Takes (.rule .member) cs ps rest) (e : Expr) :
    Extends cs ps rest e := by
  obtain ⟨text, inner, rfl, hbody⟩ := h.of_plain rfl
  obtain ⟨_, _, _, hdot, hname, rfl⟩ := takes_before.1 hbody
  have hclean := hdot.clean
  obtain ⟨rfl, left, rfl, rfl⟩ := takes_text.1 hdot
  rcases word_or_none (skip false left) with ⟨w, left', htoken⟩ | hnone
  · obtain ⟨rfl, rfl⟩ := hname.of_derives (word_of_token? htoken).2.2.2
    have hleaf : Covers ('.' :: left) (.leaf .dot .nil) (skip false left) := .leaf hcs rfl
    refine ⟨_, _, .member e w, rfl, ?_, hleaf.append (.leaf hclean htoken), ?_⟩
    · simp [Pair.suffix]
    · intro list g
      simp only [Forest.append]
      rw [rowAfter?]
  · exact absurd hnone hname.not_fails

section

variable (ih : ∀ ds : List Char, ds.length < n → Clean ds → Faithful ds)

include ih

theorem takes_bracketed (b : Bracket) (hn : cs.length ≤ n) (hcs : Clean cs)
    (h : Takes (.before (.text [b.opening]) (.before (.rule .expr) (.text [b.closing])))
      cs ps rest) :
    ∃ text inner f c, ps = [.mk .expr text inner] ∧ Covers cs (.group b f .nil) rest ∧
      Yields inner f c := by
  obtain ⟨_, mid, _, hopen, hrest, rfl⟩ := takes_before.1 h
  obtain ⟨qs, mid', _, hexpr, hclose, rfl⟩ := takes_before.1 hrest
  have hshort := Nat.lt_of_lt_of_le (length_lt_of_text hopen) hn
  have hclean := hexpr.clean
  obtain ⟨rfl, left, rfl, rfl⟩ := takes_text.1 hopen
  obtain ⟨rfl, left', rfl, rfl⟩ := takes_text.1 hclose
  obtain ⟨text, inner, f, c, rfl, hcovers, hyields⟩ := ih _ hshort (clean_skip left) _ _ hexpr
  exact ⟨text, inner, f, c, rfl, hcovers.group b hcs hclean, hyields⟩

theorem takes_primary (hn : cs.length ≤ n) (hcs : Clean cs)
    (h : Takes (.rule .primary) cs ps rest) :
    ∃ p f e, ps = [p] ∧ Pair.primary p = .ok e ∧ Covers cs f rest ∧
      ∀ list g, row? list (f.append g) = rowAfter? list e g := by
  rcases atom_or_none cs with ⟨a, left, e, htoken, he⟩ | ⟨hliteral, hidentifier⟩
  · obtain ⟨p, hp, hmatch⟩ := derives_primary_atom htoken he
    obtain ⟨rfl, rfl⟩ := h.of_derives hmatch
    have hsign : atomSign? a = none := by
      cases a with
      | operator => cases he
      | number | string | word | dot | comma => rfl
    exact ⟨p, .leaf a .nil, e, rfl, hp, .leaf hcs htoken, row?_leaf hsign he⟩
  · rcases takes_alt.1 ((takes_silent rfl).1 h) with h | ⟨-, h⟩
    · exact absurd hliteral h.not_fails
    rcases takes_alt.1 h with h | ⟨-, h⟩
    · exact absurd hidentifier h.not_fails
    obtain ⟨text, inner, f, c, rfl, hcovers, hyields⟩ := takes_bracketed ih .round hn hcs h
    refine ⟨_, .group .round f .nil, c.toExpr, rfl, hyields.built, hcovers, ?_⟩
    intro list g
    rw [Forest.append, row?, hyields.row]
    rfl

theorem repeats_comma {closing : Forest} (hclosing : Closes true closing [])
    (hn : cs.length < n) (hcs : Clean cs)
    (h : Repeats furtherArgument cs ps rest) :
    ∃ f es, Pair.arguments ps = .ok es ∧ Covers cs f rest ∧
      Closes true (f.append closing) es := by
  induction h with
  | stop => exact ⟨.nil, [], rfl, .nil _, hclosing⟩
  | step hstep hrest ihrest =>
    have hmid := Nat.lt_of_le_of_lt hstep.length_le hn
    obtain ⟨g, es, hes, hcovers', hclose⟩ := ihrest hmid hstep.clean
    obtain ⟨_, _, _, hcomma, hexpr, rfl⟩ := takes_before.1 hstep
    have hclean := hcomma.clean
    have hle := hcomma.length_le
    obtain ⟨rfl, left, rfl, rfl⟩ := takes_text.1 hcomma
    obtain ⟨text, inner, f, c, rfl, hcovers, hyields⟩ :=
      ih _ (Nat.lt_of_le_of_lt hle hn) hclean _ _ hexpr
    have hleaf : Covers (',' :: left) (.leaf .comma .nil) (skip false left) := .leaf hcs rfl
    refine ⟨.leaf .comma (f.append g), c.toExpr :: es, ?_, hleaf.append (hcovers.append hcovers'),
      ?_⟩
    · exact Pair.arguments_cons hyields.built hes
    · have hrow := row?_append hclose f hyields.row
      rw [Forest.append, Forest.append_assoc]
      exact closes_comma hrow

theorem takes_arguments (hn : cs.length < n) (hcs : Clean cs)
    (h : Takes (.opt arguments) cs ps rest) :
    ∃ f es, Pair.arguments ps = .ok es ∧ Covers cs f rest ∧ args? f = some es := by
  rcases (takes_opt hcs).1 h with h | ⟨-, rfl, rfl⟩
  · obtain ⟨_, mid, _, hexpr, hrest, rfl⟩ := takes_before.1 h
    obtain ⟨ps', mid', ps'', hcommas, hcomma, rfl⟩ := takes_before.1 hrest
    obtain ⟨text, inner, f, c, rfl, hcovers, hyields⟩ := ih _ hn hcs _ _ hexpr
    have hcommas := (takes_repeated hexpr.clean).1 hcommas
    have hmid := Nat.lt_of_le_of_lt hexpr.length_le hn
    have hclean := hcommas.clean hexpr.clean
    -- a last comma leaves no pair, but the forest ends with it
    obtain ⟨rfl, closing, hclosing, hcovers''⟩ :
        ps'' = [] ∧ ∃ closing, Closes true closing [] ∧ Covers mid' closing rest := by
      rcases (takes_opt hclean).1 hcomma with hcomma | ⟨-, rfl, rfl⟩
      · obtain ⟨rfl, left, rfl, rfl⟩ := takes_text.1 hcomma
        exact ⟨rfl, _, closes_trailingComma, .leaf hclean rfl⟩
      · exact ⟨rfl, _, closes_nil true, .nil _⟩
    obtain ⟨g, es, hes, hcovers', hclose⟩ := repeats_comma ih hclosing hmid hexpr.clean hcommas
    refine ⟨f.append (g.append closing), c.toExpr :: es, ?_,
      hcovers.append (hcovers'.append hcovers''), ?_⟩
    · rw [List.append_nil]
      exact Pair.arguments_cons hyields.built hes
    · exact args?_of_row? (row?_append hclose f hyields.row)
  · exact ⟨.nil, [], rfl, .nil _, rfl⟩

theorem takes_index (hn : cs.length ≤ n) (hcs : Clean cs) (h : Takes (.rule .index) cs ps rest)
    (e : Expr) : Extends cs ps rest e := by
  obtain ⟨text, inner, rfl, hbody⟩ := h.of_plain rfl
  obtain ⟨_, key, f, c, rfl, hcovers, hyields⟩ := takes_bracketed ih .square hn hcs hbody
  refine ⟨_, _, .index e c.toExpr, rfl, ?_, hcovers, ?_⟩
  · rw [Pair.suffix, hyields.built]
    rfl
  · intro list g
    rw [Forest.append, rowAfter?, hyields.row]
    rfl

theorem takes_call (hn : cs.length ≤ n) (hcs : Clean cs) (h : Takes (.rule .call) cs ps rest)
    (e : Expr) : Extends cs ps rest e := by
  obtain ⟨text, inner, rfl, hbody⟩ := h.of_plain rfl
  obtain ⟨_, _, _, hopen, hrest, rfl⟩ := takes_before.1 hbody
  obtain ⟨qs, mid', _, hargs, hclose, rfl⟩ := takes_before.1 hrest
  have hshort := Nat.lt_of_lt_of_le (length_lt_of_text hopen) hn
  have hclean := hargs.clean
  have hmid := hopen.clean
  obtain ⟨rfl, left, rfl, rfl⟩ := takes_text.1 hopen
  obtain ⟨rfl, left', rfl, rfl⟩ := takes_text.1 hclose
  obtain ⟨f, es, hes, hcovers, hf⟩ := takes_arguments ih hshort hmid hargs
  refine ⟨_, _, .call e es, rfl, ?_, hcovers.group .round hcs hclean, ?_⟩
  · rw [List.nil_append, List.append_nil, Pair.suffix, hes]
    rfl
  · intro list g
    rw [Forest.append, rowAfter?_args, hf]
    rfl

theorem takes_suffix (hn : cs.length ≤ n) (hcs : Clean cs) (h : Takes (.rule .suffix) cs ps rest)
    (e : Expr) : Extends cs ps rest e := by
  rcases takes_alt.1 ((takes_silent rfl).1 h) with hmember | ⟨-, h⟩
  · exact takes_member hcs hmember e
  · rcases takes_alt.1 h with hindex | ⟨-, hcall⟩
    · exact takes_index ih hn hcs hindex e
    · exact takes_call ih hn hcs hcall e

theorem repeats_suffix (hn : cs.length ≤ n) (hcs : Clean cs)
    (h : Repeats (.rule .suffix) cs ps rest) (e : Expr) :
    ∃ f e', Pair.extended e ps = .ok e' ∧ Covers cs f rest ∧
      ∀ list g, rowAfter? list e (f.append g) = rowAfter? list e' g := by
  induction h generalizing e with
  | stop => exact ⟨.nil, e, rfl, .nil _, fun list g => rfl⟩
  | step hstep _ ihrest =>
    obtain ⟨p, f, e', rfl, hp, hcovers, hrow⟩ := takes_suffix ih hn hcs hstep e
    obtain ⟨g, e'', hps, hcovers', hrow'⟩ :=
      ihrest (Nat.le_trans hstep.length_le hn) hstep.clean e'
    refine ⟨f.append g, e'', (Pair.extended_cons hp).trans hps, hcovers.append hcovers', ?_⟩
    intro list k
    rw [Forest.append_assoc, hrow, hrow']

theorem takes_operand (hn : cs.length ≤ n) (hcs : Clean cs)
    (h : Takes (.rule .operand) cs ps rest) :
    ∃ p f e, ps = [p] ∧ Pair.entry p = (Item.operand e).entry exprBuilder ∧ Covers cs f rest ∧
      ∀ list g, row? list (f.append g) = rowAfter? list e g := by
  obtain ⟨text, inner, rfl, hbody⟩ := h.of_plain rfl
  obtain ⟨_, mid, qs, hprimary, hsuffixes, rfl⟩ := takes_before.1 hbody
  obtain ⟨p, f, e, rfl, hp, hcovers, hrow⟩ := takes_primary ih hn hcs hprimary
  have hsuffixes := (takes_repeated hprimary.clean).1 hsuffixes
  obtain ⟨g, e', hqs, hcovers', hrow'⟩ :=
    repeats_suffix ih (Nat.le_trans hprimary.length_le hn) hprimary.clean hsuffixes e
  refine ⟨_, f.append g, e', rfl, Pair.entry_operand ((Pair.operand_cons hp).trans hqs),
    hcovers.append hcovers', ?_⟩
  intro list k
  rw [Forest.append_assoc, hrow, hrow']

theorem takes_signed (hn : cs.length ≤ n) (hcs : Clean cs) (h : Takes signed cs ps rest) :
    ∃ (f : Forest) (ss : List Sign) (e : Expr),
      ps.map Pair.entry = (ss.map Item.sign ++ [Item.operand e]).map (Item.entry exprBuilder) ∧
        Covers cs f rest ∧ ∀ list g, row? list (f.append g) =
          (rowAfter? list e g).map fun (c, es) => (c.signedAll ss, es) := by
  obtain ⟨_, mid, _, hsigns, hoperand, rfl⟩ := takes_before.1 h
  obtain ⟨f, ss, hss, hcovers, hrow⟩ := repeats_sign hcs ((takes_repeated hcs).1 hsigns)
  obtain ⟨p, g, e, rfl, hp, hcovers', hrow'⟩ :=
    takes_operand ih (Nat.le_trans hsigns.length_le hn) hsigns.clean hoperand
  refine ⟨f.append g, ss, e, ?_, hcovers.append hcovers', ?_⟩
  · rw [List.map_append, hss, List.map_append, List.map_cons, hp]
    rfl
  · intro list k
    rw [Forest.append_assoc, hrow, hrow']

theorem repeats_operator (hn : cs.length ≤ n) (hcs : Clean cs)
    (h : Repeats operation cs ps rest) :
    ∃ (f : Forest) (tail : Tail Expr), ps.map Pair.entry = Pratt.tailEntries exprBuilder tail ∧
      Covers cs f rest ∧ ∀ e, rowAfter? false e f = some (tail.after e, []) := by
  induction h with
  | stop => exact ⟨.nil, none, rfl, .nil _, closes_nil false⟩
  | step hstep _ ihrest =>
    obtain ⟨g, tail, htail, hcovers'', hrow'⟩ :=
      ihrest (Nat.le_trans hstep.length_le hn) hstep.clean
    obtain ⟨_, mid, _, hoperator, hsigned, rfl⟩ := takes_before.1 hstep
    obtain ⟨op, p, rfl, hp, hcovers⟩ := takes_operator hcs hoperator
    obtain ⟨f, ss, e, hps, hcovers', hrow⟩ :=
      takes_signed ih (Nat.le_trans hoperator.length_le hn) hoperator.clean hsigned
    refine ⟨.leaf (.operator op) (f.append g), some (op, (tail.after e).signedAll ss), ?_,
      hcovers.append (hcovers'.append hcovers''), ?_⟩
    · rw [List.map_append, List.map_append, List.map_cons, hp, hps, htail, Pratt.tailEntries,
        Pratt.tailEntries, Tail.items, Chain.items_signedAll, Tail.items_after]
      simp
    · intro e'
      rw [rowAfter?, hrow, hrow']
      rfl

/-- An expression, when all shorter texts are taken as they are read. -/
theorem takes_expr (hn : cs.length ≤ n) (hcs : Clean cs) : Faithful cs := by
  intro ps rest h
  obtain ⟨text, inner, rfl, hbody⟩ := h.of_plain rfl
  obtain ⟨_, mid, _, hsigned, hoperators, rfl⟩ := takes_before.1 hbody
  obtain ⟨f, ss, e, hps, hcovers, hrow⟩ := takes_signed ih hn hcs hsigned
  have hoperators := (takes_repeated hsigned.clean).1 hoperators
  obtain ⟨g, tail, htail, hcovers', hrow'⟩ :=
    repeats_operator ih (Nat.le_trans hsigned.length_le hn) hsigned.clean hoperators
  refine ⟨text, _, f.append g, (tail.after e).signedAll ss, rfl, hcovers.append hcovers', ?_, ?_⟩
  · rw [← assemble_entries, Pratt.entries, Chain.items_signedAll, Tail.items_after,
      Pair.entries_eq_map, List.map_append, hps, htail, Pratt.tailEntries]
    simp
  · rw [hrow, hrow']
    rfl

end

theorem faithful (hcs : Clean cs) : Faithful cs := by
  induction hn : cs.length using Nat.strongRecOn generalizing cs with
  | _ n ih =>
    subst hn
    exact takes_expr (fun ds hds hclean => ih _ hds hclean rfl) (Nat.le_refl _) hcs

/-- An expression at the beginning of a text, and what is behind it. -/
theorem derives_start {b : Peg}
    (h : Derives .spaced (.before (.text []) (.before (.rule .expr) b)) cs (some (ps, rest))) :
    ∃ text inner qs f c mid, ps = .mk .expr text inner :: qs ∧ Covers cs f mid ∧
      Yields inner f c ∧ Derives .spaced b mid (some (qs, rest)) := by
  obtain ⟨_, _, _, hstart, hrest, rfl⟩ := derives_before.1 h
  obtain ⟨_, mid, qs, hexpr, hend, rfl⟩ := derives_before.1 hrest
  have hclean := hstart.clean
  obtain ⟨rfl, _, rfl, rfl⟩ := takes_text.1 hstart
  obtain ⟨text, inner, f, c, rfl, hcovers, hyields⟩ := faithful hclean _ _ hexpr
  refine ⟨text, inner, qs, f, c, mid, rfl, ?_, hyields, hend⟩
  rw [Covers, ← hcovers]
  exact scan_congr (skip_skip false _).symm

/-- A match of the rule for whole texts is built and read as one expression. -/
theorem build_program (h : Derives .spaced (.rule .program) cs (some (ps, rest))) :
    ∃ e, buildProgram ps = .ok e ∧ parse? cs = some e := by
  obtain ⟨_, hbody, rfl⟩ := (derives_plain rfl).1 h
  obtain ⟨text, inner, qs, f, c, mid, rfl, hcovers, hyields, hend⟩ := derives_start hbody
  have hmid : mid = [] := by
    obtain ⟨_, hany, -⟩ := (derives_plain rfl).1 hend
    cases mid with
    | nil => rfl
    | cons d tail =>
      cases hany with
      | absent hany =>
        cases hany with
        | oneFail hany => cases hany d rfl
  subst hmid
  refine ⟨c.toExpr, hyields.built, parse?_eq_some.2 ⟨f, ?_, _, hyields.row, rfl⟩⟩
  rw [hcovers, scan_nil, List.append_nil]

theorem build_braced (h : Derives .spaced (.rule .braced) cs (some (ps, rest))) :
    ∃ e, buildBraced ps = .ok (e, Text.byteLength cs - Text.byteLength rest) ∧
      parseHole? cs = some (e, rest) := by
  obtain ⟨t, ht⟩ := h.suffix
  obtain ⟨_, hbody, rfl⟩ := (derives_plain rfl).1 h
  obtain ⟨text, inner, qs, f, c, mid, rfl, hcovers, hyields, hend⟩ := derives_start hbody
  have hmid : mid = '\x7d' :: rest := by
    cases hend with
    | text hbrace => exact hbrace
  have hscan : scan cs = (f.tokens, '\x7d' :: rest) := by
    rw [hcovers, hmid, scan_closingBrace, List.append_nil]
  have hlength : Text.byteLength (consumed cs rest) =
      Text.byteLength cs - Text.byteLength rest := by
    rw [← ht, consumed_append]
    simp [Text.byteLength, Text.bytes_append]
  refine ⟨c.toExpr, ?_, ?_⟩
  · rw [← hlength]
    show (do return (← assemble (Pair.entries inner), _)) = _
    rw [hyields.built]
    rfl
  · rw [parseHole?_of_scan hscan, expr?, Forest.ofTokens?_tokens, Option.bind_some, hyields.row]
    rfl

end Grammar

end Coercive
