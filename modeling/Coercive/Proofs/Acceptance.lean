import Coercive.Proofs.Building

namespace Coercive.Grammar

open Source Peg

variable {a b : Peg} {cs mid rest left tail : List Char} {ts : List Token} {list : Bool}

def Accepts (a : Peg) (cs rest : List Char) : Prop := ∃ ps, Takes a cs ps rest

def Runs (a : Peg) (cs rest : List Char) : Prop := ∃ ps, Repeats a cs ps rest

theorem Accepts.clean (h : Accepts a cs rest) : Clean rest := by
  obtain ⟨ps, h⟩ := h
  exact h.clean

theorem Accepts.before (ha : Accepts a cs mid) (hb : Accepts b mid rest) :
    Accepts (a.before b) cs rest := by
  obtain ⟨ps, ha⟩ := ha
  obtain ⟨qs, hb⟩ := hb
  exact ⟨_, takes_before.2 ⟨ps, mid, qs, ha, hb, rfl⟩⟩

theorem accepts_text (t : List Char) (left : List Char) :
    Accepts (.text t) (t ++ left) (skip false left) := ⟨[], takes_text.2 ⟨rfl, left, rfl, rfl⟩⟩

theorem Accepts.repeated (hcs : Clean cs) (h : Runs a cs rest) : Accepts (.repeated a) cs rest := by
  obtain ⟨ps, h⟩ := h
  exact ⟨ps, (takes_repeated hcs).2 h⟩

theorem Accepts.plain {r : Rule} (hkind : r.kind = .plain) (h : Accepts r.body cs rest) :
    Accepts (.rule r) cs rest := by
  obtain ⟨ps, h⟩ := h
  exact h.plain hkind

theorem Runs.stop (h : Fails a cs) : Runs a cs cs := ⟨[], .stop h⟩

theorem Runs.step (h : Runs a mid rest) (ha : Accepts a cs mid) : Runs a cs rest := by
  obtain ⟨ps, ha⟩ := ha
  obtain ⟨qs, h⟩ := h
  exact ⟨_, .step ha h⟩

theorem exists_token {t : Token} (hcs : Clean cs) (h : scan cs = (t :: ts, tail)) :
    ∃ left, token? cs = some (t, left) ∧ scan (skip false left) = (ts, tail) := by
  cases htoken : token? cs with
  | none =>
    rw [scan_eq, show skip false cs = cs from hcs, htoken] at h
    cases h
  | some found =>
    obtain ⟨t', left⟩ := found
    rw [scan_clean hcs htoken] at h
    cases h
    exact ⟨left, rfl, rfl⟩

/-- Behind an expression stands a closing bracket or no token. -/
def Ends (ts : List Token) : Prop := ∀ t ∈ ts.head?, ∃ b, t = .closing b

theorem ends_token (hcs : Clean cs) (h : scan cs = (ts, tail)) (hts : Ends ts) {t : Token}
    (ht : token? cs = some (t, left)) : ∃ b, t = .closing b := by
  rw [scan_clean hcs ht] at h
  cases h
  exact hts t rfl

theorem accepts_sign {a : Atom} {s : Sign} (h : token? cs = some (.atom a, left))
    (ha : atomSign? a = some s) : Accepts (.rule .sign) cs (skip false left) := by
  have hcs : cs = s.char :: left := by
    unfold atomSign? at ha
    split at ha <;> cases ha <;> exact text_of_operator? (begins_of_token? h)
  subst hcs
  exact ⟨_, left, derives_sign s left, rfl⟩

theorem fails_sign (h : ∀ op left, token? cs ≠ some (.atom (.operator op), left)) :
    Fails (.rule .sign) cs := by
  apply derives_sign_none
  intro s hs
  obtain ⟨left, rfl⟩ := List.head?_eq_some_iff.1 hs
  apply h s.operator left
  cases s <;> rfl

theorem accepts_operator {op : Operator} (h : token? cs = some (.atom (.operator op), left)) :
    Accepts (.rule .operator) cs (skip false left) := by
  have hmatch := derives_operator cs
  rw [show operator? cs = some (op, left) from begins_of_token? h] at hmatch
  exact ⟨_, left, hmatch, rfl⟩

theorem fails_operator (h : ∀ op left, token? cs ≠ some (.atom (.operator op), left)) :
    Fails (.rule .operator) cs := by
  have hmatch := derives_operator cs
  cases hop : operator? cs with
  | none =>
    rw [hop] at hmatch
    exact hmatch
  | some found => exact absurd (token?_of_operator? hop) (h _ _)

theorem accepts_member {w : String} (h : token? (skip false left) = some (.atom (.word w), rest)) :
    Accepts (.rule .suffix) ('.' :: left) (skip false rest) := by
  have hname : Accepts (.rule .identifier) (skip false left) (skip false rest) :=
    ⟨_, rest, (word_of_token? h).2.2.2, rfl⟩
  obtain ⟨ps, hmember⟩ := ((accepts_text ['.'] left).before hname).plain (r := .member) rfl
  exact ⟨ps, (takes_silent rfl).2 (takes_alt.2 (.inl hmember))⟩

theorem fails_member (h : cs.head? ≠ some '.') : Fails (.rule .member) cs :=
  Fails.rule rfl (.before (fails_text h))

theorem fails_index (h : cs.head? ≠ some '[') : Fails (.rule .index) cs :=
  Fails.rule rfl (.before (fails_text h))

theorem fails_call (h : cs.head? ≠ some '(') : Fails (.rule .call) cs :=
  Fails.rule rfl (.before (fails_text h))

theorem head_ne {c : Char} {t : Token} (hc : ∀ left, token? (c :: left) = some (t, left))
    (h : ∀ left, token? cs ≠ some (t, left)) : cs.head? ≠ some c := by
  intro hhead
  obtain ⟨left, rfl⟩ := List.head?_eq_some_iff.1 hhead
  exact h left (hc left)

theorem fails_suffix (hdot : ∀ left, token? cs ≠ some (.atom .dot, left))
    (hopening : ∀ b left, token? cs ≠ some (.opening b, left)) : Fails (.rule .suffix) cs := by
  have hmember := fails_member (head_ne (fun _ => rfl) hdot)
  have hindex := fails_index (head_ne (fun _ => rfl) (hopening .square))
  have hcall := fails_call (head_ne (fun _ => rfl) (hopening .round))
  exact Fails.rule rfl (.second hmember (.second hindex hcall))

/-- No expression begins where there is neither an atom nor an opening round bracket. -/
theorem fails_expr (hcs : Clean cs) (hatom : ∀ a left, token? cs ≠ some (.atom a, left))
    (hopening : ∀ left, token? cs ≠ some (.opening .round, left)) : Fails (.rule .expr) cs := by
  have hsign : Fails (.rule .sign) cs := fails_sign fun op left => hatom _ left
  obtain ⟨hliteral, hidentifier⟩ :=
    derives_atom_none fun a left h => absurd h (hatom a left)
  have hround : Fails (.text ['(']) cs := fails_text (head_ne (fun _ => rfl) hopening)
  have hprimary : Fails (.rule .primary) cs :=
    Fails.rule rfl (.second hliteral (.second hidentifier hround.before))
  have hsigned : Fails signed cs :=
    .behind ((takes_repeated hcs).2 (.stop hsign)) (Fails.rule rfl hprimary.before)
  exact Fails.rule rfl hsigned.before

/-- The rule for expressions takes a text part by part. -/
def Spans (cs rest : List Char) : Prop :=
  ∃ mid mid', Runs (.rule .sign) cs mid ∧ Accepts (.rule .operand) mid mid' ∧
    Runs operation mid' rest

theorem Spans.signed (hcs : Clean cs) (h : Spans cs rest) :
    ∃ mid, Accepts signed cs mid ∧ Runs operation mid rest := by
  obtain ⟨mid, mid', hsigns, hoperand, hoperations⟩ := h
  exact ⟨mid', (Accepts.repeated hcs hsigns).before hoperand, hoperations⟩

theorem Spans.accepts (hcs : Clean cs) (h : Spans cs rest) : Accepts (.rule .expr) cs rest := by
  obtain ⟨mid, hsigned, hoperations⟩ := h.signed hcs
  exact (hsigned.before (.repeated hsigned.clean hoperations)).plain rfl

/-- What may stand behind an expression: nothing, or in a list further ones and a last comma. -/
def Trails : Bool → List Char → List Char → Prop
  | false, cs, rest => rest = cs
  | true, cs, rest => ∃ mid, Runs furtherArgument cs mid ∧ Accepts (.opt (.text [','])) mid rest

/-- The place where scanning goes on behind an expression or a list. -/
def Reaches (rest : List Char) (ts : List Token) (tail : List Char) : Prop :=
  Clean rest ∧ scan rest = (ts, tail)

/-- An expression is taken, with what stands behind it. -/
def RowTaken (list : Bool) (cs : List Char) (ts : List Token) (tail : List Char) : Prop :=
  ∃ mid rest, Spans cs mid ∧ Trails list mid rest ∧ Reaches rest ts tail

def AfterTaken (list : Bool) (cs : List Char) (ts : List Token) (tail : List Char) : Prop :=
  ∃ mid mid' rest, Runs (.rule .suffix) cs mid ∧ Runs operation mid mid' ∧
    Trails list mid' rest ∧ Reaches rest ts tail

theorem RowTaken.sign (hsign : Accepts (.rule .sign) cs mid) (h : RowTaken list mid ts tail) :
    RowTaken list cs ts tail := by
  obtain ⟨last, rest, ⟨m, m', hsigns, hoperand, hoperations⟩, htrails, hreaches⟩ := h
  exact ⟨last, rest, ⟨m, m', hsigns.step hsign, hoperand, hoperations⟩, htrails, hreaches⟩

theorem RowTaken.operand (hsign : Fails (.rule .sign) cs)
    (hprimary : Accepts (.rule .primary) cs mid) (h : AfterTaken list mid ts tail) :
    RowTaken list cs ts tail := by
  obtain ⟨m, m', rest, hsuffixes, hoperations, htrails, hreaches⟩ := h
  have hoperand : Accepts (.rule .operand) cs m :=
    (hprimary.before (.repeated hprimary.clean hsuffixes)).plain rfl
  exact ⟨m', rest, ⟨cs, m, .stop hsign, hoperand, hoperations⟩, htrails, hreaches⟩

theorem AfterTaken.suffix (hsuffix : Accepts (.rule .suffix) cs mid)
    (h : AfterTaken list mid ts tail) : AfterTaken list cs ts tail := by
  obtain ⟨m, m', rest, hsuffixes, hrest⟩ := h
  exact ⟨m, m', rest, hsuffixes.step hsuffix, hrest⟩

theorem AfterTaken.operator (hsuffix : Fails (.rule .suffix) cs)
    (hoperator : Accepts (.rule .operator) cs mid) (h : RowTaken list mid ts tail) :
    AfterTaken list cs ts tail := by
  obtain ⟨m, rest, hspans, hrest⟩ := h
  obtain ⟨m', hsigned, hoperations⟩ := hspans.signed hoperator.clean
  exact ⟨cs, m, rest, .stop hsuffix, hoperations.step (hoperator.before hsigned), hrest⟩

theorem AfterTaken.ending (hsuffix : Fails (.rule .suffix) cs)
    (hoperator : Fails (.rule .operator) cs) (htrails : Trails list cs rest)
    (hreaches : Reaches rest ts tail) : AfterTaken list cs ts tail :=
  ⟨cs, cs, rest, .stop hsuffix, .stop hoperator.before, htrails, hreaches⟩

theorem eq_of_opening {b : Bracket} (h : token? cs = some (.opening b, left)) :
    cs = b.opening :: left := by
  obtain ⟨l, hl, hcs⟩ := exists_lexeme_of_token? h
  cases l with
  | opening b' =>
    cases hl
    exact hcs
  | number | string | word | operator | dot | comma | closing | brace => cases hl

theorem eq_of_closing {b : Bracket} (h : token? cs = some (.closing b, left)) :
    cs = b.closing :: left := by
  obtain ⟨l, hl, hcs⟩ := exists_lexeme_of_token? h
  cases l with
  | closing b' =>
    cases hl
    exact hcs
  | number | string | word | operator | dot | comma | opening | brace => cases hl

theorem Reaches.closing {b : Bracket} (h : Reaches cs (.closing b :: ts) tail) :
    ∃ rest, Accepts (.text [b.closing]) cs rest ∧ Reaches rest ts tail := by
  obtain ⟨hcs, hscan⟩ := h
  obtain ⟨left, htoken, hscan⟩ := exists_token hcs hscan
  rw [eq_of_closing htoken]
  exact ⟨_, accepts_text [b.closing] left, clean_skip left, hscan⟩

theorem RowTaken.bracketed {b : Bracket}
    (h : RowTaken false (skip false left) (.closing b :: ts) tail) :
    ∃ rest, Accepts (.before (.text [b.opening]) (.before (.rule .expr) (.text [b.closing])))
      (b.opening :: left) rest ∧ Reaches rest ts tail := by
  obtain ⟨mid, _, hspans, rfl, hreaches⟩ := h
  obtain ⟨rest, hclosing, hrest⟩ := hreaches.closing
  have hexpr := hspans.accepts (clean_skip left)
  exact ⟨rest, (accepts_text [b.opening] left).before (hexpr.before hclosing), hrest⟩

theorem RowTaken.round (h : RowTaken false (skip false left) (.closing .round :: ts) tail) :
    ∃ rest, Accepts (.rule .primary) ('(' :: left) rest ∧ Reaches rest ts tail := by
  obtain ⟨rest, ⟨ps, hbracketed⟩, hrest⟩ := h.bracketed
  have hopen : token? ('(' :: left) = some (.opening .round, left) := rfl
  obtain ⟨hliteral, hidentifier⟩ := derives_atom_none fun a left' ha => by
    rw [hopen] at ha
    cases ha
  have hprimary := takes_alt.2 (.inr ⟨hliteral, takes_alt.2 (.inr ⟨hidentifier, hbracketed⟩)⟩)
  exact ⟨rest, ⟨ps, (takes_silent rfl).2 hprimary⟩, hrest⟩

theorem RowTaken.square (h : RowTaken false (skip false left) (.closing .square :: ts) tail) :
    ∃ rest, Accepts (.rule .suffix) ('[' :: left) rest ∧ Reaches rest ts tail := by
  obtain ⟨rest, hbracketed, hrest⟩ := h.bracketed
  obtain ⟨ps, hindex⟩ := hbracketed.plain (r := .index) rfl
  have hmember : Fails (.rule .member) ('[' :: left) := fails_member (by simp)
  exact ⟨rest, ⟨ps, (takes_silent rfl).2 (takes_alt.2 (.inr ⟨hmember, takes_alt.2 (.inl hindex)⟩))⟩,
    hrest⟩

theorem accepts_call {mid : List Char} (hargs : Accepts (.opt arguments) (skip false left) mid)
    (hmid : Reaches mid (.closing .round :: ts) tail) :
    ∃ rest, Accepts (.rule .suffix) ('(' :: left) rest ∧ Reaches rest ts tail := by
  obtain ⟨rest, hclosing, hrest⟩ := hmid.closing
  obtain ⟨ps, hcall⟩ :=
    ((accepts_text ['('] left).before (hargs.before hclosing)).plain (r := .call) rfl
  have hindex : Fails (.rule .index) ('(' :: left) := fails_index (by simp)
  have hsuffix := takes_alt.2 (.inr ⟨fails_member (by simp), takes_alt.2 (.inr ⟨hindex, hcall⟩)⟩)
  exact ⟨rest, ⟨ps, (takes_silent rfl).2 hsuffix⟩, hrest⟩

theorem RowTaken.call (h : RowTaken true (skip false left) (.closing .round :: ts) tail) :
    ∃ rest, Accepts (.rule .suffix) ('(' :: left) rest ∧ Reaches rest ts tail := by
  obtain ⟨mid, mid', hspans, ⟨last, hitems, hcomma⟩, hreaches⟩ := h
  have hclean := clean_skip left
  have hexpr := hspans.accepts hclean
  obtain ⟨ps, hargs⟩ : Accepts arguments (skip false left) mid' :=
    hexpr.before ((Accepts.repeated hexpr.clean hitems).before hcomma)
  exact accepts_call ⟨ps, (takes_opt hclean).2 (.inl hargs)⟩ hreaches

theorem accepts_emptyCall (h : Reaches (skip false left) (.closing .round :: ts) tail) :
    ∃ rest, Accepts (.rule .suffix) ('(' :: left) rest ∧ Reaches rest ts tail := by
  obtain ⟨left', htoken, -⟩ := exists_token h.1 h.2
  have hexpr : Fails (.rule .expr) (skip false left) := by
    apply fails_expr h.1
    · intro a left'' ha
      rw [htoken] at ha
      cases ha
    · intro left'' hopening
      rw [htoken] at hopening
      cases hopening
  exact accepts_call ⟨[], (takes_opt h.1).2 (.inr ⟨hexpr.before, rfl, rfl⟩)⟩ h

theorem afterTaken_nil (list : Bool) (hts : Ends ts) (h : Reaches cs ts tail) :
    AfterTaken list cs ts tail := by
  obtain ⟨hcs, hscan⟩ := h
  have hatom : ∀ a left, token? cs ≠ some (.atom a, left) := by
    intro a left ha
    obtain ⟨b, hb⟩ := ends_token hcs hscan hts ha
    cases hb
  have hopening : ∀ b left, token? cs ≠ some (.opening b, left) := by
    intro b left hb
    obtain ⟨b', hb'⟩ := ends_token hcs hscan hts hb
    cases hb'
  have hcomma : Fails (.text [',']) cs := fails_text (head_ne (fun _ => rfl) (hatom .comma))
  have htrails : Trails list cs cs := by
    cases list with
    | false => rfl
    | true =>
      exact ⟨cs, .stop hcomma.before, [], (takes_opt hcs).2 (.inr ⟨hcomma, rfl, rfl⟩)⟩
  exact .ending (fails_suffix (hatom .dot) hopening) (fails_operator fun op => hatom _)
    htrails ⟨hcs, hscan⟩

theorem fails_comma (left : List Char) :
    Fails (.rule .suffix) (',' :: left) ∧ Fails (.rule .operator) (',' :: left) := by
  have hatom : ∀ a left', token? (',' :: left) = some (.atom a, left') → a = .comma := by
    intro a left' h
    cases h
    rfl
  constructor
  · apply fails_suffix
    · intro left' h
      cases hatom _ _ h
    · intro b left' h
      cases h
  · apply fails_operator
    intro op left' h
    cases hatom _ _ h

theorem afterTaken_comma (hts : Ends ts) (hcs : Clean (',' :: left))
    (h : scan (skip false left) = (ts, tail)) : AfterTaken true (',' :: left) ts tail := by
  have hclean := clean_skip left
  have hexpr : Fails (.rule .expr) (skip false left) := by
    apply fails_expr hclean
    · intro a left' ha
      obtain ⟨b, hb⟩ := ends_token hclean h hts ha
      cases hb
    · intro left' hopening
      obtain ⟨b, hb⟩ := ends_token hclean h hts hopening
      cases hb
  obtain ⟨ps, hcomma⟩ := accepts_text [','] left
  have hitems : Fails furtherArgument (',' :: left) := .behind hcomma hexpr
  have htrails : Trails true (',' :: left) (skip false left) :=
    ⟨_, .stop hitems, ps, (takes_opt hcs).2 (.inl hcomma)⟩
  obtain ⟨hsuffix, hoperator⟩ := fails_comma left
  exact .ending hsuffix hoperator htrails ⟨hclean, h⟩

theorem afterTaken_items (h : RowTaken true (skip false left) ts tail) :
    AfterTaken true (',' :: left) ts tail := by
  obtain ⟨mid, rest, hspans, ⟨last, hitems, hcomma⟩, hreaches⟩ := h
  have hexpr := hspans.accepts (clean_skip left)
  have htrails : Trails true (',' :: left) rest :=
    ⟨last, hitems.step ((accepts_text [','] left).before hexpr), hcomma⟩
  obtain ⟨hsuffix, hoperator⟩ := fails_comma left
  exact .ending hsuffix hoperator htrails hreaches

theorem ends_closing (b : Bracket) (ts : List Token) : Ends (.closing b :: ts) := by
  intro t ht
  cases ht
  exact ⟨b, rfl⟩

-- By induction on the forest. The tokens `ts` behind it are those at which the expression around a
-- bracket goes on.
mutual

theorem rowTaken (list : Bool) : (f : Forest) → {row : Row} → row? list f = some row →
    {cs tail : List Char} → {ts : List Token} → Ends ts → Reaches cs (f.tokens ++ ts) tail →
      RowTaken list cs ts tail
  | .nil, _, h, _, _, _, _, _ => by
    rw [row?] at h
    cases h
  | .leaf a f, _, h, _, _, _, hts, ⟨hcs, hscan⟩ => by
    obtain ⟨left, htoken, hscan⟩ := exists_token hcs hscan
    rw [row?] at h
    cases hs : atomSign? a with
    | some s =>
      rw [hs] at h
      obtain ⟨row, hrow, -⟩ := Option.map_eq_some_iff.1 h
      exact (rowTaken list f hrow hts ⟨clean_skip left, hscan⟩).sign (accepts_sign htoken hs)
    | none =>
      cases he : atomOperand? a with
      | some e =>
        rw [hs, he] at h
        obtain ⟨p, -, hmatch⟩ := derives_primary_atom htoken he
        have hsign : Fails (.rule .sign) _ := fails_sign fun op left' hop => by
          rw [htoken] at hop
          cases hop
          cases he
        exact .operand hsign ⟨_, left, hmatch, rfl⟩
          (afterTaken list f h hts ⟨clean_skip left, hscan⟩)
      | none =>
        rw [hs, he] at h
        cases h
  | .group .round inner f, _, h, _, _, ts, hts, ⟨hcs, hscan⟩ => by
    rw [row?] at h
    obtain ⟨row, hrow, h⟩ := Option.bind_eq_some_iff.1 h
    rw [Forest.tokens, List.cons_append, List.cons_append, List.append_assoc] at hscan
    obtain ⟨left, htoken, hscan⟩ := exists_token hcs hscan
    have hinner := rowTaken false inner hrow (ends_closing .round (f.tokens ++ ts))
      ⟨clean_skip left, hscan⟩
    obtain ⟨rest, hprimary, hrest⟩ := hinner.round
    have hsign : Fails (.rule .sign) _ := fails_sign fun op left' hop => by
      rw [htoken] at hop
      cases hop
    rw [eq_of_opening htoken] at hsign ⊢
    exact .operand hsign hprimary (afterTaken list f h hts hrest)
  | .group .square _ _, _, h, _, _, _, _, _ => by
    rw [row?] at h
    cases h

theorem afterTaken (list : Bool) : (f : Forest) → {e : Expr} → {row : Row} →
    rowAfter? list e f = some row → {cs tail : List Char} → {ts : List Token} → Ends ts →
      Reaches cs (f.tokens ++ ts) tail → AfterTaken list cs ts tail
  | .nil, _, _, _, _, _, _, hts, hreaches => afterTaken_nil list hts hreaches
  | .leaf .dot .nil, _, _, h, _, _, _, _, _ => by simp [rowAfter?] at h
  | .leaf .dot (.group ..), _, _, h, _, _, _, _, _ => by simp [rowAfter?] at h
  | .leaf .dot (.leaf a f), _, _, h, _, _, _, hts, ⟨hcs, hscan⟩ => by
    cases a with
    | word w =>
      rw [rowAfter?] at h
      obtain ⟨left, htoken, hscan⟩ := exists_token hcs hscan
      obtain ⟨left', htoken', hscan⟩ := exists_token (clean_skip left) hscan
      rw [show _ = '.' :: left from begins_of_token? htoken]
      exact (afterTaken list f h hts ⟨clean_skip left', hscan⟩).suffix (accepts_member htoken')
    | number | string | operator | dot | comma => simp [rowAfter?] at h
  | .leaf (.operator op) f, _, _, h, _, _, _, hts, ⟨hcs, hscan⟩ => by
    rw [rowAfter?] at h
    obtain ⟨row, hrow, -⟩ := Option.map_eq_some_iff.1 h
    obtain ⟨left, htoken, hscan⟩ := exists_token hcs hscan
    have hsuffix : Fails (.rule .suffix) _ :=
      fails_suffix (fun left' => by rw [htoken]; simp) (fun b left' => by rw [htoken]; simp)
    exact .operator hsuffix (accepts_operator htoken)
      (rowTaken list f hrow hts ⟨clean_skip left, hscan⟩)
  | .leaf .comma f, _, _, h, _, _, _, hts, ⟨hcs, hscan⟩ => by
    obtain ⟨left, htoken, hrest⟩ := exists_token hcs hscan
    obtain rfl : _ = ',' :: left := begins_of_token? htoken
    obtain ⟨rfl, ⟨rfl, -⟩ | ⟨row, hrow, -⟩⟩ := rowAfter?_comma_eq_some h
    · exact afterTaken_comma hts hcs hrest
    · exact afterTaken_items (rowTaken true f hrow hts ⟨clean_skip left, hrest⟩)
  | .leaf (.number _) _, _, _, h, _, _, _, _, _ => by simp [rowAfter?] at h
  | .leaf (.string _) _, _, _, h, _, _, _, _, _ => by simp [rowAfter?] at h
  | .leaf (.word _) _, _, _, h, _, _, _, _, _ => by simp [rowAfter?] at h
  | .group .square inner f, _, _, h, _, _, ts, hts, ⟨hcs, hscan⟩ => by
    rw [rowAfter?] at h
    obtain ⟨row, hrow, h⟩ := Option.bind_eq_some_iff.1 h
    rw [Forest.tokens, List.cons_append, List.cons_append, List.append_assoc] at hscan
    obtain ⟨left, htoken, hscan⟩ := exists_token hcs hscan
    have hinner := rowTaken false inner hrow (ends_closing .square (f.tokens ++ ts))
      ⟨clean_skip left, hscan⟩
    obtain ⟨rest, hsuffix, hrest⟩ := hinner.square
    rw [eq_of_opening htoken]
    exact (afterTaken list f h hts hrest).suffix hsuffix
  | .group .round inner f, _, _, h, _, _, ts, hts, ⟨hcs, hscan⟩ => by
    rw [rowAfter?_args] at h
    obtain ⟨args, hargs, h⟩ := Option.bind_eq_some_iff.1 h
    rw [Forest.tokens, List.cons_append, List.cons_append, List.append_assoc] at hscan
    obtain ⟨left, htoken, hscan⟩ := exists_token hcs hscan
    rw [eq_of_opening htoken]
    rcases args?_eq_some hargs with ⟨rfl, -⟩ | ⟨row, hrow, -⟩
    · obtain ⟨rest, hsuffix, hrest⟩ := accepts_emptyCall ⟨clean_skip left, hscan⟩
      exact (afterTaken list f h hts hrest).suffix hsuffix
    · have hinner := rowTaken true inner hrow (ends_closing .round (f.tokens ++ ts))
        ⟨clean_skip left, hscan⟩
      obtain ⟨rest, hsuffix, hrest⟩ := hinner.call
      exact (afterTaken list f h hts hrest).suffix hsuffix

end

theorem scan_gap (cs : List Char) : scan (skip false cs) = scan cs :=
  scan_congr (skip_skip false cs)

theorem Reaches.eq_of_nil (h : Reaches rest [] tail) : rest = tail := by
  obtain ⟨hclean, hscan⟩ := h
  rw [scan_eq, show skip false rest = rest from hclean] at hscan
  split at hscan
  · exact congrArg Prod.snd hscan
  · cases hscan

theorem derives_read {f : Forest} {row : Row} (hscan : scan cs = (f.tokens, tail))
    (hrow : row? false f = some row) {ps : List Pair}
    (hb : Derives .spaced b tail (some (ps, left))) :
    ∃ ps, Derives .spaced (.before (.text []) (.before (.rule .expr) b)) cs (some (ps, left)) := by
  have hclean := clean_skip cs
  have hends : Ends [] := by
    intro t ht
    cases ht
  have hreaches : Reaches (skip false cs) (f.tokens ++ []) tail := by
    rw [List.append_nil]
    exact ⟨hclean, (scan_gap cs).trans hscan⟩
  obtain ⟨mid, _, hspans, rfl, hend⟩ := rowTaken false f hrow hends hreaches
  obtain rfl := hend.eq_of_nil
  obtain ⟨qs, hexpr⟩ := hspans.accepts hclean
  have hstart : Takes (.text []) cs [] (skip false cs) := takes_text.2 ⟨rfl, cs, rfl, rfl⟩
  have hrest := derives_before.2 ⟨qs, _, ps, hexpr, hb, rfl⟩
  exact ⟨_, derives_before.2 ⟨[], _, _, hstart, hrest, rfl⟩⟩

/-- The rule for whole texts matches whatever is read. -/
theorem derives_program {e : Expr} (h : parse? cs = some e) :
    ∃ ps, Derives .spaced (.rule .program) cs (some (ps, [])) := by
  obtain ⟨f, hscan, row, hrow, -⟩ := parse?_eq_some.1 h
  have hany : Derives .spaced (.one fun _ => true) [] none := .oneFail fun c hc => by cases hc
  have hend : Derives .spaced (.rule .ending) [] (some ([.mk .ending [] []], [])) :=
    (derives_plain rfl).2 ⟨[], .absent hany, rfl⟩
  obtain ⟨ps, hbody⟩ := derives_read hscan hrow hend
  exact ⟨_, (derives_plain rfl).2 ⟨ps, hbody, rfl⟩⟩

theorem derives_braced {e : Expr} (h : parseHole? cs = some (e, rest)) :
    ∃ ps, Derives .spaced (.rule .braced) cs (some (ps, rest)) := by
  unfold parseHole? at h
  split at h
  · next ts _ hscan =>
    obtain ⟨e', he, hpair⟩ := Option.map_eq_some_iff.1 h
    cases hpair
    obtain ⟨f, hf, hrow⟩ := Option.bind_eq_some_iff.1 he
    obtain ⟨row, hrow, -⟩ := Option.map_eq_some_iff.1 hrow
    obtain rfl := Forest.ofTokens?_eq_some_iff.1 hf
    have hbrace : Derives .spaced (.text ['\x7d']) ('\x7d' :: rest) (some ([], rest)) := .text rfl
    obtain ⟨ps, hbody⟩ := derives_read hscan hrow hbrace
    exact ⟨_, (derives_plain rfl).2 ⟨ps, hbody, rfl⟩⟩
  · cases h

end Coercive.Grammar
