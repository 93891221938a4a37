import Coercive.Proofs.Grouping

namespace Coercive

variable {α τ : Type}

inductive Item (α : Type) where
  | operand (x : α)
  | sign (s : Sign)
  | operator (op : Operator)

def Chain.items : Chain α → List (Item α)
  | .last x => [.operand x]
  | .signed s rest => .sign s :: rest.items
  | .more x op rest => .operand x :: .operator op :: rest.items

def OpTree.items : OpTree α → List (Item α)
  | .operand x => [.operand x]
  | .unary s t => .sign s :: t.items
  | .binary op l r => l.items ++ .operator op :: r.items

theorem Chain.items_inj {c d : Chain α} (h : c.items = d.items) : c = d := by
  induction c generalizing d with
  | last x => cases d <;> simp_all [items]
  | signed s rest ih =>
    cases d with
    | signed s' rest' =>
      obtain ⟨hs, hrest⟩ := List.cons.inj h
      cases hs
      rw [ih hrest]
    | last | more => simp [items] at h
  | more x op rest ih =>
    cases d with
    | more x' op' rest' =>
      obtain ⟨hx, htail⟩ := List.cons.inj h
      obtain ⟨hop, hrest⟩ := List.cons.inj htail
      cases hx
      cases hop
      rw [ih hrest]
    | last | signed => simp [items] at h

namespace Pratt

/-- What a table says of an item: a value, or how tightly it binds and what it makes of values. -/
inductive Entry (τ : Type) where
  | operand (t : τ)
  | sign (power : Nat) (f : τ → τ)
  | operator (power : Nat) (rightward : Bool) (f : τ → τ → τ)

inductive Misplaced where
  | ending
  | operand
  | sign
  | operator
  deriving DecidableEq, Repr

mutual

def operand (entries : List (Entry τ)) :
    Except Misplaced { r : τ × List (Entry τ) // r.2.length < entries.length } :=
  match entries with
  | [] => .error .ending
  | .operand t :: rest => .ok ⟨(t, rest), Nat.lt_succ_self _⟩
  | .sign power f :: rest => do
    let ⟨(t, rest'), h⟩ ← expr (power - 1) rest
    return ⟨(f t, rest'), Nat.lt_succ_of_lt h⟩
  | .operator .. :: _ => .error .operator
termination_by (entries.length, 0)

/-- Reads an operand and all operators behind it that bind tighter than the bound. -/
def expr (bound : Nat) (entries : List (Entry τ)) :
    Except Misplaced { r : τ × List (Entry τ) // r.2.length < entries.length } := do
  let ⟨(t, rest), h⟩ ← operand entries
  let ⟨r, h'⟩ ← extend bound t rest
  return ⟨r, Nat.lt_of_le_of_lt h' h⟩
termination_by (entries.length, 1)

def extend (bound : Nat) (t : τ) (entries : List (Entry τ)) :
    Except Misplaced { r : τ × List (Entry τ) // r.2.length ≤ entries.length } :=
  match entries with
  | [] => .ok ⟨(t, []), Nat.le_refl _⟩
  | .operand _ :: _ => .error .operand
  | .sign power f :: rest =>
    if bound < power then .error .sign
    else .ok ⟨(t, .sign power f :: rest), Nat.le_refl _⟩
  | .operator power rightward f :: rest =>
    if bound < power then do
      let ⟨(u, rest'), h⟩ ← expr (if rightward then power - 1 else power) rest
      have h : rest'.length < rest.length := h
      let ⟨r, h'⟩ ← extend bound (f t u) rest'
      return ⟨r, Nat.le_trans h' (Nat.le_succ_of_le (Nat.le_of_lt h))⟩
    else .ok ⟨(t, .operator power rightward f :: rest), Nat.le_refl _⟩
termination_by (entries.length, 0)
decreasing_by all_goals (simp_wf; omega)

end

def parse (entries : List (Entry τ)) : Except Misplaced τ := do
  let ⟨(t, _), _⟩ ← expr 0 entries
  return t

/-- What is made of operands, signs and operators. -/
structure Builder (α τ : Type) where
  operand : α → τ
  unary : Sign → τ → τ
  binary : Operator → τ → τ → τ

def Builder.free : Builder α (OpTree α) := ⟨.operand, .unary, .binary⟩

end Pratt

open Pratt

def OpTree.fold (b : Builder α τ) : OpTree α → τ
  | .operand x => b.operand x
  | .unary s t => b.unary s (t.fold b)
  | .binary op l r => b.binary op (l.fold b) (r.fold b)

theorem OpTree.fold_free (t : OpTree α) : t.fold .free = t := by
  induction t with
  | operand x => rfl
  | unary s t ih => exact congrArg (OpTree.unary s) ih
  | binary op l r ihl ihr => rw [fold, ihl, ihr, Builder.free]

/-- The power of a level. The powers of two levels are apart by more than one. -/
def Operator.power (op : Operator) : Nat := 10 * op.level

def Sign.power : Nat := 10 * Sign.level

namespace Operator

def rightward (op : Operator) : Bool := op == .arithmetic .pow

/-- The bound for what stands on the right of an operator. -/
def rightBound (op : Operator) : Nat := if op.rightward then op.power - 1 else op.power

theorem level_pos (op : Operator) : 0 < op.level := by
  rcases op with _ | _ | _ | _ | (_ | _ | _ | _ | _) <;> exact Nat.succ_pos _

/-- What is read on the right of an operator are the operators that may stand there. -/
theorem rightBound_lt_iff {op next : Operator} :
    op.rightBound < next.power ↔ op.rightLevel ≤ next.level := by
  rcases op.level_cases with rfl | ⟨hop, -, -, hright⟩
  · have hbound : rightBound (.arithmetic .pow) = 59 := rfl
    have hlevel : rightLevel (.arithmetic .pow) = 5 := rfl
    rw [hbound, hlevel, power]
    rcases next.level_cases with rfl | ⟨-, hnext, -, -⟩
    · decide
    · rw [Sign.level] at hnext
      omega
  · have hbound : op.rightBound = op.power := by simp [rightBound, rightward, hop]
    rw [hbound, hright, power, power]
    omega

theorem leftLevel_le_of_lt_rightLevel {op next : Operator} (h : next.level < op.rightLevel) :
    next.leftLevel ≤ op.level := by
  rcases op.level_cases with rfl | ⟨-, hlevel, -, hright⟩
  · rcases next.level_cases with rfl | ⟨-, hnext, hleft, -⟩
    · exact absurd h (by decide)
    · rw [hleft]
      exact Nat.le_trans (Nat.le_of_lt hnext) (by decide)
  · rcases next.level_cases with rfl | ⟨-, -, hleft, -⟩
    · have hpow : level (.arithmetic .pow) = 6 := rfl
      rw [Sign.level] at hlevel
      omega
    · omega

theorem signBound_lt_iff {op : Operator} : Sign.power - 1 < op.power ↔ Sign.level ≤ op.level := by
  rw [Sign.power, Sign.level, power]
  omega

theorem leftLevel_le_of_lt_sign {op : Operator} (h : op.level < Sign.level) :
    op.leftLevel ≤ Sign.level := by
  rcases op.level_cases with rfl | ⟨-, hlevel, hleft, -⟩
  · exact absurd h (by decide)
  · rw [hleft]
    exact Nat.le_of_lt hlevel

end Operator

/-- The table: how each item is read, and what is built of it. -/
def Item.entry (b : Builder α τ) : Item α → Entry τ
  | .operand x => .operand (b.operand x)
  | .sign s => .sign Sign.power (b.unary s)
  | .operator op => .operator op.power op.rightward (b.binary op)

/-- What follows a tree in a chain: nothing, or an operator with the chain on its right. -/
abbrev Tail (α : Type) := Option (Operator × Chain α)

namespace Tail

def items : Tail α → List (Item α)
  | none => []
  | some (op, c) => .operator op :: c.items

def after : Tail α → α → Chain α
  | none, x => .last x
  | some (op, c), x => .more x op c

theorem items_after (rest : Tail α) (x : α) : (rest.after x).items = .operand x :: rest.items := by
  cases rest <;> rfl

end Tail

theorem OpTree.items_append (t : OpTree α) {k : α → Chain α} {rest : List (Item α)}
    (h : ∀ x, (k x).items = .operand x :: rest) : (t.append k).items = t.items ++ rest := by
  induction t generalizing k rest with
  | operand x => exact h x
  | unary s t ih => exact congrArg (Item.sign s :: ·) (ih h)
  | binary op l r ihl ihr =>
    have hright : ∀ x, (Chain.more x op (r.append k)).items =
        .operand x :: (.operator op :: (r.items ++ rest)) := by
      intro x
      rw [Chain.items, ihr h]
    rw [append, ihl hright, items, List.append_assoc, List.cons_append]

theorem OpTree.items_chain (t : OpTree α) : t.chain.items = t.items := by
  rw [chain, t.items_append fun _ => rfl, List.append_nil]

namespace OpTree

def Above (bound : Nat) : OpTree α → Prop
  | .binary op _ _ => bound < op.power
  | _ => True

/-- A tree that the pass may build: its operators are grouped by their levels, that at the root
binds tighter than the bound, and what follows may have the tree on its left. -/
structure Ready (bound : Nat) (t : OpTree α) (rest : Tail α) : Prop where
  grouped : t.Grouped
  above : t.Above bound
  fits : ∀ p ∈ rest, p.1.leftLevel ≤ t.level

theorem ready_operand (bound : Nat) (x : α) (rest : Tail α) : (operand x).Ready bound rest where
  grouped := trivial
  above := trivial
  fits p _ := p.1.levels_le.2.1

theorem Ready.unary {t : OpTree α} {rest : Tail α} (h : t.Ready (Sign.power - 1) rest)
    (hstop : ∀ p ∈ rest, p.1.power ≤ Sign.power - 1) (s : Sign) (bound : Nat) :
    (unary s t).Ready bound rest where
  grouped := by
    refine ⟨h.grouped, ?_⟩
    cases t with
    | operand x => exact Nat.le_of_lt (show 5 < 7 by decide)
    | unary s' t => exact Nat.le_refl _
    | binary op l r => exact Operator.signBound_lt_iff.1 h.above
  above := trivial
  fits p hp := by
    have hlevel := mt Operator.signBound_lt_iff.2 (Nat.not_lt.2 (hstop p hp))
    exact Operator.leftLevel_le_of_lt_sign (Nat.not_le.1 hlevel)

theorem Ready.binary {t u : OpTree α} {op : Operator} {bound : Nat} {rest : Tail α}
    (ht : t.Grouped) (hleft : op.leftLevel ≤ t.level) (hop : bound < op.power)
    (h : u.Ready op.rightBound rest) (hstop : ∀ p ∈ rest, p.1.power ≤ op.rightBound) :
    (binary op t u).Ready bound rest where
  grouped := by
    refine ⟨⟨ht, hleft⟩, h.grouped, ?_⟩
    cases u with
    | operand x => exact op.levels_le.2.2
    | unary s u =>
      rcases op.level_cases with rfl | ⟨-, hlevel, -, hright⟩
      · exact Nat.le_refl _
      · rw [hright]
        exact hlevel
    | binary next l r => exact Operator.rightBound_lt_iff.1 h.above
  above := hop
  fits p hp := by
    have hlevel := mt Operator.rightBound_lt_iff.2 (Nat.not_lt.2 (hstop p hp))
    exact Operator.leftLevel_le_of_lt_rightLevel (Nat.not_le.1 hlevel)

end OpTree

namespace Pratt

section

variable {bound : Nat} {t u v : τ} {entries rest rest' : List (Entry τ)}

def Reads (bound : Nat) (entries : List (Entry τ)) (t : τ) (rest : List (Entry τ)) : Prop :=
  ∃ h, expr bound entries = .ok ⟨(t, rest), h⟩

def Extends (bound : Nat) (t : τ) (entries : List (Entry τ)) (u : τ) (rest : List (Entry τ)) :
    Prop :=
  ∃ h, extend bound t entries = .ok ⟨(u, rest), h⟩

theorem Reads.length_lt (h : Reads bound entries t rest) : rest.length < entries.length := by
  obtain ⟨hlt, _⟩ := h
  exact hlt

theorem reads_operand (h : Extends bound t entries u rest) :
    Reads bound (.operand t :: entries) u rest := by
  obtain ⟨hle, hextend⟩ := h
  exact ⟨Nat.lt_succ_of_le hle, by
    rw [expr, operand]
    simp only [bind, Except.bind, hextend]
    rfl⟩

theorem reads_sign {power : Nat} {f : τ → τ} (h : Reads (power - 1) entries t rest)
    (hrest : Extends bound (f t) rest u rest') :
    Reads bound (.sign power f :: entries) u rest' := by
  obtain ⟨hlt, hexpr⟩ := h
  obtain ⟨hle, hextend⟩ := hrest
  refine ⟨Nat.lt_succ_of_lt (Nat.lt_of_le_of_lt hle hlt), ?_⟩
  rw [expr, operand, hexpr]
  simp only [bind, Except.bind, pure, Except.pure, hextend]

theorem extends_nil : Extends bound t [] t [] :=
  ⟨Nat.le_refl _, by rw [extend]⟩

theorem extends_stop {power : Nat} {rightward : Bool} {f : τ → τ → τ} (h : power ≤ bound) :
    Extends bound t (.operator power rightward f :: entries) t
      (.operator power rightward f :: entries) :=
  ⟨Nat.le_refl _, by rw [extend, if_neg (Nat.not_lt.2 h)]⟩

theorem extends_operator {power : Nat} {rightward : Bool} {f : τ → τ → τ} (hpower : bound < power)
    (h : Reads (if rightward then power - 1 else power) entries u rest)
    (hrest : Extends bound (f t u) rest v rest') :
    Extends bound t (.operator power rightward f :: entries) v rest' := by
  obtain ⟨hlt, hexpr⟩ := h
  obtain ⟨hle, hextend⟩ := hrest
  refine ⟨Nat.le_trans hle (Nat.le_succ_of_le (Nat.le_of_lt hlt)), ?_⟩
  rw [extend, if_pos hpower, hexpr]
  simp only [bind, Except.bind, hextend]
  rfl

end

def entries (b : Builder α τ) (c : Chain α) : List (Entry τ) := c.items.map (Item.entry b)

def tailEntries (b : Builder α τ) (rest : Tail α) : List (Entry τ) := rest.items.map (Item.entry b)

/-- The tree stands at the beginning of a chain, and before an operator that the bound excludes. -/
structure Stops (bound : Nat) (c : Chain α) (t : OpTree α) (rest : Tail α) : Prop where
  chain : t.append rest.after = c
  ready : t.Ready bound rest
  stop : ∀ p ∈ rest, p.1.power ≤ bound

def ReadsTree (b : Builder α τ) (c : Chain α) : Prop :=
  ∀ bound, ∃ t rest, Stops bound c t rest ∧
    Reads bound (entries b c) (t.fold b) (tailEntries b rest)

theorem extends_tail (b : Builder α τ) (bound : Nat) (rest : Tail α)
    (ih : ∀ c : Chain α, c.items.length < rest.items.length → ReadsTree b c) (t : OpTree α)
    (ht : t.Ready bound rest) :
    ∃ u rest', Stops bound (t.append rest.after) u rest' ∧
      Extends bound (t.fold b) (tailEntries b rest) (u.fold b) (tailEntries b rest') := by
  induction hn : rest.items.length using Nat.strongRecOn generalizing rest t with
  | _ n ihn =>
    cases rest with
    | none => exact ⟨t, none, ⟨rfl, ht, by simp⟩, extends_nil⟩
    | some p =>
      obtain ⟨op, c⟩ := p
      have hshort : c.items.length < (Tail.items (some (op, c))).length := Nat.lt_succ_self _
      by_cases hop : bound < op.power
      · obtain ⟨u, rest', hstops, hreads⟩ := ih c hshort op.rightBound
        have hlength : rest'.items.length < (Tail.items (some (op, c))).length := by
          have hlt := hreads.length_lt
          simp only [tailEntries, entries, List.length_map] at hlt
          exact Nat.lt_trans hlt hshort
        have hready : (OpTree.binary op t u).Ready bound rest' :=
          .binary ht.grouped (ht.fits _ rfl) hop hstops.ready hstops.stop
        have hchain : (OpTree.binary op t u).append rest'.after =
            t.append (Tail.after (some (op, c))) := by
          rw [OpTree.append, hstops.chain]
          rfl
        obtain ⟨v, rest'', hstops', hextends⟩ := ihn _ (hn ▸ hlength) rest'
          (fun c' hc' => ih c' (Nat.lt_trans hc' hlength)) _ hready rfl
        rw [hchain] at hstops'
        exact ⟨v, rest'', hstops', extends_operator hop hreads hextends⟩
      · have hstop := Nat.not_lt.1 hop
        refine ⟨t, some (op, c), ⟨rfl, ht, ?_⟩, extends_stop hstop⟩
        rintro p ⟨⟩
        exact hstop

theorem readsTree (b : Builder α τ) (c : Chain α) : ReadsTree b c := by
  induction hn : c.items.length using Nat.strongRecOn generalizing c with
  | _ n ih =>
    intro bound
    have hshorter : ∀ rest : Tail α, rest.items.length < n →
        ∀ c : Chain α, c.items.length < rest.items.length → ReadsTree b c :=
      fun rest hrest c hc => ih _ (Nat.lt_trans hc hrest) c rfl
    cases c with
    | last x =>
      obtain ⟨u, rest, hstops, hextends⟩ := extends_tail b bound none
        (hshorter none (hn ▸ Nat.zero_lt_one)) (.operand x) (OpTree.ready_operand ..)
      exact ⟨u, rest, hstops, reads_operand hextends⟩
    | more x op c =>
      obtain ⟨u, rest, hstops, hextends⟩ := extends_tail b bound (some (op, c))
        (hshorter _ (hn ▸ Nat.lt_succ_self _)) (.operand x) (OpTree.ready_operand ..)
      exact ⟨u, rest, hstops, reads_operand hextends⟩
    | signed s c =>
      obtain ⟨t, rest, hstops, hreads⟩ := ih c.items.length (hn ▸ Nat.lt_succ_self _) c rfl
        (Sign.power - 1)
      have hlength : rest.items.length < n := by
        have hlt := hreads.length_lt
        simp only [tailEntries, entries, List.length_map] at hlt
        exact Nat.lt_trans hlt (hn ▸ Nat.lt_succ_self _)
      obtain ⟨u, rest', hstops', hextends⟩ := extends_tail b bound rest (hshorter rest hlength)
        (.unary s t) (hstops.ready.unary hstops.stop s bound)
      have hchain : (OpTree.unary s t).append rest.after = .signed s c := by
        rw [OpTree.append, hstops.chain]
      rw [hchain] at hstops'
      exact ⟨u, rest', hstops', reads_sign hreads hextends⟩

/-- The pass meets no item of a chain out of place, and groups the chain by its levels. -/
theorem exists_grouped (b : Builder α τ) (c : Chain α) :
    ∃ t : OpTree α, t.Grouped ∧ t.chain = c ∧ parse (entries b c) = .ok (t.fold b) := by
  obtain ⟨t, rest, hstops, _, hexpr⟩ := readsTree b c 0
  have hnone : rest = none := by
    cases rest with
    | none => rfl
    | some p =>
      have hstop := hstops.stop p rfl
      have hlevel := p.1.level_pos
      rw [Operator.power] at hstop
      omega
  subst hnone
  refine ⟨t, hstops.ready.grouped, hstops.chain, ?_⟩
  rw [parse, hexpr]
  rfl

end Pratt

theorem Chain.grouped_tree (c : Chain α) : c.tree.Grouped := by
  obtain ⟨t, ht, rfl, -⟩ := exists_grouped .free c
  rwa [OpTree.tree_chain ht]

theorem Chain.items_tree (c : Chain α) : c.tree.items = c.items := by
  rw [← OpTree.items_chain, c.chain_tree]

theorem Pratt.parse_entries (b : Builder α τ) (c : Chain α) :
    parse (entries b c) = .ok (c.tree.fold b) := by
  obtain ⟨t, ht, rfl, hparse⟩ := exists_grouped b c
  rwa [OpTree.tree_chain ht]

namespace OpTree

/-- What may stand behind a sign: an operand, a sign or a power. -/
def IsTight : OpTree α → Prop
  | .operand _ | .unary _ _ => True
  | .binary op _ _ => op = .arithmetic .pow

/-- What may stand on the left of an operator. A power takes only an operand, and every other
operator takes what binds at least as tightly as it does. -/
def MayPrecede (op : Operator) : OpTree α → Prop
  | .operand _ => True
  | .unary _ _ => op ≠ .arithmetic .pow ∧ op.level ≤ Sign.level
  | .binary next _ _ => op ≠ .arithmetic .pow ∧ op.level ≤ next.level

/-- What may stand on the right of an operator: an operand, a sign or what binds tighter, and a
power on the right of a power. -/
def MayFollow (op : Operator) : OpTree α → Prop
  | .operand _ | .unary _ _ => True
  | .binary next _ _ =>
    if op = .arithmetic .pow then next = .arithmetic .pow else op.level < next.level

/-- No operand of an operator or a sign has a root that its place does not allow. -/
def Respects : OpTree α → Prop
  | .operand _ => True
  | .unary _ t => t.Respects ∧ t.IsTight
  | .binary op l r => (l.Respects ∧ l.MayPrecede op) ∧ r.Respects ∧ r.MayFollow op

theorem isTight_iff {t : OpTree α} : t.IsTight ↔ Sign.level ≤ t.level := by
  cases t with
  | operand x => exact iff_of_true trivial (show 5 ≤ 7 by decide)
  | unary s t => exact iff_of_true trivial (Nat.le_refl _)
  | binary op l r =>
    rcases op.level_cases with rfl | ⟨hop, hlevel, -, -⟩
    · exact iff_of_true rfl (show 5 ≤ 6 by decide)
    · exact iff_of_false hop (Nat.not_le.2 hlevel)

theorem mayPrecede_iff {op : Operator} {t : OpTree α} :
    t.MayPrecede op ↔ op.leftLevel ≤ t.level := by
  cases t with
  | operand x => exact iff_of_true trivial op.levels_le.2.1
  | unary s t =>
    rcases op.level_cases with rfl | ⟨hop, -, hleft, -⟩
    · exact iff_of_false (fun h => h.1 rfl) (show ¬ 7 ≤ 5 by decide)
    · rw [MayPrecede, hleft]
      exact and_iff_right hop
  | binary next l r =>
    rcases op.level_cases with rfl | ⟨hop, -, hleft, -⟩
    · exact iff_of_false (fun h => h.1 rfl) (Nat.not_le.2 next.levels_le.1)
    · rw [MayPrecede, hleft]
      exact and_iff_right hop

theorem mayFollow_iff {op : Operator} {t : OpTree α} :
    t.MayFollow op ↔ op.rightLevel ≤ t.level := by
  cases t with
  | operand x => exact iff_of_true trivial op.levels_le.2.2
  | unary s t =>
    rcases op.level_cases with rfl | ⟨-, hlevel, -, hright⟩
    · exact iff_of_true trivial (Nat.le_refl _)
    · rw [hright]
      exact iff_of_true trivial hlevel
  | binary next l r =>
    rcases op.level_cases with rfl | ⟨hop, -, -, hright⟩
    · exact isTight_iff (t := .binary next l r)
    · rw [MayFollow, if_neg hop, hright]
      exact Iff.rfl

theorem respects_iff {t : OpTree α} : t.Respects ↔ t.Grouped := by
  induction t with
  | operand x => exact Iff.rfl
  | unary s t ih => rw [Respects, Grouped, ih, isTight_iff]
  | binary op l r ihl ihr => rw [Respects, Grouped, ihl, ihr, mayPrecede_iff, mayFollow_iff]

end OpTree

/-- The pass groups every chain into the one tree that has its items in their order and respects the
levels. -/
theorem chain_tree_unique (c : Chain α) :
    Pratt.parse (c.items.map (Item.entry .free)) = .ok c.tree ∧
      ∀ t : OpTree α, t.items = c.items ∧ t.Respects ↔ t = c.tree := by
  constructor
  · have hparse := Pratt.parse_entries .free c
    rwa [OpTree.fold_free] at hparse
  · intro t
    constructor
    · rintro ⟨hitems, hrespects⟩
      have hchain : t.chain = c := Chain.items_inj (t.items_chain.trans hitems)
      rw [← hchain, OpTree.tree_chain (OpTree.respects_iff.1 hrespects)]
    · rintro rfl
      exact ⟨c.items_tree, OpTree.respects_iff.2 c.grouped_tree⟩

/-- A sign applies to a power but not to a product, and powers group to the right. -/
example :
    (Chain.signed .minus (.more 'a' (.arithmetic .pow) (.signed .minus (.more 'b'
      (.arithmetic .pow) (.more 'c' (.arithmetic .mul) (.last 'd')))))).tree =
    .binary (.arithmetic .mul)
      (.unary .minus (.binary (.arithmetic .pow) (.operand 'a')
        (.unary .minus (.binary (.arithmetic .pow) (.operand 'b') (.operand 'c')))))
      (.operand 'd') := rfl

end Coercive
