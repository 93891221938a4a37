import Coercive.Source.Chain

namespace Coercive

/-- How tightly an operand binds that no operator or sign stands in. -/
def operandLevel : Nat := 7

namespace Operator

/-- How tightly the left operand of an operator binds at least. -/
def leftLevel : Operator → Nat
  | .arithmetic .pow => operandLevel
  | op => op.level

def rightLevel : Operator → Nat
  | .arithmetic .pow => Sign.level
  | op => op.level + 1

theorem level_cases (op : Operator) :
    op = .arithmetic .pow ∨ op ≠ .arithmetic .pow ∧ op.level < Sign.level ∧
      op.leftLevel = op.level ∧ op.rightLevel = op.level + 1 := by
  cases op with
  | arithmetic a => cases a <;> simp [level, leftLevel, rightLevel, Sign.level]
  | eq | ne | relation | add => simp [level, leftLevel, rightLevel, Sign.level]

theorem levels_le (op : Operator) :
    op.level < operandLevel ∧ op.leftLevel ≤ operandLevel ∧ op.rightLevel ≤ operandLevel := by
  rcases op.level_cases with rfl | ⟨-, hlevel, hleft, hright⟩
  · decide
  · simp only [Sign.level, operandLevel] at *
    omega

/-- An operator takes its operands before the next one unless that may stand on its right. -/
theorem takesFirst_iff {op next : Operator} :
    op.takesFirst next = true ↔ next.level < op.rightLevel := by
  rcases op.level_cases with rfl | ⟨hop, -, -, hright⟩
  · rcases next.level_cases with rfl | ⟨-, hlevel, -, -⟩
    · decide
    · have hpow : next.level < level (.arithmetic .pow) := Nat.lt_trans hlevel (by decide)
      simp [takesFirst, hpow, rightLevel, hlevel]
  · simp only [takesFirst, hright, Bool.or_eq_true, decide_eq_true_eq, Bool.and_eq_true, beq_iff_eq,
      bne_iff_ne, ne_eq, hop, not_false_eq_true, and_true]
    omega

theorem lt_rightLevel_of_leftLevel_le {op next : Operator} (h : op.leftLevel ≤ next.level) :
    op.leftLevel < next.rightLevel ∧ op.level = op.leftLevel ∧
      op.rightLevel ≤ next.rightLevel := by
  rcases op.level_cases with rfl | ⟨-, hlevel, hleft, hright⟩
  · rcases next.level_cases with rfl | ⟨-, hlevel, -, -⟩
    · exact absurd h (by decide)
    · exact absurd (Nat.lt_of_le_of_lt h hlevel) (by decide)
  · rcases next.level_cases with rfl | ⟨-, -, -, hright'⟩
    · simp only [rightLevel] at *
      omega
    · omega

theorem le_sign_of_leftLevel_le {op : Operator} (h : op.leftLevel ≤ Sign.level) :
    op.level < Sign.level ∧ op.rightLevel ≤ Sign.level := by
  rcases op.level_cases with rfl | ⟨-, hlevel, -, hright⟩
  · exact absurd h (by decide)
  · exact ⟨hlevel, by rw [hright]; exact hlevel⟩

end Operator

namespace OpTree

variable {α : Type}

def level : OpTree α → Nat
  | .operand _ => operandLevel
  | .unary _ _ => Sign.level
  | .binary op _ _ => op.level

/-- Every operand of an operator or a sign binds as tightly as its place asks for. -/
def Grouped : OpTree α → Prop
  | .operand _ => True
  | .unary _ t => t.Grouped ∧ Sign.level ≤ t.level
  | .binary op l r => (l.Grouped ∧ op.leftLevel ≤ l.level) ∧ r.Grouped ∧ op.rightLevel ≤ r.level

/-- Puts a tree and an operator before a tree, without opening the first. -/
def join (t : OpTree α) (op : Operator) : OpTree α → OpTree α
  | .binary next l r =>
    if op.takesFirst next then .binary next (t.join op l) r
    else .binary op t (.binary next l r)
  | u => .binary op t u

theorem prepend_eq_join (x : α) (op : Operator) (t : OpTree α) :
    t.prepend x op = (operand x).join op t := by
  induction t with
  | operand | unary => rfl
  | binary next l r ihl => rw [prepend, join, ihl]

theorem join_of_level (t : OpTree α) {op : Operator} {u : OpTree α}
    (h : op.rightLevel ≤ u.level) : t.join op u = .binary op t u := by
  cases u with
  | operand | unary => rfl
  | binary next l r =>
    have hnot : ¬ op.takesFirst next = true := by
      rw [Operator.takesFirst_iff]
      exact Nat.not_lt.2 h
    rw [join, if_neg hnot]

theorem sign_of_level (s : Sign) {t : OpTree α} (h : Sign.level ≤ t.level) :
    t.sign s = .unary s t := by
  cases t with
  | operand | unary => rfl
  | binary op l r =>
    have hnot : ¬ op.level < Sign.level := Nat.not_lt.2 h
    rw [sign, if_neg hnot]

theorem sign_join (s : Sign) {t : OpTree α} (ht : Sign.level ≤ t.level) {op : Operator}
    (hop : op.leftLevel ≤ Sign.level) (u : OpTree α) :
    (t.join op u).sign s = (unary s t).join op u := by
  obtain ⟨hlevel, hright⟩ := Operator.le_sign_of_leftLevel_le hop
  have hplain : ∀ v, (binary op t v).sign s = .binary op (.unary s t) v := by
    intro v
    rw [sign, if_pos hlevel, sign_of_level s ht]
  induction u with
  | operand | unary => exact hplain _
  | binary next l r ihl =>
    rw [join, join]
    split
    · next hfirst =>
      have hnext : next.level < Sign.level :=
        Nat.lt_of_lt_of_le (Operator.takesFirst_iff.1 hfirst) hright
      rw [sign, if_pos hnext, ihl]
    · exact hplain _

theorem join_join (t : OpTree α) {op next : Operator} {u : OpTree α}
    (hu : op.rightLevel ≤ u.level) (hnext : next.leftLevel ≤ op.level) (v : OpTree α) :
    t.join op (u.join next v) = (binary op t u).join next v := by
  obtain ⟨hleft, hlevel, hright⟩ := Operator.lt_rightLevel_of_leftLevel_le hnext
  have hplain : ∀ v, t.join op (binary next u v) = .binary next (.binary op t u) v := by
    intro v
    rw [join, if_pos (Operator.takesFirst_iff.2 (by omega)), join_of_level t hu]
  induction v with
  | operand | unary => exact hplain _
  | binary last l r ihl =>
    rw [join, join]
    split
    · next hfirst =>
      have hlast : last.level < op.rightLevel :=
        Nat.lt_of_lt_of_le (Operator.takesFirst_iff.1 hfirst) hright
      rw [join, if_pos (Operator.takesFirst_iff.2 hlast), ihl]
    · exact hplain _

/-- Behind a well grouped tree, an operator that it may stand on the left of takes all of it. -/
theorem tree_append {t : OpTree α} (h : t.Grouped) {op : Operator} (hop : op.leftLevel ≤ t.level)
    (c : Chain α) : (t.append fun x => .more x op c).tree = t.join op c.tree := by
  induction t generalizing op c with
  | operand x => exact prepend_eq_join x op c.tree
  | unary s t ih =>
    obtain ⟨ht, hlevel⟩ := h
    calc ((unary s t).append fun x => .more x op c).tree
        = (t.append fun x => .more x op c).tree.sign s := rfl
      _ = (t.join op c.tree).sign s := by rw [ih ht (Nat.le_trans hop hlevel)]
      _ = (unary s t).join op c.tree := sign_join s hlevel hop c.tree
  | binary next l r ihl ihr =>
    obtain ⟨⟨hl, hleft⟩, hr, hright⟩ := h
    obtain ⟨hlt, -, -⟩ := Operator.lt_rightLevel_of_leftLevel_le hop
    calc ((binary next l r).append fun x => .more x op c).tree
        = l.join next (r.append fun x => .more x op c).tree := ihl hl hleft _
      _ = l.join next (r.join op c.tree) := by rw [ihr hr (by omega)]
      _ = (binary next l r).join op c.tree := join_join l hright hop c.tree

/-- A well grouped tree is found again in the sequence that it groups. -/
theorem tree_chain {t : OpTree α} (h : t.Grouped) : t.chain.tree = t := by
  induction t with
  | operand x => rfl
  | unary s t ih =>
    obtain ⟨ht, hlevel⟩ := h
    calc (unary s t).chain.tree = t.chain.tree.sign s := rfl
      _ = .unary s t := by rw [ih ht, sign_of_level s hlevel]
  | binary op l r ihl ihr =>
    obtain ⟨⟨hl, hleft⟩, hr, hright⟩ := h
    calc (binary op l r).chain.tree = l.join op r.chain.tree := tree_append hl hleft r.chain
      _ = .binary op l r := by rw [ihr hr, join_of_level l hright]

end OpTree

end Coercive
