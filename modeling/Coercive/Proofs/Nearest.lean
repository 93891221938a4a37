import Coercive.Proofs.Rounding
import Mathlib.Algebra.Order.Field.Rat
import Mathlib.Algebra.Order.AbsoluteValue.Basic
import Mathlib.Tactic.FieldSimp
import Mathlib.Tactic.Linarith

namespace Coercive

namespace Magnitude

variable {x : ℚ} {m n : Magnitude}

/-- The value of a magnitude. Infinity has that of the power of two behind the last double. -/
def value (m : Magnitude) : ℚ := m.size / scale

/-- To round to the nearest double, ties to even. -/
structure Rounds (m : Magnitude) (x : ℚ) : Prop where
  closest : ∀ n : Magnitude, |x - m.value| ≤ |x - n.value|
  even : ∀ n : Magnitude, n ≠ m → |x - n.value| = |x - m.value| → m.rank % 2 = 0

theorem exists_scale : ∃ p, p = 1074 ∧ scale = 2 ^ p := by
  have h : ∃ p, p = 1074 ∧ scale = Nat.pow 2 p := by
    refine ⟨_, rfl, ?_⟩
    delta scale
    exact Eq.refl _
  obtain ⟨p, hp, h⟩ := h
  exact ⟨p, hp, h⟩

theorem scale_pos : 0 < scale := by
  obtain ⟨p, -, h⟩ := exists_scale
  rw [h]
  exact Nat.two_pow_pos p

theorem units_strictMono {a b : Nat} (h : a < b) : units a < units b := by
  induction h with
  | refl => exact units_lt_succ a
  | step _ ih => exact Nat.lt_trans ih (units_lt_succ _)

theorem units_mono {a b : Nat} (h : a ≤ b) : units a ≤ units b := by
  rcases Nat.eq_or_lt_of_le h with rfl | hlt
  · exact Nat.le_refl _
  · exact Nat.le_of_lt (units_strictMono hlt)

theorem value_lt (h : m.rank < n.rank) : m.value < n.value := by
  have hscale : (0 : ℚ) < scale := by exact_mod_cast scale_pos
  have hsize : m.size < n.size := units_strictMono h
  exact div_lt_div_of_pos_right (by exact_mod_cast hsize) hscale

theorem value_le (h : m.rank ≤ n.rank) : m.value ≤ n.value := by
  rcases Nat.eq_or_lt_of_le h with heq | hlt
  · rw [ext_rank heq]
  · exact le_of_lt (value_lt hlt)

/-- A number is rounded by a magnitude if it is not past the middles to the two neighbours of the
magnitude, and on one of them only if the magnitude is even. -/
theorem Rounds.of_middles
    (hlow : ∀ n : Magnitude, n.rank + 1 = m.rank →
      n.value + m.value < 2 * x ∨ n.value + m.value = 2 * x ∧ m.rank % 2 = 0)
    (hhigh : ∀ n : Magnitude, m.rank + 1 = n.rank →
      2 * x < m.value + n.value ∨ 2 * x = m.value + n.value ∧ m.rank % 2 = 0) :
    m.Rounds x := by
  -- A neighbour stands for all magnitudes on its side.
  have hbelow : ∀ n : Magnitude, n.rank < m.rank →
      n.value + m.value < 2 * x ∨ n.value + m.value ≤ 2 * x ∧ m.rank % 2 = 0 := by
    intro n hn
    have hle := m.rank_le
    have hnp : n.value ≤ (⟨m.rank - 1, by omega⟩ : Magnitude).value := value_le (by
      show n.rank ≤ m.rank - 1
      omega)
    rcases hlow ⟨m.rank - 1, by omega⟩ (Nat.sub_add_cancel (by omega)) with h | ⟨h, heven⟩
    · exact .inl (by linarith)
    · exact .inr ⟨by linarith, heven⟩
  have habove : ∀ n : Magnitude, m.rank < n.rank →
      2 * x < m.value + n.value ∨ 2 * x ≤ m.value + n.value ∧ m.rank % 2 = 0 := by
    intro n hn
    have hle := n.rank_le
    have hnp : (⟨m.rank + 1, by omega⟩ : Magnitude).value ≤ n.value := value_le hn
    rcases hhigh ⟨m.rank + 1, by omega⟩ rfl with h | ⟨h, heven⟩
    · exact .inl (by linarith)
    · exact .inr ⟨by linarith, heven⟩
  have hside : ∀ n : Magnitude, n ≠ m →
      |x - m.value| < |x - n.value| ∨ |x - m.value| ≤ |x - n.value| ∧ m.rank % 2 = 0 := by
    intro n hne
    rcases Nat.lt_or_gt_of_ne (fun h => hne (ext_rank h)) with hlt | hgt
    · have hval := value_lt hlt
      rw [abs_of_pos (a := x - n.value) (by rcases hbelow n hlt with h | ⟨h, -⟩ <;> linarith),
        abs_lt, abs_le]
      rcases hbelow n hlt with h | ⟨h, heven⟩
      · exact .inl ⟨by linarith, by linarith⟩
      · exact .inr ⟨⟨by linarith, by linarith⟩, heven⟩
    · have hval := value_lt hgt
      rw [abs_of_neg (a := x - n.value) (by rcases habove n hgt with h | ⟨h, -⟩ <;> linarith),
        abs_lt, abs_le]
      rcases habove n hgt with h | ⟨h, heven⟩
      · exact .inl ⟨by linarith, by linarith⟩
      · exact .inr ⟨⟨by linarith, by linarith⟩, heven⟩
  constructor
  · intro n
    by_cases hne : n = m
    · rw [hne]
    · rcases hside n hne with h | ⟨h, -⟩
      · exact le_of_lt h
      · exact h
  · intro n hne heq
    rcases hside n hne with h | ⟨-, heven⟩
    · exact absurd heq (ne_of_gt h)
    · exact heven

/-- A number has one rounding only. Between two even magnitudes lies a closer one. -/
theorem Rounds.unique (hm : m.Rounds x) (hn : n.Rounds x) : m = n := by
  have hapart : ∀ {m n : Magnitude}, m.Rounds x → n.Rounds x → ¬ m.rank < n.rank := by
    intro m n hm hn hlt
    have hne : n ≠ m := fun h => absurd (congrArg rank h) (Nat.ne_of_gt hlt)
    have heq : |x - n.value| = |x - m.value| := le_antisymm (hn.closest m) (hm.closest n)
    have hmeven := hm.even n hne heq
    have hneven := hn.even m hne.symm heq.symm
    have hle := n.rank_le
    let p : Magnitude := ⟨m.rank + 1, by omega⟩
    have hmp : m.value < p.value := value_lt (Nat.lt_succ_self _)
    have hpn : p.value < n.value := value_lt (by
      show m.rank + 1 < n.rank
      omega)
    have hclosest := hm.closest p
    -- The number is the middle of the two, so the one between them is closer to it.
    have hmiddle : 2 * x = m.value + n.value := by
      rcases abs_eq_abs.1 heq with h | h <;> linarith
    rw [abs_of_pos (a := x - m.value) (by linarith), le_abs'] at hclosest
    rcases hclosest with h | h <;> linarith
  rcases Nat.lt_trichotomy m.rank n.rank with hlt | heq | hgt
  · exact absurd hlt (hapart hm hn)
  · exact ext_rank heq
  · exact absurd hgt (hapart hn hm)

theorem units_pow (q : Nat) : units (q * 2 ^ 52 + 2 ^ 52) = 2 ^ (52 + q) := by
  rw [units_form (by decide) (.inr (Nat.le_refl _)), ← Nat.pow_add]

theorem floor_form (n : Nat) : ∃ e s, floor n = e * 2 ^ 52 + s ∧ s = n / 2 ^ e ∧ s < 2 ^ 53 ∧
    (e = 0 ∨ 2 ^ 52 ≤ s) := by
  have hlt : n < 2 ^ (n.log2 + 1) := Nat.lt_log2_self
  refine ⟨n.log2 - 52, n / 2 ^ (n.log2 - 52), by rw [floor, Nat.pow_eq, Nat.pow_eq], rfl, ?_, ?_⟩
  · rw [Nat.div_lt_iff_lt_mul (Nat.two_pow_pos _), ← Nat.pow_add]
    exact Nat.lt_of_lt_of_le hlt (Nat.pow_le_pow_right (by decide) (by omega))
  · by_cases hlog : n.log2 ≤ 52
    · exact .inl (by omega)
    · right
      have hne : n ≠ 0 := by
        rintro rfl
        simp at hlog
      rw [Nat.le_div_iff_mul_le (Nat.two_pow_pos _), ← Nat.pow_add,
        show 52 + (n.log2 - 52) = n.log2 by omega]
      exact Nat.log2_self_le hne

theorem units_floor_le (n : Nat) : units (floor n) ≤ n := by
  obtain ⟨e, s, hfloor, hs, hlt, h⟩ := floor_form n
  rw [hfloor, units_form hlt h, hs]
  exact Nat.div_mul_le_self n _

theorem lt_units_floor_succ (n : Nat) : n < units (floor n + 1) := by
  obtain ⟨e, s, hfloor, hs, hlt, h⟩ := floor_form n
  rw [hfloor, units_succ_form hlt h, hs]
  rw [Nat.mul_comm]
  exact Nat.lt_mul_div_succ n (Nat.two_pow_pos e)

theorem floor_eq {n rank : Nat} (hle : units rank ≤ n) (hlt : n < units (rank + 1)) :
    floor n = rank := by
  have hfloor := units_floor_le n
  have hfloor' := lt_units_floor_succ n
  rcases Nat.lt_trichotomy (floor n) rank with h | h | h
  · have := units_mono (show floor n + 1 ≤ rank from h)
    omega
  · exact h
  · have := units_mono (show rank + 1 ≤ floor n from h)
    omega

theorem Rounds.of_units {num den : Nat} (hden : 0 < den)
    (hlow : ∀ n : Magnitude, n.rank + 1 = m.rank →
      (n.size + m.size) * den < 2 * num ∨ (n.size + m.size) * den = 2 * num ∧ m.rank % 2 = 0)
    (hhigh : ∀ n : Magnitude, m.rank + 1 = n.rank →
      2 * num < (m.size + n.size) * den ∨ 2 * num = (m.size + n.size) * den ∧ m.rank % 2 = 0) :
    m.Rounds (num / (den * scale)) := by
  have hscale : (0 : ℚ) < scale := by exact_mod_cast scale_pos
  have hden' : (0 : ℚ) < den := by exact_mod_cast hden
  have hpos : (0 : ℚ) < den * scale := mul_pos hden' hscale
  have hsum : ∀ a b : Magnitude,
      a.value + b.value = ((a.size + b.size) * den : ℕ) / (den * scale : ℚ) := by
    intro a b
    rw [value, value]
    push_cast
    field_simp
  have hdouble : 2 * (num / (den * scale) : ℚ) = (2 * num : ℕ) / (den * scale : ℚ) := by
    push_cast
    exact (mul_div_assoc _ _ _).symm
  apply Rounds.of_middles
  · intro n hn
    rw [hsum, hdouble, div_lt_div_iff_of_pos_right hpos, div_left_inj' (ne_of_gt hpos)]
    exact_mod_cast hlow n hn
  · intro n hn
    rw [hsum, hdouble, div_lt_div_iff_of_pos_right hpos, div_left_inj' (ne_of_gt hpos)]
    exact_mod_cast hhigh n hn

theorem nearestRank_cases {num den low : Nat} (hlow : floor (num / den) = low) :
    2 * num < den * (units low + units (low + 1)) ∧ nearestRank num den = low ∨
      den * (units low + units (low + 1)) < 2 * num ∧ nearestRank num den = low + 1 ∨
      2 * num = den * (units low + units (low + 1)) ∧ nearestRank num den % 2 = 0 ∧
        (nearestRank num den = low ∨ nearestRank num den = low + 1) := by
  rw [nearestRank, hlow]
  generalize den * (units low + units (low + 1)) = middle
  by_cases hlt : 2 * num < middle
  · exact .inl ⟨hlt, if_pos hlt⟩
  rw [if_neg hlt]
  by_cases hgt : middle < 2 * num
  · exact .inr (.inl ⟨hgt, if_pos hgt⟩)
  rw [if_neg hgt]
  right
  right
  split <;> omega

theorem nearest_rounds (num : Nat) {den : Nat} (hden : 0 < den) :
    (nearest num den).Rounds (num / (den * scale)) := by
  have hcases := @nearestRank_cases num den _ rfl
  have hbelow : units (floor (num / den)) * den ≤ num :=
    Nat.mul_le_of_le_div _ _ _ (units_floor_le _)
  have habove : num < units (floor (num / den) + 1) * den :=
    Nat.lt_mul_of_div_lt (lt_units_floor_succ _) hden
  generalize floor (num / den) = low at hcases hbelow habove
  have hrank : (nearest num den).rank = min (nearestRank num den) top := rfl
  have hdistinct : ∀ a b : Nat, a < b → units a * den < units b * den := fun a b h =>
    Nat.mul_lt_mul_of_pos_right (units_strictMono h) hden
  simp only [Nat.mul_comm den, Nat.add_mul] at hcases
  apply Rounds.of_units hden
  · intro n hn
    rw [Nat.add_mul]
    have hn' := hdistinct n.rank (nearest num den).rank (by omega)
    rw [size, size]
    by_cases hle : (nearest num den).rank ≤ low
    · have hle' : units (nearest num den).rank * den ≤ units low * den :=
        Nat.mul_le_mul_right _ (units_mono hle)
      omega
    · have hsucc : (nearest num den).rank = low + 1 := by omega
      have hlow : n.rank = low := by omega
      rw [hsucc, hlow]
      omega
  · intro n hn
    have hle : n.rank ≤ top := n.rank_le
    rw [Nat.add_mul, size, size]
    by_cases hlow : (nearest num den).rank = low
    · rw [← hn, hlow]
      omega
    · have hsucc : (nearest num den).rank = low + 1 := by omega
      have hn' := hdistinct (low + 1) n.rank (by omega)
      rw [hsucc]
      omega

end Magnitude

namespace Decimal

def value (d : Decimal) : ℚ := d.coefficient * 10 ^ d.exponent

theorem value_eq (d : Decimal) :
    d.value = (d.coefficient * 10 ^ d.exponent.toNat * Magnitude.scale : ℕ) /
      ((10 ^ (-d.exponent).toNat : ℕ) * Magnitude.scale) := by
  have hscale : (Magnitude.scale : ℚ) ≠ 0 := by exact_mod_cast Nat.ne_of_gt Magnitude.scale_pos
  have hsplit : (10 : ℚ) ^ d.exponent = 10 ^ d.exponent.toNat / 10 ^ (-d.exponent).toNat := by
    rw [← zpow_natCast, ← zpow_natCast, ← zpow_sub₀ (by norm_num)]
    congr 1
    omega
  rw [value, hsplit]
  push_cast
  rw [mul_div_mul_right _ _ hscale, mul_div_assoc]

theorem two_pow_le_ten_pow (k : Nat) : 2 ^ (3 * k) ≤ 10 ^ k := by
  rw [Nat.pow_mul]
  exact Nat.pow_le_pow_left (by decide) k

/-- With an exponent that is too large, a decimal is past the power of two behind the last
double. -/
theorem infinite_rounds {d : Decimal} (hc : d.coefficient ≠ 0) (he : 400 < d.exponent) :
    Magnitude.infinite.Rounds d.value := by
  obtain ⟨p, hp, hscale⟩ := Magnitude.exists_scale
  obtain ⟨q, hq, htop⟩ : ∃ q, q = 2046 ∧ Magnitude.top = q * 2 ^ 52 + 2 ^ 52 := ⟨_, rfl, rfl⟩
  have hunits : Magnitude.units Magnitude.top = 2 ^ (52 + q) := by
    rw [htop, Magnitude.units_pow]
  have hlarge : Magnitude.units Magnitude.top ≤
      d.coefficient * 10 ^ d.exponent.toNat * Magnitude.scale := by
    rw [hunits, hscale]
    calc 2 ^ (52 + q) ≤ 2 ^ (3 * d.exponent.toNat + p) :=
          Nat.pow_le_pow_right (by decide) (by omega)
      _ = 2 ^ (3 * d.exponent.toNat) * 2 ^ p := Nat.pow_add ..
      _ ≤ 10 ^ d.exponent.toNat * 2 ^ p := Nat.mul_le_mul_right _ (two_pow_le_ten_pow _)
      _ ≤ d.coefficient * 10 ^ d.exponent.toNat * 2 ^ p :=
          Nat.mul_le_mul_right _ (Nat.le_mul_of_pos_left _ (Nat.pos_of_ne_zero hc))
  rw [value_eq]
  apply Magnitude.Rounds.of_units (Nat.pow_pos (by decide))
  · intro n hn
    left
    have hsize : n.size < Magnitude.units Magnitude.top := by
      apply Magnitude.units_strictMono
      rw [← show n.rank + 1 = Magnitude.top from hn]
      exact Nat.lt_succ_self _
    have hone : (-d.exponent).toNat = 0 := by omega
    rw [hone, Nat.pow_zero, Nat.mul_one, show Magnitude.infinite.size = _ from hunits]
    omega
  · intro n hn
    have hle : n.rank ≤ Magnitude.top := n.rank_le
    have hinf : Magnitude.infinite.rank = Magnitude.top := rfl
    omega

theorem zero_rounds {d : Decimal} (he : d.exponent + d.coefficient.log2 < -401) :
    Magnitude.zero.Rounds d.value := by
  obtain ⟨p, hp, hscale⟩ := Magnitude.exists_scale
  rw [value_eq]
  apply Magnitude.Rounds.of_units (Nat.pow_pos (by decide))
  · intro n hn
    exact absurd hn (Nat.succ_ne_zero _)
  · intro n hn
    left
    have hone : d.exponent.toNat = 0 := by omega
    have hsize : Magnitude.zero.size + n.size = 1 := by
      rw [Magnitude.size, Magnitude.size, ← hn]
      rfl
    rw [hone, hsize, Nat.pow_zero, Nat.mul_one, Nat.one_mul, hscale]
    calc 2 * (d.coefficient * 2 ^ p)
        < 2 * (2 ^ (d.coefficient.log2 + 1) * 2 ^ p) :=
          Nat.mul_lt_mul_of_pos_left
            (Nat.mul_lt_mul_of_pos_right Nat.lt_log2_self (Nat.two_pow_pos p)) (by decide)
      _ = 2 ^ (d.coefficient.log2 + 1 + p + 1) := by
          rw [← Nat.pow_add, Nat.mul_comm, ← Nat.pow_succ]
      _ ≤ 2 ^ (3 * (-d.exponent).toNat) := Nat.pow_le_pow_right (by decide) (by omega)
      _ ≤ 10 ^ (-d.exponent).toNat := two_pow_le_ten_pow _

/-- A decimal is rounded correctly, also where its exponent alone settles the result. -/
theorem nearest_rounds (d : Decimal) : d.nearest.Rounds d.value := by
  rw [nearest]
  split
  · next hc =>
    have hround : Magnitude.zero.Rounds ((0 : ℕ) / ((1 : ℕ) * Magnitude.scale)) :=
      Magnitude.nearest_rounds 0 (Nat.succ_pos 0)
    rw [Nat.cast_zero, zero_div] at hround
    rwa [value, hc, Nat.cast_zero, zero_mul]
  · next hc =>
    split
    · next he => exact infinite_rounds hc he
    · split
      · next he => exact zero_rounds he
      · rw [value_eq]
        exact Magnitude.nearest_rounds _ (Nat.pow_pos (by decide))

theorem nearest_of_value {d : Decimal} {m : Magnitude} (h : m.Rounds d.value) : d.nearest = m :=
  d.nearest_rounds.unique h

end Decimal

end Coercive
