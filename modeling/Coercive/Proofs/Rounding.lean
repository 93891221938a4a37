import Coercive.Number.Decimal
import Mathlib.Algebra.Group.Nat.Defs

namespace Coercive

namespace Magnitude

theorem exists_form (rank : Nat) :
    ∃ e s, rank = e * 2 ^ 52 + s ∧ s < 2 ^ 53 ∧ (e = 0 ∨ 2 ^ 52 ≤ s) :=
  ⟨rank / 2 ^ 52 - 1, rank - (rank / 2 ^ 52 - 1) * 2 ^ 52, by omega, by omega, by omega⟩

theorem units_form {e s : Nat} (hs : s < 2 ^ 53) (h : e = 0 ∨ 2 ^ 52 ≤ s) :
    units (e * 2 ^ 52 + s) = s * 2 ^ e := by
  have he : exponent (e * 2 ^ 52 + s) = e := by
    rw [exponent, Nat.pow_eq]
    omega
  rw [units, significand, he, Nat.pow_eq, Nat.pow_eq, Nat.add_sub_cancel_left]

theorem log2_form {e s : Nat} (hs : s < 2 ^ 53) (h : e = 0 ∨ 2 ^ 52 ≤ s) :
    (s * 2 ^ e).log2 - 52 = e := by
  rcases h with rfl | hle
  · by_cases hzero : s = 0
    · subst hzero
      simp
    · have hlt : s.log2 < 53 := (Nat.log2_lt hzero).2 hs
      simp only [Nat.pow_zero, Nat.mul_one]
      omega
  · have hne : s * 2 ^ e ≠ 0 := Nat.mul_ne_zero (by omega) (Nat.ne_of_gt (Nat.two_pow_pos e))
    have hlog : (s * 2 ^ e).log2 = 52 + e := by
      rw [Nat.log2_eq_iff hne]
      constructor
      · rw [Nat.pow_add]
        exact Nat.mul_le_mul_right _ hle
      · rw [show 52 + e + 1 = 53 + e by omega, Nat.pow_add]
        exact Nat.mul_lt_mul_of_pos_right hs (Nat.two_pow_pos e)
    omega

theorem floor_units (rank : Nat) : floor (units rank) = rank := by
  obtain ⟨e, s, rfl, hs, h⟩ := exists_form rank
  rw [units_form hs h, floor]
  simp only [log2_form hs h, Nat.pow_eq, Nat.mul_div_cancel _ (Nat.two_pow_pos e)]

theorem units_succ_form {e s : Nat} (hs : s < 2 ^ 53) (h : e = 0 ∨ 2 ^ 52 ≤ s) :
    units (e * 2 ^ 52 + s + 1) = (s + 1) * 2 ^ e := by
  by_cases hnext : s + 1 < 2 ^ 53
  · rw [Nat.add_assoc, units_form hnext (h.imp_right Nat.le_succ_of_le)]
  · -- The significand is the last one, and the next position has twice the spacing.
    have hform : e * 2 ^ 52 + s + 1 = (e + 1) * 2 ^ 52 + 2 ^ 52 := by omega
    have hlast : s + 1 = 2 ^ 53 := by omega
    rw [hform, units_form (by decide) (.inr (Nat.le_refl _)), hlast, ← Nat.pow_add, ← Nat.pow_add,
      show 52 + (e + 1) = 53 + e by omega]

theorem units_lt_succ (rank : Nat) : units rank < units (rank + 1) := by
  obtain ⟨e, s, rfl, hs, h⟩ := exists_form rank
  rw [units_form hs h, units_succ_form hs h]
  exact Nat.mul_lt_mul_of_pos_right (Nat.lt_succ_self s) (Nat.two_pow_pos e)

theorem nearestRank_units (rank : Nat) {k : Nat} (hk : 0 < k) :
    nearestRank (units rank * k) k = rank := by
  have hlow : floor (units rank * k / k) = rank := by
    rw [Nat.mul_div_cancel _ hk, floor_units]
  have hlt : 2 * units rank < units rank + units (rank + 1) := by
    have := units_lt_succ rank
    omega
  have hbelow : 2 * (units rank * k) < k * (units rank + units (rank + 1)) := by
    calc 2 * (units rank * k) = k * (2 * units rank) := by rw [← Nat.mul_assoc, Nat.mul_comm]
      _ < k * (units rank + units (rank + 1)) := Nat.mul_lt_mul_of_pos_left hlt hk
  rw [nearestRank, hlow]
  exact if_pos hbelow

theorem nearest_size (m : Magnitude) {k : Nat} (hk : 0 < k) : nearest (m.size * k) k = m := by
  have htop : m.rank ≤ top := m.rank_le
  apply ext_rank
  show min (nearestRank (m.size * k) k) top = m.rank
  rw [size, nearestRank_units m.rank hk, Nat.min_eq_left htop]

theorem size_eq_zero {m : Magnitude} (h : m.size = 0) : m = .zero := by
  have hrank := floor_units m.rank
  rw [show units m.rank = 0 from h] at hrank
  exact ext_rank hrank.symm

end Magnitude

namespace Decimal

theorem nearest_zero (p : Int) : nearest ⟨0, p⟩ = .zero := if_pos rfl

theorem nearest_of_fraction {c p : Nat} (hc : c ≠ 0) (hp : p ≤ c.log2 + 401) :
    nearest ⟨c, -p⟩ = .nearest (c * Magnitude.scale) (10 ^ p) := by
  have hlow : ¬ 400 < -(p : Int) := by omega
  have hhigh : ¬ -(p : Int) + c.log2 < -401 := by omega
  simp only [nearest, if_neg hc, if_neg hlow, if_neg hhigh, Int.neg_neg, Int.toNat_natCast,
    Int.toNat_neg_natCast, Nat.pow_eq, Nat.pow_zero, Nat.mul_one]

theorem nearest_scaled (m : Magnitude) {p : Nat} (hp : Magnitude.scale = Nat.pow 2 p) :
    nearest ⟨m.size * Nat.pow 5 p, -p⟩ = m := by
  rw [Nat.pow_eq] at hp ⊢
  by_cases hzero : m.size = 0
  · rw [hzero, Nat.zero_mul, nearest_zero, Magnitude.size_eq_zero hzero]
  · have hfive : 2 ^ (2 * p) ≤ 5 ^ p := by
      rw [Nat.pow_mul]
      exact Nat.pow_le_pow_left (by decide) p
    have hlarge : 2 ^ (2 * p) ≤ m.size * 5 ^ p :=
      Nat.le_trans hfive (Nat.le_mul_of_pos_left _ (Nat.pos_of_ne_zero hzero))
    have hne : m.size * 5 ^ p ≠ 0 :=
      Nat.ne_of_gt (Nat.lt_of_lt_of_le (Nat.two_pow_pos _) hlarge)
    have hlog : 2 * p ≤ (m.size * 5 ^ p).log2 := (Nat.le_log2 hne).2 hlarge
    rw [nearest_of_fraction hne (by omega), Nat.mul_assoc, hp, ← Nat.mul_pow]
    exact Magnitude.nearest_size m (Nat.pow_pos (by decide))

theorem nearest_exact (m : Magnitude) : (exact m).nearest = m := by
  have hscale : Magnitude.scale = Nat.pow 2 1074 := by
    delta Magnitude.scale
    exact Eq.refl _
  have hnearest := nearest_scaled m hscale
  rwa [exact]

end Decimal

end Coercive
