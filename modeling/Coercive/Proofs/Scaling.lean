import Coercive.Number.Arithmetic
import Coercive.Proofs.Nearest
import Mathlib.Tactic.Ring

namespace Coercive

namespace Magnitude

theorem nearest_of_le {num den : Nat} (h : top ≤ nearestRank num den) :
    nearest num den = .infinite :=
  ext_rank (Nat.min_eq_right h)

theorem rank_nearest {num den : Nat} (h : nearestRank num den < top) :
    (nearest num den).rank = nearestRank num den :=
  Nat.min_eq_left (Nat.le_of_lt h)

theorem le_floor {n rank : Nat} (h : units rank ≤ n) : rank ≤ floor n := by
  by_contra hlt
  have hle := units_mono (show floor n + 1 ≤ rank by omega)
  have := lt_units_floor_succ n
  omega

theorem le_floor_pow {q n : Nat} (h : 2 ^ (52 + q) ≤ n) : q * 2 ^ 52 + 2 ^ 52 ≤ floor n :=
  le_floor (by rwa [units_pow])

theorem full_floor {n : Nat} (h : 2 ^ 52 ≤ n) : 2 ^ 52 ≤ floor n := by
  simpa using le_floor_pow (q := 0) h

theorem form_of_le {q rank : Nat} (h : q * 2 ^ 52 + 2 ^ 52 ≤ rank) :
    ∃ e s, rank = e * 2 ^ 52 + s ∧ s < 2 ^ 53 ∧ 2 ^ 52 ≤ s ∧ q ≤ e := by
  obtain ⟨e, s, rfl, hs, hform⟩ := exists_form rank
  exact ⟨e, s, rfl, hs, by omega, by omega⟩

theorem floor_le_nearestRank (n : Nat) : floor n ≤ nearestRank n 1 := by
  have hcases := nearestRank_cases (congrArg floor (Nat.div_one n))
  rcases hcases with ⟨-, h⟩ | ⟨-, h⟩ | ⟨-, -, h | h⟩ <;> omega

theorem units_shift {rank : Nat} (h : 2 ^ 52 ≤ rank) (k : Nat) :
    units (rank + k * 2 ^ 52) = units rank * 2 ^ k := by
  obtain ⟨e, s, rfl, hs, hform⟩ := exists_form rank
  have hfull : 2 ^ 52 ≤ s := by omega
  rw [show e * 2 ^ 52 + s + k * 2 ^ 52 = (e + k) * 2 ^ 52 + s by rw [Nat.add_mul]; omega,
    units_form hs (.inr hfull), units_form hs hform, Nat.pow_add, Nat.mul_assoc]

theorem floor_shift {n : Nat} (h : 2 ^ 52 ≤ n) (k : Nat) :
    floor (n * 2 ^ k) = floor n + k * 2 ^ 52 := by
  have hfull := full_floor h
  apply floor_eq
  · rw [units_shift hfull]
    exact Nat.mul_le_mul_right _ (units_floor_le n)
  · rw [Nat.add_right_comm, units_shift (Nat.le_succ_of_le hfull)]
    exact Nat.mul_lt_mul_of_pos_right (lt_units_floor_succ n) (Nat.two_pow_pos k)

theorem nearestRank_shift {n : Nat} (h : 2 ^ 52 ≤ n) (k : Nat) :
    nearestRank (n * 2 ^ k) 1 = nearestRank n 1 + k * 2 ^ 52 := by
  have hfull := full_floor h
  have hmiddle : units (floor n + k * 2 ^ 52) + units (floor n + k * 2 ^ 52 + 1) =
      (units (floor n) + units (floor n + 1)) * 2 ^ k := by
    rw [Nat.add_right_comm, units_shift hfull, units_shift (Nat.le_succ_of_le hfull), Nat.add_mul]
  have hparity : (floor n + k * 2 ^ 52) % 2 = floor n % 2 := by omega
  have hdouble : 2 * (n * 2 ^ k) = 2 * n * 2 ^ k := (Nat.mul_assoc _ _ _).symm
  simp only [nearestRank, Nat.div_one, Nat.one_mul, floor_shift h, hmiddle, hparity, hdouble,
    Nat.mul_lt_mul_right (Nat.two_pow_pos k)]
  split
  · rfl
  · split
    · omega
    · split <;> omega

theorem units_of_lt {n : Nat} (h : n < 2 ^ 53) : units n = n := by
  simpa using units_form (e := 0) h (.inl rfl)

/-- Numbers with at most fifty-three binary digits, and zeros behind them, are values. -/
theorem exists_units {s : Nat} (hs : s < 2 ^ 53) (e : Nat) : ∃ rank, units rank = s * 2 ^ e := by
  induction e with
  | zero => exact ⟨s, by rw [units_of_lt hs, Nat.pow_zero, Nat.mul_one]⟩
  | succ e ih =>
    obtain ⟨rank, hrank⟩ := ih
    rw [Nat.pow_succ, ← Nat.mul_assoc, ← hrank]
    by_cases hfull : 2 ^ 52 ≤ rank
    · exact ⟨rank + 1 * 2 ^ 52, by rw [units_shift hfull, Nat.pow_one]⟩
    · refine ⟨rank * 2, ?_⟩
      rw [units_of_lt (by omega), units_of_lt (by omega)]

def ofNat (n : Nat) : Magnitude := nearest (n * scale) 1

theorem ofNat_zero : ofNat 0 = .zero := by
  rw [ofNat, Nat.zero_mul]
  rfl

theorem ofNat_rounds (n : Nat) : (ofNat n).Rounds n := by
  have hscale : (scale : ℚ) ≠ 0 := by exact_mod_cast Nat.ne_of_gt scale_pos
  have h := nearest_rounds (n * scale) Nat.one_pos
  push_cast at h
  rwa [one_mul, mul_div_cancel_right₀ _ hscale] at h

theorem size_ofNat {s k : Nat} (hs : s < 2 ^ 53) (hk : k ≤ 53) :
    (ofNat (s * 2 ^ k)).size = s * 2 ^ k * scale ∧ (ofNat (s * 2 ^ k)).rank < top := by
  obtain ⟨p, hp, hscale⟩ := exists_scale
  obtain ⟨q, hq, htop⟩ : ∃ q, q = 2046 ∧ top = q * 2 ^ 52 + 2 ^ 52 := ⟨_, rfl, rfl⟩
  obtain ⟨rank, hrank⟩ := exists_units hs (k + p)
  have hvalue : s * 2 ^ k * scale = units rank := by
    rw [hrank, hscale, Nat.pow_add, Nat.mul_assoc]
  have hlt : units rank < units top := by
    rw [hrank, htop, units_pow]
    calc s * 2 ^ (k + p) < 2 ^ 53 * 2 ^ (k + p) :=
          Nat.mul_lt_mul_of_pos_right hs (Nat.two_pow_pos _)
      _ = 2 ^ (53 + (k + p)) := (Nat.pow_add ..).symm
      _ ≤ 2 ^ (52 + q) := Nat.pow_le_pow_right (by decide) (by omega)
  have hbelow : rank < top := by
    by_contra hge
    have := units_mono (Nat.le_of_not_lt hge)
    omega
  have hnearest : (ofNat (s * 2 ^ k)).rank = rank := by
    have hround := nearestRank_units rank Nat.one_pos
    rw [Nat.mul_one, ← hvalue] at hround
    show min (nearestRank (s * 2 ^ k * scale) 1) top = rank
    rw [hround]
    omega
  rw [size, hnearest]
  exact ⟨hvalue.symm, hbelow⟩

theorem value_ofNat {s k : Nat} (hs : s < 2 ^ 53) (hk : k ≤ 53) :
    (ofNat (s * 2 ^ k)).value = (s * 2 ^ k : ℕ) := by
  have hscale : (scale : ℚ) ≠ 0 := by exact_mod_cast Nat.ne_of_gt scale_pos
  rw [value, (size_ofNat hs hk).1, Nat.cast_mul, mul_div_cancel_right₀ _ hscale]

theorem scale_large : 2 ^ 52 ≤ scale := by
  obtain ⟨p, hp, hscale⟩ := exists_scale
  rw [hscale]
  exact Nat.pow_le_pow_right (by decide) (by omega)

theorem nearestRank_ofNat {n : Nat} (hn : 0 < n) (k : Nat) :
    nearestRank (n * 2 ^ k * scale) 1 = nearestRank (n * scale) 1 + k * 2 ^ 52 := by
  have hlarge : 2 ^ 52 ≤ n * scale :=
    Nat.le_trans scale_large (Nat.le_mul_of_pos_left _ hn)
  rw [Nat.mul_right_comm, nearestRank_shift hlarge]

theorem first_le_nearestRank {n : Nat} (h : 2 ^ 52 ≤ n) : 2 ^ 52 ≤ nearestRank n 1 :=
  Nat.le_trans (full_floor h) (floor_le_nearestRank n)

/-- What is added behind the digits that count is smaller than half of the spacing. -/
theorem nearest_absorb {a c q : Nat} (hlarge : 2 ^ (52 + q) ≤ a) (hc : 2 * c < 2 ^ q)
    (hfinite : nearestRank a 1 < top) :
    nearest ((nearest a 1).size + c) 1 = nearest a 1 := by
  obtain ⟨e, s, hrank, hs, hfull, hq⟩ :=
    form_of_le (Nat.le_trans (le_floor_pow hlarge) (floor_le_nearestRank a))
  have hspacing : 2 ^ q ≤ 2 ^ e := Nat.pow_le_pow_right (by decide) hq
  have hsize : (nearest a 1).size = s * 2 ^ e := by
    rw [size, rank_nearest hfinite, hrank, units_form hs (.inr hfull)]
  have hnext : units (nearestRank a 1 + 1) = s * 2 ^ e + 2 ^ e := by
    rw [hrank, units_succ_form hs (.inr hfull), Nat.succ_mul]
  have hunits : units (nearestRank a 1) = s * 2 ^ e := by rw [hrank, units_form hs (.inr hfull)]
  have hfloor : floor ((s * 2 ^ e + c) / 1) = nearestRank a 1 := by
    rw [Nat.div_one]
    apply floor_eq
    · rw [hunits]
      exact Nat.le_add_right _ _
    · rw [hnext]
      omega
  have hbelow : 2 * (s * 2 ^ e + c) <
      1 * (units (nearestRank a 1) + units (nearestRank a 1 + 1)) := by
    rw [hunits, hnext]
    omega
  apply ext_rank
  show min (nearestRank _ 1) top = min (nearestRank a 1) top
  rw [hsize, nearestRank, hfloor]
  exact congrArg (min · top) (if_pos hbelow)

def next (m : Magnitude) : Magnitude := ⟨min (m.rank + 1) top, Nat.min_le_right _ _⟩

theorem rank_next {m : Magnitude} (h : m.rank < top) : m.next.rank = m.rank + 1 :=
  Nat.min_eq_left h

theorem next_infinite : next .infinite = .infinite :=
  ext_rank (Nat.min_eq_right (Nat.le_succ top))

/-- Digits behind those that count matter only where the number without them is in the middle
between two magnitudes, and is rounded to the lower one. -/
theorem nearest_tail {a b q : Nat} (hdvd : 2 ^ q ∣ a) (hle : a ≤ b) (hlt : b < a + 2 ^ q)
    (hlarge : 2 ^ (53 + q) ≤ a) :
    nearest b 1 = if b ≠ a ∧ 2 * a = (nearest a 1).size + (nearest a 1).next.size
      then (nearest a 1).next else nearest a 1 := by
  have hlarge' : 2 ^ (52 + (q + 1)) ≤ a := by rwa [show 52 + (q + 1) = 53 + q by omega]
  obtain ⟨e, s, hform, hs, hfull, hq⟩ := form_of_le (le_floor_pow hlarge')
  obtain ⟨d, rfl⟩ : ∃ d, e = d + 1 := ⟨e - 1, by omega⟩
  have hunits : units (floor a) = s * 2 ^ (d + 1) := by rw [hform, units_form hs (.inr hfull)]
  have hnext : units (floor a + 1) = (s + 1) * 2 ^ (d + 1) := by
    rw [hform, units_succ_form hs (.inr hfull)]
  have hbelow := units_floor_le a
  have habove := lt_units_floor_succ a
  -- The number, the middle and the position behind are all multiples of the power of two.
  have hmiddle : units (floor a) + units (floor a + 1) = 2 * ((2 * s + 1) * 2 ^ d) := by
    rw [hunits, hnext, Nat.pow_succ]
    ring
  have hstep : ∀ c : Nat, 2 ^ d ∣ c → a < c → b < c := by
    intro c hc hac
    have hle := Nat.le_of_lt_add_of_dvd (Nat.add_lt_add_right hac (2 ^ q))
      (Nat.dvd_add_self_right.2 hdvd) (Nat.dvd_trans (Nat.pow_dvd_pow 2 (by omega)) hc)
    omega
  have hbmiddle : a < (2 * s + 1) * 2 ^ d → b < (2 * s + 1) * 2 ^ d :=
    hstep _ (Nat.dvd_mul_left _ _)
  have hbnext : b < units (floor a + 1) := by
    refine hstep _ ?_ habove
    rw [hnext, Nat.pow_succ, ← Nat.mul_assoc, Nat.mul_right_comm]
    exact Nat.dvd_mul_left _ _
  have hfloor : floor b = floor a := floor_eq (Nat.le_trans hbelow hle) hbnext
  have hrank := nearestRank_cases (congrArg floor (Nat.div_one a))
  have hrank' := nearestRank_cases ((congrArg floor (Nat.div_one b)).trans hfloor)
  rw [Nat.one_mul, hmiddle] at hrank hrank'
  rcases Nat.lt_or_ge (floor a) top with hlow | hlow
  · have hmin : (nearest a 1).rank = nearestRank a 1 := Nat.min_eq_left (by omega)
    have hmin' : (nearest b 1).rank = nearestRank b 1 := Nat.min_eq_left (by omega)
    by_cases hdown : nearestRank a 1 = floor a
    · have hsucc : (nearest a 1).next.rank = floor a + 1 := by
        rw [rank_next (by omega), hmin, hdown]
      have hsum : (nearest a 1).size + (nearest a 1).next.size = 2 * ((2 * s + 1) * 2 ^ d) := by
        rw [size, size, hmin, hsucc, hdown, hmiddle]
      rw [hsum]
      split
      · apply ext_rank
        omega
      · apply ext_rank
        omega
    · have hup : nearestRank a 1 = floor a + 1 := by omega
      have hsum : 2 * a < (nearest a 1).size + (nearest a 1).next.size := by
        have hle : (nearest a 1).rank ≤ (nearest a 1).next.rank :=
          Nat.le_min.2 ⟨Nat.le_succ _, (nearest a 1).rank_le⟩
        have hsize : units (floor a + 1) = (nearest a 1).size := by rw [size, hmin, hup]
        have hnext : (nearest a 1).size ≤ (nearest a 1).next.size := units_mono hle
        omega
      rw [if_neg fun h => Nat.ne_of_lt hsum h.2]
      apply ext_rank
      omega
  · have hinf : nearest a 1 = .infinite := nearest_of_le (by omega)
    have hinf' : nearest b 1 = .infinite := nearest_of_le (by omega)
    rw [hinf, hinf', next_infinite, ite_self]

end Magnitude

namespace Number

open Magnitude

theorem ofNat_eq (n : Nat) : Number.ofNat n = .signed false (.ofNat n) := by
  have hpos : ¬ (n : Int) < 0 := by omega
  simp only [Number.ofNat, Number.ofInt, Magnitude.ofNat, hpos, decide_false, Int.natAbs_natCast]

theorem isInfinite_of_lt {m : Magnitude} (h : m.rank < top) : m.isInfinite = false :=
  beq_eq_false_iff_ne.2 (Nat.ne_of_lt h)

theorem isZero_of_lt {m : Magnitude} (h : 0 < m.size) : m.isZero = false := by
  rw [Magnitude.isZero, beq_eq_false_iff_ne]
  intro hzero
  rw [size, hzero] at h
  exact absurd h (Nat.lt_irrefl 0)

theorem mul_shift (n : Nat) {k : Nat} (hk : k ≤ 53) :
    (Number.ofNat n).mul (.ofNat (2 ^ k)) = .ofNat (n * 2 ^ k) := by
  obtain ⟨hsize, hrank⟩ := size_ofNat (s := 1) (by decide) hk
  rw [Nat.one_mul] at hsize hrank
  have hnonzero : (Magnitude.ofNat (2 ^ k)).isZero = false :=
    isZero_of_lt (hsize ▸ Nat.mul_pos (Nat.two_pow_pos k) scale_pos)
  rw [ofNat_eq, ofNat_eq, ofNat_eq, mul, isInfinite_of_lt hrank, hnonzero, hsize, Bool.or_false,
    Bool.or_false]
  rcases Nat.eq_zero_or_pos n with rfl | hn
  · have hproduct : Magnitude.nearest (Magnitude.zero.size * (2 ^ k * scale)) scale = .zero := by
      have hround := nearest_size .zero scale_pos
      rwa [show Magnitude.zero.size = 0 from rfl, Nat.zero_mul] at hround ⊢
    rw [Nat.zero_mul, ofNat_zero, hproduct]
    rfl
  · have hlarge : 2 ^ 52 ≤ n * scale := Nat.le_trans scale_large (Nat.le_mul_of_pos_left _ hn)
    have hfirst := first_le_nearestRank hlarge
    have hshift := nearestRank_ofNat hn k
    rcases Nat.lt_or_ge (nearestRank (n * scale) 1) top with hlt | hge
    · have hmul : (Magnitude.ofNat n).size * (2 ^ k * scale) =
          units (nearestRank (n * 2 ^ k * scale) 1) * scale := by
        rw [hshift, units_shift hfirst, size, Magnitude.ofNat, rank_nearest hlt, Nat.mul_assoc]
      have hnearest : Magnitude.nearest ((Magnitude.ofNat n).size * (2 ^ k * scale)) scale =
          Magnitude.ofNat (n * 2 ^ k) := by
        apply ext_rank
        rw [hmul]
        show min (nearestRank _ _) top = min (nearestRank _ _) top
        rw [nearestRank_units _ scale_pos]
      have hrank : (Magnitude.ofNat n).rank < top := by
        rw [Magnitude.ofNat, rank_nearest hlt]
        exact hlt
      rw [isInfinite_of_lt hrank, hnearest]
      rfl
    · have hinfinite : Magnitude.ofNat n = .infinite := nearest_of_le hge
      have hproduct : Magnitude.ofNat (n * 2 ^ k) = .infinite :=
        nearest_of_le (hshift ▸ Nat.le_trans hge (Nat.le_add_right _ _))
      rw [hinfinite, hproduct]
      rfl

theorem add_finite {m n : Magnitude} (hm : m.rank < top) (hn : n.rank < top) :
    Number.add (.signed false m) (.signed false n) =
      .signed false (.nearest (m.size + n.size) 1) := by
  have hsum : signedUnits false m + signedUnits false n = ((m.size + n.size : Nat) : Int) := rfl
  rw [add, isInfinite_of_lt hm, isInfinite_of_lt hn, if_neg Bool.false_ne_true,
    if_neg Bool.false_ne_true, hsum]
  generalize m.size + n.size = sum
  dsimp only
  split
  · next hzero =>
    rw [show sum = 0 by omega]
    rfl
  · rw [Int.natAbs_natCast, decide_eq_false (by omega)]

theorem add_ofNat {s k d : Nat} (hs : s < 2 ^ 53) (hk : k ≤ 53) (hd : d < 2 ^ 53) :
    (Number.ofNat (s * 2 ^ k)).add (.ofNat d) = .ofNat (s * 2 ^ k + d) := by
  obtain ⟨hsize, hrank⟩ := size_ofNat hs hk
  obtain ⟨hsize', hrank'⟩ := size_ofNat (k := 0) hd (by decide)
  rw [Nat.pow_zero, Nat.mul_one] at hsize' hrank'
  rw [ofNat_eq, ofNat_eq, ofNat_eq, add_finite hrank hrank', hsize, hsize', ← Nat.add_mul]
  rfl

/-- Behind fifty-four binary digits a further one is lost. -/
theorem add_absorbed {n k d : Nat} (hn : 2 ^ 53 ≤ n) (hd : d < 2 ^ k) (hk : k ≤ 53) :
    (Number.ofNat (n * 2 ^ k)).add (.ofNat d) = .ofNat (n * 2 ^ k) := by
  obtain ⟨p, -, hscale⟩ := exists_scale
  have hd' : d < 2 ^ 53 := Nat.lt_of_lt_of_le hd (Nat.pow_le_pow_right (by decide) hk)
  obtain ⟨hsize, hrank⟩ := size_ofNat (k := 0) hd' (by decide)
  rw [Nat.pow_zero, Nat.mul_one] at hsize hrank
  have hlarge : 2 ^ (52 + (k + p + 1)) ≤ n * 2 ^ k * scale := by
    rw [hscale, Nat.mul_assoc, ← Nat.pow_add, show 52 + (k + p + 1) = 53 + (k + p) by omega,
      Nat.pow_add]
    exact Nat.mul_le_mul_right _ hn
  have hsmall : 2 * (d * scale) < 2 ^ (k + p + 1) := by
    rw [hscale, Nat.pow_succ, Nat.pow_add, Nat.mul_comm]
    exact Nat.mul_lt_mul_of_pos_right (Nat.mul_lt_mul_of_pos_right hd (Nat.two_pow_pos p))
      (by decide)
  rw [ofNat_eq, ofNat_eq]
  rcases Nat.lt_or_ge (nearestRank (n * 2 ^ k * scale) 1) top with hlt | hge
  · have hfinite : (Magnitude.ofNat (n * 2 ^ k)).rank < top := by
      rw [Magnitude.ofNat, rank_nearest hlt]
      exact hlt
    rw [add_finite hfinite hrank, hsize, Magnitude.ofNat, nearest_absorb hlarge hsmall hlt]
  · rw [show Magnitude.ofNat (n * 2 ^ k) = .infinite from nearest_of_le hge, add,
      isInfinite_of_lt hrank]
    rfl

end Number

end Coercive
