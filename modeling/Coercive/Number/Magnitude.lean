namespace Coercive

/-- A nonnegative double, or infinity, named by its position in increasing order. -/
structure Magnitude where
  rank : Nat
  rank_le : rank ≤ 2047 * Nat.pow 2 52
  deriving DecidableEq

namespace Magnitude

def top : Nat := 2047 * Nat.pow 2 52

def scale : Nat := Nat.pow 2 1074

/-- How often the spacing has doubled below a position. -/
def exponent (rank : Nat) : Nat := rank / Nat.pow 2 52 - 1

def significand (rank : Nat) : Nat := rank - exponent rank * Nat.pow 2 52

/-- The value at a position, counted in least positive doubles. -/
def units (rank : Nat) : Nat := significand rank * Nat.pow 2 (exponent rank)

/-- The last position whose value is at most `n` units. -/
def floor (n : Nat) : Nat :=
  let shift := n.log2 - 52
  shift * Nat.pow 2 52 + n / Nat.pow 2 shift

/-- The position nearest to `num / den` units; of two equally near ones, the even. -/
def nearestRank (num den : Nat) : Nat :=
  let low := floor (num / den)
  let value := 2 * num
  let middle := den * (units low + units (low + 1))
  if value < middle then low
  else if middle < value then low + 1
  else if low % 2 = 0 then low
  else low + 1

/-- The double nearest to `num / den` units. Past the middle between the last double and the next
power of two it is infinity. -/
def nearest (num den : Nat) : Magnitude :=
  ⟨min (nearestRank num den) top, Nat.min_le_right _ _⟩

instance : Inhabited Magnitude := ⟨⟨0, Nat.zero_le _⟩⟩

def zero : Magnitude := ⟨0, Nat.zero_le _⟩

def infinite : Magnitude := ⟨top, Nat.le_refl _⟩

def isZero (m : Magnitude) : Bool := m.rank == 0

def isInfinite (m : Magnitude) : Bool := m.rank == top

/-- The value of a magnitude in units; for infinity, that of the next power of two. -/
def size (m : Magnitude) : Nat := units m.rank

theorem ext_rank {m n : Magnitude} (h : m.rank = n.rank) : m = n := by
  cases m; cases n; cases h; rfl

theorem isZero_iff {m : Magnitude} : m.isZero = true ↔ m = .zero := by
  rw [isZero, beq_iff_eq]
  exact ⟨fun h => ext_rank h, congrArg rank⟩

theorem isInfinite_iff {m : Magnitude} : m.isInfinite = true ↔ m = .infinite := by
  rw [isInfinite, beq_iff_eq]
  exact ⟨fun h => ext_rank h, congrArg rank⟩

end Magnitude

end Coercive
