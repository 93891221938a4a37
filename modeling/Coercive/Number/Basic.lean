import Coercive.Number.Magnitude

namespace Coercive

/-- The binary64 doubles with one NaN. -/
inductive Number where
  | nan
  | signed (negative : Bool) (size : Magnitude)
  deriving DecidableEq, Inhabited

namespace Number

def zero : Number := .signed false .zero

def infinity : Number := .signed false .infinite

def isNaN : Number → Bool
  | .nan => true
  | .signed _ _ => false

def ofInt (n : Int) : Number :=
  .signed (n < 0) (.nearest (n.natAbs * Magnitude.scale) 1)

def ofNat (n : Nat) : Number := ofInt n

def one : Number := ofNat 1

/-- Reads an interchange bit pattern; every pattern past that of infinity is NaN. -/
def ofBits (bits : Nat) : Number :=
  let rank := bits % Nat.pow 2 63
  if h : rank ≤ Magnitude.top then .signed (bits / Nat.pow 2 63 % 2 == 1) ⟨rank, h⟩ else .nan

def toBits : Number → Nat
  | .nan => Magnitude.top + Nat.pow 2 51
  | .signed negative m => (if negative then Nat.pow 2 63 else 0) + m.rank

/-- The position in the order of all numbers, zero in the middle. -/
def position? : Number → Option Int
  | .nan => none
  | .signed negative m => some (if negative then -(m.rank : Int) else m.rank)

def compare? (a b : Number) : Option Ordering := do
  return compare (← a.position?) (← b.position?)

/-- Numeric equality: both zeros are equal and NaN equals nothing. -/
def equal (a b : Number) : Bool := a.compare? b == some .eq

theorem equal_iff {m n : Number} :
    m.equal n = true ↔ ∃ x, m.position? = some x ∧ n.position? = some x := by
  rw [equal, compare?]
  cases m.position? with
  | none => simp
  | some x =>
    cases n.position? with
    | none => simp
    | some y =>
      have horder : compare x y = .eq ↔ y = x := by
        rw [Int.compare_eq_eq]
        exact eq_comm
      simpa using horder

theorem equal_comm (m n : Number) : m.equal n = n.equal m := by
  rw [Bool.eq_iff_iff, equal_iff, equal_iff]
  simp only [and_comm]

theorem equal_self (negative : Bool) (m : Magnitude) :
    (signed negative m).equal (.signed negative m) = true :=
  equal_iff.2 ⟨_, rfl, rfl⟩

theorem equal_zero_iff {n : Number} :
    n.equal .zero = true ↔ ∃ negative, n = .signed negative .zero := by
  rw [equal_iff]
  constructor
  · rintro ⟨x, hn, hzero⟩
    cases hzero
    cases n with
    | nan => cases hn
    | signed negative m =>
      refine ⟨negative, congrArg (signed negative) (Magnitude.ext_rank ?_)⟩
      have hrank : (if negative then -(m.rank : Int) else m.rank) = 0 := Option.some.inj hn
      show m.rank = 0
      split at hrank <;> omega
  · rintro ⟨negative, rfl⟩
    cases negative <;> exact ⟨0, rfl, rfl⟩

end Number

end Coercive
