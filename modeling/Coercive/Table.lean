namespace Coercive

abbrev Table (κ ν : Type) := List (κ × ν)

namespace Table

variable {κ ν : Type} [DecidableEq κ]

def get? (t : Table κ ν) (k : κ) : Option ν := t.lookup k

def insert (t : Table κ ν) (k : κ) (v : ν) : Table κ ν := (k, v) :: t.filter fun p => p.1 != k

@[simp] theorem get?_nil (k : κ) : get? ([] : Table κ ν) k = none := rfl

@[simp] theorem get?_insert_self (t : Table κ ν) (k : κ) (v : ν) :
    (t.insert k v).get? k = some v := by
  simp [insert, get?]

theorem get?_insert_of_ne (t : Table κ ν) {k j : κ} (v : ν) (h : j ≠ k) :
    (t.insert k v).get? j = t.get? j := by
  have hne : (j == k) = false := beq_false_of_ne h
  have hlookup : ∀ t : Table κ ν, (t.filter fun p => p.1 != k).lookup j = t.lookup j := by
    intro t
    induction t with
    | nil => rfl
    | cons p t ih =>
      obtain ⟨i, w⟩ := p
      by_cases hi : i = k
      · subst hi
        simp [List.lookup_cons, ih, hne]
      · simp [List.lookup_cons, ih, hi]
  simp [insert, get?, List.lookup_cons, hne, hlookup]

end Table

end Coercive
