
/-! Searches of a table that go from cell to cell and around its end. -/
namespace Pnet.Lib

variable {p : Nat → Bool} {capacity : Nat}

/-- The first of `steps` cells from `i` on that has the property. -/
def probe (p : Nat → Bool) (capacity : Nat) : Nat → Nat → Option Nat
  | 0, _ => none
  | steps + 1, i => if p i then some i else probe p capacity steps ((i + 1) % capacity)

theorem probe_spec {steps i j : Nat} (hi : i < capacity) (h : probe p capacity steps i = some j) :
    j < capacity ∧ p j = true := by
  induction steps generalizing i with
  | zero => cases h
  | succ steps ih =>
    rw [probe] at h
    split at h
    · next hp =>
      cases h
      exact ⟨hi, hp⟩
    · exact ih (Nat.mod_lt _ (by omega)) h

theorem probe_none {steps i : Nat} (h : probe p capacity steps i = none) {k : Nat}
    (hk : k < steps) (hi : i < capacity) : p ((i + k) % capacity) = false := by
  induction steps generalizing i k with
  | zero => omega
  | succ steps ih =>
    rw [probe] at h
    split at h
    · cases h
    · next hp =>
      cases k with
      | zero => rwa [Nat.add_zero, Nat.mod_eq_of_lt hi, ← Bool.not_eq_true]
      | succ k =>
        have hnext := ih h (Nat.lt_of_succ_lt_succ hk) (Nat.mod_lt _ (by omega))
        rwa [Nat.mod_add_mod, Nat.add_assoc, Nat.add_comm 1] at hnext

/-- As many steps as there are cells find one that has the property. -/
theorem exists_probe {i j : Nat} (hi : i < capacity) (hj : j < capacity) (hp : p j = true) :
    ∃ k, probe p capacity capacity i = some k := by
  cases h : probe p capacity capacity i with
  | some k => exact ⟨k, rfl⟩
  | none =>
    have hback : (i + (j + capacity - i) % capacity) % capacity = j := by
      rw [Nat.add_mod_mod, Nat.add_sub_cancel' (by omega), Nat.add_mod_right, Nat.mod_eq_of_lt hj]
    have hfalse := probe_none h (Nat.mod_lt (j + capacity - i) (by omega)) hi
    rw [hback, hp] at hfalse
    cases hfalse

end Pnet.Lib
