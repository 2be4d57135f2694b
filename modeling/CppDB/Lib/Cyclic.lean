import Mathlib

/-! Walking round an array whose length is a power of two, where the index is
wrapped with a bit mask instead of a division. -/
namespace Cyclic

/-- The position reached from `start` after `i` steps. -/
def pos (n start i : Nat) : Nat := (start + i) % n

variable {n start i q : Nat}

theorem pos_lt (positive : 0 < n) : pos n start i < n := Nat.mod_lt _ positive

theorem pos_zero (inside : start < n) : pos n start 0 = start := by
  rw [pos, Nat.add_zero, Nat.mod_eq_of_lt inside]

theorem masked_lt (positive : 0 < n) (x : Nat) : x &&& (n - 1) < n := by
  have := Nat.and_le_right (n := x) (m := n - 1)
  omega

/-- The masked increment is the next position. -/
theorem masked_next (power : ∃ e, n = 2 ^ e) :
    (pos n start i + 1) &&& (n - 1) = pos n start (i + 1) := by
  obtain ⟨e, rfl⟩ := power
  rw [Nat.and_two_pow_sub_one_eq_mod, pos, pos, Nat.mod_add_mod, Nat.add_assoc]

/-- Every position is met within one round. -/
theorem exists_pos (inside : start < n) (there : q < n) : ∃ i < n, pos n start i = q := by
  rcases Nat.lt_or_ge q start with before | after
  · refine ⟨q + n - start, by omega, ?_⟩
    rw [pos, show start + (q + n - start) = q + n by omega, Nat.add_mod_right,
      Nat.mod_eq_of_lt there]
  · refine ⟨q - start, by omega, ?_⟩
    rw [pos, show start + (q - start) = q by omega, Nat.mod_eq_of_lt there]

end Cyclic
