import Mathlib.Algebra.BigOperators.Group.Finset.Basic
import Mathlib.Algebra.Order.BigOperators.Group.Finset
import Mathlib.Algebra.Ring.Nat

/-! Sums over the indices below a bound, of which one summand changes. -/

namespace Divers.Library

variable {f g : ℕ → ℕ} {n i : ℕ}

/-- Only the summand at `i` changes. -/
theorem sum_range_change (hi : i < n) (hsame : ∀ j, j ≠ i → g j = f j) :
    ∑ j ∈ Finset.range n, g j + f i = ∑ j ∈ Finset.range n, f j + g i := by
  have hmem : i ∈ Finset.range n := Finset.mem_range.mpr hi
  have hrest : ∑ j ∈ (Finset.range n).erase i, g j = ∑ j ∈ (Finset.range n).erase i, f j :=
    Finset.sum_congr rfl fun j hj ↦ hsame j (Finset.ne_of_mem_erase hj)
  rw [← Finset.add_sum_erase _ g hmem, ← Finset.add_sum_erase _ f hmem, hrest]
  omega

/-- Every thread contributes the same. -/
theorem sum_range_const {c : ℕ} (hconst : ∀ j < n, f j = c) :
    ∑ j ∈ Finset.range n, f j = n * c := by
  rw [Finset.sum_congr rfl fun j hj ↦ hconst j (Finset.mem_range.mp hj), Finset.sum_const,
    Finset.card_range, Nat.nsmul_eq_mul]

/-- Every thread contributes at most one, and one of them nothing. -/
theorem sum_range_lt (hle : ∀ j < n, f j ≤ 1) (hi : i < n) (hzero : f i = 0) :
    ∑ j ∈ Finset.range n, f j < n := by
  calc ∑ j ∈ Finset.range n, f j < ∑ _j ∈ Finset.range n, 1 := by
        apply Finset.sum_lt_sum
        · intro j hj
          exact hle j (Finset.mem_range.mp hj)
        · exact ⟨i, Finset.mem_range.mpr hi, by omega⟩
    _ = n * 1 := sum_range_const fun _ _ ↦ rfl
    _ = n := Nat.mul_one n

end Divers.Library
