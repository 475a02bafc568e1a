import Mathlib.Algebra.Order.Group.Nat
import Mathlib.Order.Bounds.Defs
import Mathlib.Tactic.Ring

/-!
# Rounding up to a multiple

`pad x y` is what is missing from `x` up to the next multiple of `y`, and `roundUp x y` that
multiple.  A zero `y` asks for no alignment.  The last section ties the usual bit mask
`n &&& ~(2 ^ k - 1)` on `w`-bit words to division.
-/

namespace Divers.Library

def pad (x y : ℕ) : ℕ := (y - x % y) % y

def roundUp (x y : ℕ) : ℕ := x + pad x y

@[simp] theorem pad_zero (x : ℕ) : pad x 0 = 0 := by simp [pad]

@[simp] theorem pad_one (x : ℕ) : pad x 1 = 0 := by simp [pad, Nat.mod_one]

theorem pad_lt (x : ℕ) {y : ℕ} (hy : 0 < y) : pad x y < y := Nat.mod_lt _ hy

theorem le_roundUp (x y : ℕ) : x ≤ roundUp x y := Nat.le_add_right _ _

theorem roundUp_lt (x : ℕ) {y : ℕ} (hy : 0 < y) : roundUp x y < x + y :=
  Nat.add_lt_add_left (pad_lt x hy) x

theorem pad_of_dvd {x y : ℕ} (h : y ∣ x) : pad x y = 0 := by
  rw [pad, Nat.mod_eq_zero_of_dvd h, Nat.sub_zero, Nat.mod_self]

theorem pad_of_not_dvd {x y : ℕ} (hy : 0 < y) (h : ¬ y ∣ x) : pad x y = y - x % y := by
  have hmod : x % y ≠ 0 := fun hz ↦ h (Nat.dvd_of_mod_eq_zero hz)
  exact Nat.mod_eq_of_lt (by omega)

theorem dvd_roundUp (x : ℕ) {y : ℕ} (hy : 0 < y) : y ∣ roundUp x y := by
  by_cases h : y ∣ x
  · rwa [roundUp, pad_of_dvd h]
  · have hlt := Nat.mod_lt x hy
    have hdiv := Nat.div_add_mod x y
    refine ⟨x / y + 1, ?_⟩
    rw [roundUp, pad_of_not_dvd hy h, Nat.mul_add, Nat.mul_one]
    omega

theorem roundUp_of_dvd {x y : ℕ} (h : y ∣ x) : roundUp x y = x := by
  rw [roundUp, pad_of_dvd h, Nat.add_zero]

/-- `roundUp x y` is the least multiple of `y` from `x` on. -/
theorem roundUp_le_of_dvd {x y z : ℕ} (hy : 0 < y) (hle : x ≤ z) (hdvd : y ∣ z) :
    roundUp x y ≤ z := by
  by_contra hlt
  rcases (Nat.dvd_sub (dvd_roundUp x hy) hdvd) with ⟨k, hk⟩
  have hbound := roundUp_lt x hy
  have hpos : 0 < k := by
    by_contra hz
    rw [Nat.eq_zero_of_not_pos hz, Nat.mul_zero] at hk
    omega
  have := Nat.le_mul_of_pos_right y hpos
  omega

theorem isLeast_roundUp (x : ℕ) {y : ℕ} (hy : 0 < y) :
    IsLeast {z | y ∣ z ∧ x ≤ z} (roundUp x y) :=
  ⟨⟨dvd_roundUp x hy, le_roundUp x y⟩, fun _ hz ↦ roundUp_le_of_dvd hy hz.2 hz.1⟩

/-- The powers of two from `2 ^ j` on that are multiples of `2 ^ k`. -/
theorem isLeast_two_pow (j k : ℕ) :
    IsLeast {z | (∃ i, z = 2 ^ i) ∧ 2 ^ j ≤ z ∧ 2 ^ k ∣ z} (max (2 ^ j) (2 ^ k)) := by
  obtain hjk | hkj := Nat.le_total j k
  · rw [max_eq_right (Nat.pow_le_pow_right (by decide) hjk)]
    exact ⟨⟨⟨k, rfl⟩, Nat.pow_le_pow_right (by decide) hjk, dvd_rfl⟩,
      fun _ hz ↦ hz.1.elim fun i hi ↦ Nat.le_of_dvd (hi ▸ Nat.two_pow_pos i) hz.2.2⟩
  · rw [max_eq_left (Nat.pow_le_pow_right (by decide) hkj)]
    exact ⟨⟨⟨j, rfl⟩, Nat.le_refl _, pow_dvd_pow 2 hkj⟩, fun _ hz ↦ hz.2.1⟩

theorem pad_add_of_dvd (x : ℕ) {k y : ℕ} (h : y ∣ k) : pad (x + k) y = pad x y := by
  rcases h with ⟨c, rfl⟩
  rw [pad, pad, Nat.add_mul_mod_self_left]

theorem roundUp_add_of_dvd (x : ℕ) {k y : ℕ} (h : y ∣ k) :
    roundUp (x + k) y = roundUp x y + k := by
  rw [roundUp, roundUp, pad_add_of_dvd x h]
  omega

/-- The rounding idiom of C code: the last multiple of `y` up to `x + y - 1`. -/
theorem roundUp_eq_sub_mod (x : ℕ) {y : ℕ} (hy : 0 < y) :
    roundUp x y = (x + y - 1) - (x + y - 1) % y := by
  apply Nat.le_antisymm
  · apply roundUp_le_of_dvd hy
    · have := Nat.mod_lt (x + y - 1) hy
      omega
    · exact Nat.dvd_sub_mod _
  · have hle : (x + y - 1) / y * y ≤ roundUp x y := by
      rcases dvd_roundUp x hy with ⟨c, hc⟩
      rw [hc, Nat.mul_comm]
      apply Nat.mul_le_mul_left
      apply Nat.le_of_lt_succ
      rw [Nat.div_lt_iff_lt_mul hy, Nat.succ_mul, Nat.mul_comm c, ← hc]
      have := le_roundUp x y
      omega
    have := Nat.div_add_mod (x + y - 1) y
    rw [Nat.mul_comm] at hle
    omega

/-! ### Masks -/

/-- Clearing the low `k` bits of a `w`-bit word rounds it down to a multiple of `2 ^ k`. -/
theorem and_not_mask {n w k : ℕ} (hn : n < 2 ^ w) :
    n &&& (2 ^ w - 1 - (2 ^ k - 1)) = n - n % 2 ^ k := by
  have hsub : n - n % 2 ^ k = n / 2 ^ k * 2 ^ k := by
    have := Nat.div_add_mod n (2 ^ k)
    rw [Nat.mul_comm] at this
    omega
  by_cases hk : k ≤ w
  · have hpow : 2 ^ k - 1 < 2 ^ w := by
      have := Nat.pow_le_pow_right (Nat.zero_lt_two) hk
      have := Nat.two_pow_pos k
      omega
    rw [hsub]
    apply Nat.eq_of_testBit_eq
    intro i
    rw [Nat.testBit_and, show 2 ^ w - 1 - (2 ^ k - 1) = 2 ^ w - (2 ^ k - 1 + 1) by omega,
      Nat.testBit_two_pow_sub_succ hpow, Nat.testBit_two_pow_sub_one, Nat.testBit_mul_two_pow]
    by_cases hik : i < k
    · simp [hik, Nat.not_le.mpr hik]
    · rw [Nat.testBit_div_two_pow, Nat.sub_add_cancel (Nat.le_of_not_lt hik)]
      by_cases hiw : i < w
      · simp [hik, hiw, Nat.le_of_not_lt hik]
      · have hbit : n.testBit i = false :=
          Nat.testBit_lt_two_pow (Nat.lt_of_lt_of_le hn
            (Nat.pow_le_pow_right Nat.zero_lt_two (Nat.le_of_not_lt hiw)))
        simp [hbit]
  · have hbig : 2 ^ w ≤ 2 ^ k := Nat.pow_le_pow_right Nat.zero_lt_two (Nat.le_of_not_le hk)
    rw [Nat.mod_eq_of_lt (Nat.lt_of_lt_of_le hn hbig),
      show 2 ^ w - 1 - (2 ^ k - 1) = 0 by omega, Nat.and_zero, Nat.sub_self]

end Divers.Library
