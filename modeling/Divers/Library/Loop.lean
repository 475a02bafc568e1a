import Mathlib.Logic.Function.Iterate
import Mathlib.Tactic.Common

/-!
# While loops

`whileLoop guard body fuel s` runs `while (guard s) s = body s` for at most `fuel` rounds; it is
`none` where they do not suffice.  `EndsAfter n s` says that the loop ends after exactly `n` rounds,
in the state `body^[n] s`; a loop that does not end is one with no such `n`.  What the rounds of a
loop do, whether it ends or not, is said of the states `RoundAt`.
-/

namespace Divers.Library

variable {σ : Type*} {guard : σ → Bool} {body : σ → σ} {s t : σ} {fuel n k : ℕ}

def whileLoop (guard : σ → Bool) (body : σ → σ) : ℕ → σ → Option σ
  | 0, s => if guard s then none else some s
  | fuel + 1, s => if guard s then whileLoop guard body fuel (body s) else some s

structure EndsAfter (guard : σ → Bool) (body : σ → σ) (n : ℕ) (s : σ) : Prop where
  goesOn : ∀ k < n, guard (body^[k] s) = true
  ends : guard (body^[n] s) = false

/-- A round begins in the state `t`. -/
def RoundAt (guard : σ → Bool) (body : σ → σ) (s t : σ) : Prop :=
  ∃ k, (∀ j ≤ k, guard (body^[j] s) = true) ∧ t = body^[k] s

theorem EndsAfter.zero (h : guard s = false) : EndsAfter guard body 0 s :=
  ⟨fun k hk ↦ absurd hk (Nat.not_lt_zero k), h⟩

theorem endsAfter_succ :
    EndsAfter guard body (n + 1) s ↔ guard s = true ∧ EndsAfter guard body n (body s) := by
  constructor
  · intro h
    exact ⟨h.goesOn 0 (by omega), fun k hk ↦ h.goesOn (k + 1) (by omega), h.ends⟩
  · intro h
    refine ⟨fun k hk ↦ ?_, h.2.ends⟩
    cases k with
    | zero => exact h.1
    | succ k => exact h.2.goesOn k (by omega)

/-- Enough fuel runs the loop to its end. -/
theorem EndsAfter.whileLoop (h : EndsAfter guard body n s) (hfuel : n ≤ fuel) :
    whileLoop guard body fuel s = some (body^[n] s) := by
  induction n generalizing s fuel with
  | zero =>
      have hs : guard s = false := h.ends
      cases fuel <;> simp [Library.whileLoop, hs]
  | succ n ih =>
      have hrest := endsAfter_succ.mp h
      cases fuel with
      | zero => omega
      | succ fuel =>
          rw [Library.whileLoop, if_pos hrest.1]
          exact ih hrest.2 (by omega)

/-- A loop whose guard fails in some round ends by then. -/
theorem exists_endsAfter (h : guard (body^[n] s) = false) :
    ∃ k ≤ n, EndsAfter guard body k s := by
  induction n generalizing s with
  | zero => exact ⟨0, Nat.le_refl 0, .zero h⟩
  | succ n ih =>
      by_cases hs : guard s = true
      · obtain ⟨k, hk, hends⟩ := ih h
        exact ⟨k + 1, by omega, endsAfter_succ.mpr ⟨hs, hends⟩⟩
      · exact ⟨0, by omega, .zero (by simpa using hs)⟩

end Divers.Library
