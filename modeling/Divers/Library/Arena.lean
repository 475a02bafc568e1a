import Mathlib.Logic.Function.Basic
import Mathlib.Data.Nat.Init

/-!
# Arenas

A heap of records of one type.  An address names one allocation for ever: `alloc` hands out
addresses in increasing order, and `free` leaves a hole that is not filled again.
-/

namespace Divers.Library

structure Arena (α : Type*) where
  cell : ℕ → Option α
  brk : ℕ
  fresh : ∀ a, brk ≤ a → cell a = none

namespace Arena

variable {α : Type*}

def empty : Arena α := ⟨fun _ ↦ none, 0, fun _ _ ↦ rfl⟩

/-- The new record is at the old `brk`. -/
def alloc (A : Arena α) (v : α) : Arena α where
  cell := Function.update A.cell A.brk (some v)
  brk := A.brk + 1
  fresh a ha := by
    rw [Function.update_of_ne (by omega)]
    exact A.fresh a (by omega)

def free (A : Arena α) (a : ℕ) : Arena α where
  cell := Function.update A.cell a none
  brk := A.brk
  fresh b hb := by
    by_cases hba : b = a
    · rw [hba, Function.update_self]
    · rw [Function.update_of_ne hba]
      exact A.fresh b hb

/-- Overwrite a record; a store to an address that holds none is lost. -/
def store (A : Arena α) (a : ℕ) (v : α) : Arena α where
  cell := Function.update A.cell a ((A.cell a).map fun _ ↦ v)
  brk := A.brk
  fresh b hb := by
    by_cases hba : b = a
    · rw [hba, Function.update_self, A.fresh a (hba ▸ hb), Option.map_none]
    · rw [Function.update_of_ne hba]
      exact A.fresh b hb

variable {A : Arena α} {a b : ℕ} {v w : α}

theorem lt_brk (h : A.cell a = some v) : a < A.brk := by
  by_contra hle
  rw [A.fresh a (by omega)] at h
  cases h

theorem cell_brk : A.cell A.brk = none := A.fresh _ (Nat.le_refl _)

@[simp] theorem alloc_cell_brk : (A.alloc v).cell A.brk = some v := Function.update_self ..

/-- Allocation keeps every record. -/
theorem alloc_cell (h : A.cell a = some w) : (A.alloc v).cell a = some w := by
  have := lt_brk h
  show Function.update A.cell A.brk (some v) a = some w
  rwa [Function.update_of_ne (by omega)]

@[simp] theorem free_cell_self : (A.free a).cell a = none := Function.update_self ..

theorem free_cell_of_ne (h : b ≠ a) : (A.free a).cell b = A.cell b := Function.update_of_ne h ..

theorem store_cell_self (h : A.cell a = some w) : (A.store a v).cell a = some v := by
  show Function.update A.cell a ((A.cell a).map fun _ ↦ v) a = some v
  rw [Function.update_self, h, Option.map_some]

theorem store_cell_of_ne (h : b ≠ a) : (A.store a v).cell b = A.cell b :=
  Function.update_of_ne h ..

theorem alloc_isSome : ((A.alloc v).cell a).isSome ↔ a = A.brk ∨ (A.cell a).isSome := by
  show (Function.update A.cell A.brk (some v) a).isSome ↔ _
  by_cases ha : a = A.brk
  · simp [ha]
  · simp [ha]

theorem free_isSome : ((A.free b).cell a).isSome ↔ a ≠ b ∧ (A.cell a).isSome := by
  by_cases ha : a = b
  · simp [ha]
  · simp [free_cell_of_ne ha, ha]

/-- A store neither allocates nor frees. -/
theorem store_isSome : ((A.store b v).cell a).isSome ↔ (A.cell a).isSome := by
  by_cases ha : a = b
  · subst ha
    cases hcell : A.cell a with
    | none =>
        show (Function.update A.cell a ((A.cell a).map fun _ ↦ v) a).isSome ↔ _
        rw [Function.update_self, hcell]
        rfl
    | some w => simp [store_cell_self hcell]
  · rw [store_cell_of_ne ha]

/-- Giving back what was just allocated restores the records. -/
theorem free_alloc_cell : ((A.alloc v).free A.brk).cell = A.cell := by
  funext b
  by_cases hb : b = A.brk
  · rw [hb, free_cell_self, cell_brk]
  · rw [free_cell_of_ne hb]
    exact Function.update_of_ne hb ..

end Arena

end Divers.Library
