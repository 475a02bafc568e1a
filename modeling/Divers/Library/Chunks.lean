import Mathlib.Algebra.GroupWithZero.Nat
import Mathlib.Data.List.Range

/-! Reading a list in chunks of at most `size` elements. -/

namespace Divers.Library

variable {α : Type*} (l : List α) (size : ℕ)

def chunk (t : ℕ) : List α := (l.drop (t * size)).take size

theorem chunk_length (t : ℕ) : (chunk l size t).length = min size (l.length - t * size) := by
  unfold chunk
  rw [List.length_take, List.length_drop]

theorem take_append_chunk (t : ℕ) :
    l.take (t * size) ++ chunk l size t = l.take ((t + 1) * size) := by
  unfold chunk
  rw [Nat.succ_mul, List.take_add]

/-- The chunks before the `n`-th are the first `n * size` elements. -/
theorem chunks_length_sum (n : ℕ) :
    ((List.range n).map fun t ↦ (chunk l size t).length).sum = min (n * size) l.length := by
  induction n with
  | zero => simp
  | succ n ih =>
      rw [List.range_succ, List.map_append, List.sum_append, ih, List.map_singleton,
        List.sum_singleton, chunk_length, Nat.succ_mul]
      omega

/-- Reading on from there gives the `n`-th chunk. -/
theorem chunk_eq_drop_min (n : ℕ) :
    (l.drop (min (n * size) l.length)).take size = chunk l size n := by
  unfold chunk
  rcases Nat.le_total (n * size) l.length with hle | hge
  · rw [Nat.min_eq_left hle]
  · rw [Nat.min_eq_right hge, List.drop_length, List.drop_eq_nil_of_le hge]

/-- A chunk is full exactly when the list goes on to its end. -/
theorem chunk_length_lt {t : ℕ} (ht : t * size ≤ l.length) :
    (chunk l size t).length < size ↔ l.length < (t + 1) * size := by
  rw [chunk_length, Nat.succ_mul]
  omega

end Divers.Library
