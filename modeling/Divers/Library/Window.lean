import Divers.Library.ByteMemory

/-!
# Windows on shared bytes

The same bytes can be mapped at several addresses.  `placeAt` is what is seen through the window at
`a`, with other memory around it, and `takeFrom` is what the bytes are after accesses through it.
Two windows that hold the same bytes answer loads alike and stay alike under stores.
-/

namespace Divers.Library

variable {n k o a b v : ℕ} {m m' bytes around : Bytes}

/-- The `n` bytes at `a` in `m` are those at `b` in `m'`. -/
def SameWindow (n : ℕ) (m : Bytes) (a : ℕ) (m' : Bytes) (b : ℕ) : Prop :=
  ∀ o, o < n → m (a + o) = m' (b + o)

def placeAt (n : ℕ) (bytes : Bytes) (a : ℕ) (around : Bytes) : Bytes :=
  fun x ↦ if a ≤ x ∧ x < a + n then bytes (x - a) else around x

def takeFrom (n : ℕ) (bytes : Bytes) (m : Bytes) (a : ℕ) : Bytes :=
  fun o ↦ if o < n then m (a + o) else bytes o

theorem placeAt_same (n : ℕ) (bytes : Bytes) (a : ℕ) (around : Bytes) :
    SameWindow n (placeAt n bytes a around) a bytes 0 := by
  intro o ho
  rw [placeAt, if_pos (by omega), Nat.add_sub_cancel_left, Nat.zero_add]

namespace SameWindow

theorem symm (h : SameWindow n m a m' b) : SameWindow n m' b m a := fun o ho ↦ (h o ho).symm

theorem trans {m'' : Bytes} {c : ℕ} (h : SameWindow n m a m' b) (h' : SameWindow n m' b m'' c) :
    SameWindow n m a m'' c := fun o ho ↦ (h o ho).trans (h' o ho)

theorem takeFrom (h : SameWindow n m a m' b) (bytes : Bytes) :
    takeFrom n bytes m a = takeFrom n bytes m' b := by
  funext o
  unfold Library.takeFrom
  split
  next ho => exact h o ho
  next => rfl

/-- Taking back what was placed changes nothing. -/
theorem takeFrom_self (h : SameWindow n m a bytes 0) : Library.takeFrom n bytes m a = bytes := by
  funext o
  unfold Library.takeFrom
  split
  next ho => rw [h o ho, Nat.zero_add]
  next => rfl

theorem of_takeFrom (n : ℕ) (bytes m : Bytes) (a : ℕ) :
    SameWindow n m a (Library.takeFrom n bytes m a) 0 := by
  intro o ho
  rw [Nat.zero_add, Library.takeFrom, if_pos ho]

theorem loadLE (h : SameWindow n m a m' b) (hok : o + k ≤ n) :
    loadLE m (a + o) k = loadLE m' (b + o) k := by
  induction k generalizing o with
  | zero => rfl
  | succ k ih =>
      rw [Library.loadLE, Library.loadLE, h o (by omega), Nat.add_assoc, Nat.add_assoc,
        ih (by omega)]

theorem storeLE (h : SameWindow n m a m' b) (o k v : ℕ) :
    SameWindow n (storeLE m (a + o) k v) a (storeLE m' (b + o) k v) b := by
  intro i hi
  unfold Library.storeLE
  by_cases hio : o ≤ i ∧ i < o + k
  · rw [if_pos (by omega), if_pos (by omega), Nat.add_sub_add_left, Nat.add_sub_add_left]
  · rw [if_neg (by omega), if_neg (by omega)]
    exact h i hi

end SameWindow

end Divers.Library
