import Divers.Library.CString
import Divers.Library.TableSearch

/-!
# Computations that read a memory

A reading is a result with the addresses of the bytes that were read for it, in their order.  It is
inside a range where all of these addresses are.  Strings are read up to the byte that decides: what
counts is whether the bytes up to the end of the range decide already.
-/

namespace Divers.Library

structure Reading (α : Type) where
  value : α
  reads : List ℕ

namespace Reading

variable {α β : Type} {m : Bytes} {lo hi a n : ℕ}

instance : Monad Reading where
  pure a := ⟨a, []⟩
  bind t f := ⟨(f t.value).value, t.reads ++ (f t.value).reads⟩

@[simp] theorem value_pure (x : α) : (pure x : Reading α).value = x := rfl

@[simp] theorem value_bind (t : Reading α) (f : α → Reading β) :
    (t >>= f).value = (f t.value).value := rfl

/-! ## Staying in a range -/

def Inside (t : Reading α) (lo hi : ℕ) : Prop := ∀ a ∈ t.reads, lo ≤ a ∧ a < hi

@[simp] theorem inside_pure (x : α) : (pure x : Reading α).Inside lo hi :=
  fun _ h ↦ absurd h List.not_mem_nil

@[simp] theorem inside_bind {t : Reading α} {f : α → Reading β} :
    (t >>= f).Inside lo hi ↔ t.Inside lo hi ∧ (f t.value).Inside lo hi :=
  List.forall_mem_append

/-! ## Numbers -/

def byte (m : Bytes) (a : ℕ) : Reading UInt8 := ⟨m a, [a]⟩

def load (m : Bytes) (a n : ℕ) : Reading ℕ := ⟨loadLE m a n, List.range' a n⟩

@[simp] theorem value_byte (m : Bytes) (a : ℕ) : (byte m a).value = m a := rfl

@[simp] theorem value_load (m : Bytes) (a n : ℕ) : (load m a n).value = loadLE m a n := rfl

theorem inside_byte (hlo : lo ≤ a) : (byte m a).Inside lo hi ↔ a < hi := by
  unfold Inside byte
  rw [List.forall_mem_singleton, and_iff_right hlo]

theorem inside_load (hlo : lo ≤ a) (hn : 0 < n) : (load m a n).Inside lo hi ↔ a + n ≤ hi := by
  unfold Inside load
  simp only [List.mem_range'_1]
  constructor
  · intro h
    have hlast := (h (a + n - 1) (by omega)).2
    omega
  · intro h x hx
    omega

/-! ## Strings -/

/-- The bytes from `a` up to `hi`. -/
def bytesUpTo (m : Bytes) (a hi : ℕ) : List UInt8 := (List.range (hi - a)).map fun k ↦ m (a + k)

theorem bytesUpTo_of_le (h : hi ≤ a) : bytesUpTo m a hi = [] := by
  rw [bytesUpTo, Nat.sub_eq_zero_of_le h]
  rfl

theorem bytesUpTo_of_lt (h : a < hi) : bytesUpTo m a hi = m a :: bytesUpTo m (a + 1) hi := by
  unfold bytesUpTo
  rw [show hi - a = hi - (a + 1) + 1 by omega, List.range_succ_eq_map, List.map_cons, List.map_map]
  congr 1
  apply List.map_congr_left
  intro k _
  show m (a + (k + 1)) = m (a + 1 + k)
  rw [Nat.add_assoc, Nat.add_comm 1 k]

/-- A string that ends before `hi` is shorter than the bytes up to there. -/
theorem holdsString_eq_false {s : List UInt8} (hs : 0 ∉ s) (hend : 0 ∈ bytesUpTo m a hi)
    (hlen : hi - a ≤ s.length) : Library.holdsString m a s = false := by
  obtain ⟨k, hk, hzero⟩ := List.mem_map.mp hend
  rw [List.mem_range] at hk
  rw [← Bool.not_eq_true]
  exact fun h ↦ byte_ne_zero hs h (by omega) hzero

def holdsString (m : Bytes) (a : ℕ) : List UInt8 → Reading Bool
  | [] => do return (← byte m a) == 0
  | c :: s => do
      if (← byte m a) == c then holdsString m (a + 1) s else return false

def strncpy (m : Bytes) : (n : ℕ) → ℕ → Reading { s : List UInt8 // s.length = n }
  | 0, _ => return ⟨[], rfl⟩
  | n + 1, a => do
      let c ← byte m a
      if c = 0 then return ⟨List.replicate (n + 1) 0, List.length_replicate⟩
      else
        let s ← strncpy m n (a + 1)
        return ⟨c :: s.val, congrArg (· + 1) s.property⟩

@[simp] theorem value_holdsString (m : Bytes) (a : ℕ) (s : List UInt8) :
    (holdsString m a s).value = Library.holdsString m a s := by
  induction s generalizing a with
  | nil => rfl
  | cons c s ih =>
      rw [holdsString, Library.holdsString, value_bind, value_byte, ← ih]
      cases m a == c <;> rfl

@[simp] theorem value_strncpy (m : Bytes) (n a : ℕ) :
    (strncpy m n a).value.val = Library.strncpy m n a := by
  induction n generalizing a with
  | zero => rfl
  | succ n ih =>
      rw [strncpy, Library.strncpy, value_bind, value_byte, ← ih]
      split <;> rfl

/-- A comparison goes past the range where its bytes up to there are the beginning of the string. -/
theorem inside_holdsString {s : List UInt8} (hlo : lo ≤ a) :
    (holdsString m a s).Inside lo hi ↔ ¬ bytesUpTo m a hi <+: s := by
  induction s generalizing a with
  | nil =>
      -- the byte that should be the NUL is read in any case
      rw [holdsString, inside_bind, inside_byte hlo, List.prefix_nil]
      by_cases ha : a < hi
      · rw [bytesUpTo_of_lt ha]
        simp [ha]
      · rw [bytesUpTo_of_le (Nat.le_of_not_lt ha)]
        simp [ha]
  | cons c s ih =>
      rw [holdsString, inside_bind, inside_byte hlo, value_byte]
      by_cases ha : a < hi
      · rw [bytesUpTo_of_lt ha, List.cons_prefix_cons, and_iff_right ha]
        split
        next h => rw [ih (by omega), and_iff_right (beq_iff_eq.mp h)]
        next h =>
          -- the comparison ends at the first difference
          rw [beq_iff_eq] at h
          simp [h]
      · rw [bytesUpTo_of_le (Nat.le_of_not_lt ha)]
        simp [ha]

theorem inside_strncpy (hlo : lo ≤ a) :
    (strncpy m n a).Inside lo hi ↔ n ≤ hi - a ∨ 0 ∈ bytesUpTo m a hi := by
  induction n generalizing a with
  | zero => exact iff_of_true (inside_pure _) (.inl (Nat.zero_le _))
  | succ n ih =>
      rw [strncpy, inside_bind, inside_byte hlo, value_byte]
      by_cases ha : a < hi
      · rw [bytesUpTo_of_lt ha, List.mem_cons, and_iff_right ha]
        split
        next h => simp [h]
        next h =>
          -- no NUL yet: one byte less is left to copy, in one byte less
          have hleft : n ≤ hi - (a + 1) ↔ n + 1 ≤ hi - a := by omega
          rw [inside_bind, ih (by omega), and_iff_left (inside_pure _), or_iff_right (Ne.symm h),
            hleft]
      · rw [bytesUpTo_of_le (Nat.le_of_not_lt ha)]
        refine iff_of_false (fun h ↦ ha h.1) fun h ↦ ?_
        obtain h | h := h
        · omega
        · cases h

/-! ## Tables of records -/

def scanRecords (p : ℕ → Reading Bool) (stride : ℕ) : ℕ → ℕ → Reading (Option ℕ)
  | 0, _ => return none
  | n + 1, a => do
      if ← p a then return some a else scanRecords p stride n (a + stride)

variable {p : ℕ → Reading Bool} {stride : ℕ}

@[simp] theorem value_scanRecords (p : ℕ → Reading Bool) (stride n a : ℕ) :
    (scanRecords p stride n a).value =
      (Library.scanRecords (fun r ↦ (p r).value) stride n a).1 := by
  induction n generalizing a with
  | zero => rfl
  | succ n ih =>
      rw [scanRecords, Library.scanRecords, value_bind]
      split
      next => rfl
      next => exact ih (a + stride)

/-- The records up to the first match are read. -/
theorem inside_scanRecords :
    (scanRecords p stride n a).Inside lo hi ↔
      ∀ j < n, NoneBefore (fun r ↦ (p r).value) stride a j → (p (a + stride * j)).Inside lo hi := by
  induction n generalizing a with
  | zero => exact iff_of_true (inside_pure _) fun j hj ↦ absurd hj (Nat.not_lt_zero j)
  | succ n ih =>
      rw [scanRecords, inside_bind, Nat.forall_lt_succ_left]
      simp only [noneBefore_zero, noneBefore_succ, record_succ, Nat.mul_zero, Nat.add_zero,
        true_implies]
      apply and_congr_right
      intro _
      by_cases ha : (p a).value = true
      · -- a match: the records behind it are not looked at
        simp [ha]
      · simp [ha, ih]

end Reading

end Divers.Library
