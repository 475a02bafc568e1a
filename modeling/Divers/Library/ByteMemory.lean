import Mathlib.Algebra.Order.Group.Nat
import Mathlib.Logic.Function.Basic
import Mathlib.Tactic.Ring

/-!
# Flat byte memory

Memory is a map from addresses to bytes.  An `n`-byte number is stored little-endian in the window
`[a, a + n)`.  A store changes its window and nothing else, and a load depends on its window and
nothing else: every frame fact used elsewhere is an instance of these two.
-/

namespace Divers.Library

abbrev Bytes := ℕ → UInt8

/-- The little-endian number in the window `[a, a + n)`. -/
def loadLE (m : Bytes) (a : ℕ) : ℕ → ℕ
  | 0 => 0
  | n + 1 => (m a).toNat + 256 * loadLE m (a + 1) n

/-- Store `v` little-endian in the window `[a, a + n)`. -/
def storeLE (m : Bytes) (a n v : ℕ) : Bytes :=
  fun x ↦ if a ≤ x ∧ x < a + n then UInt8.ofNat (v / 256 ^ (x - a)) else m x

theorem storeLE_outside (m : Bytes) {a n v x : ℕ} (h : x < a ∨ a + n ≤ x) :
    storeLE m a n v x = m x := by
  rw [storeLE, if_neg (by omega)]

theorem loadLE_congr {m m' : Bytes} {a n : ℕ} (h : ∀ x, a ≤ x → x < a + n → m x = m' x) :
    loadLE m a n = loadLE m' a n := by
  induction n generalizing a with
  | zero => rfl
  | succ n ih =>
      rw [loadLE, loadLE, h a (Nat.le_refl a) (by omega),
        ih fun x hlo hhi ↦ h x (by omega) (by omega)]

theorem loadLE_lt (m : Bytes) (a n : ℕ) : loadLE m a n < 256 ^ n := by
  induction n generalizing a with
  | zero => simp [loadLE]
  | succ n ih =>
      have hbyte := (m a).toNat_lt
      have hrest := ih (a + 1)
      rw [loadLE, Nat.pow_succ]
      omega

/-- A window whose bytes are the base-256 digits of `v` loads as `v`. -/
theorem loadLE_of_digits {m : Bytes} {a n v : ℕ} (hv : v < 256 ^ n)
    (h : ∀ k, k < n → m (a + k) = UInt8.ofNat (v / 256 ^ k)) : loadLE m a n = v := by
  induction n generalizing a v with
  | zero =>
      rw [Nat.pow_zero] at hv
      rw [loadLE]
      omega
  | succ n ih =>
      have hhead := h 0 (Nat.succ_pos n)
      rw [Nat.pow_zero, Nat.div_one, Nat.add_zero] at hhead
      have hrest : loadLE m (a + 1) n = v / 256 := by
        apply ih
        · rw [Nat.div_lt_iff_lt_mul (by decide), ← Nat.pow_succ]
          exact hv
        · intro k hk
          rw [show a + 1 + k = a + (k + 1) by omega, h (k + 1) (by omega), Nat.pow_succ',
            Nat.div_div_eq_div_mul]
      rw [loadLE, hhead, hrest, UInt8.toNat_ofNat']
      omega

theorem loadLE_storeLE_same (m : Bytes) {a n v : ℕ} (hv : v < 256 ^ n) :
    loadLE (storeLE m a n v) a n = v := by
  apply loadLE_of_digits hv
  intro k hk
  rw [storeLE, if_pos (by omega), Nat.add_sub_cancel_left]

theorem loadLE_storeLE_disjoint (m : Bytes) {a n b k v : ℕ} (h : a + n ≤ b ∨ b + k ≤ a) :
    loadLE (storeLE m b k v) a n = loadLE m a n :=
  loadLE_congr fun _ hlo hhi ↦ storeLE_outside m (by omega)

theorem storeLE_inside (m : Bytes) {a n v x : ℕ} (h : a ≤ x ∧ x < a + n) :
    storeLE m a n v x = UInt8.ofNat (v / 256 ^ (x - a)) :=
  if_pos h

/-- The later of two stores in one window wins. -/
theorem storeLE_storeLE_same (m : Bytes) (a n v w : ℕ) :
    storeLE (storeLE m a n v) a n w = storeLE m a n w := by
  funext x
  by_cases hx : a ≤ x ∧ x < a + n
  · rw [storeLE_inside _ hx, storeLE_inside _ hx]
  · rw [storeLE_outside _ (by omega), storeLE_outside _ (by omega), storeLE_outside _ (by omega)]

theorem storeLE_comm (m : Bytes) {a n b k : ℕ} (h : a + n ≤ b ∨ b + k ≤ a) (v w : ℕ) :
    storeLE (storeLE m a n v) b k w = storeLE (storeLE m b k w) a n v := by
  funext x
  by_cases hx : a ≤ x ∧ x < a + n
  · rw [storeLE_outside _ (by omega), storeLE_inside _ hx, storeLE_inside _ hx]
  · have hout : x < a ∨ a + n ≤ x := by omega
    rw [storeLE_outside _ hout]
    by_cases hy : b ≤ x ∧ x < b + k
    · rw [storeLE_inside _ hy, storeLE_inside _ hy]
    · rw [storeLE_outside _ (by omega), storeLE_outside _ hout, storeLE_outside _ (by omega)]

/-! ### One number in several windows -/

/-- Store `v` in the windows at these addresses, one after the other. -/
def storeEach (m : Bytes) (n v : ℕ) (l : List ℕ) : Bytes := l.foldl (fun m a ↦ storeLE m a n v) m

theorem storeEach_outside (m : Bytes) {n v x : ℕ} {l : List ℕ}
    (h : ∀ a ∈ l, x < a ∨ a + n ≤ x) : storeEach m n v l x = m x := by
  induction l generalizing m with
  | nil => rfl
  | cons a l ih =>
      have hrest := ih (storeLE m a n v) fun b hb ↦ h b (List.mem_cons_of_mem a hb)
      exact hrest.trans (storeLE_outside m (h a List.mem_cons_self))

/-- A window that overlaps no other one in part holds the number. -/
theorem loadLE_storeEach (m : Bytes) {a n v : ℕ} {l : List ℕ} (hv : v < 256 ^ n) (ha : a ∈ l)
    (hapart : ∀ b ∈ l, b = a ∨ a + n ≤ b ∨ b + n ≤ a) : loadLE (storeEach m n v l) a n = v := by
  induction l generalizing m with
  | nil => cases ha
  | cons b l ih =>
      have hrest := fun c hc ↦ hapart c (List.mem_cons_of_mem b hc)
      by_cases hal : a ∈ l
      · exact ih (storeLE m b n v) hal hrest
      · -- the first store is the only one there
        have hab : a = b := (List.mem_cons.mp ha).resolve_right hal
        subst hab
        have hkeep : loadLE (storeEach (storeLE m a n v) n v l) a n =
            loadLE (storeLE m a n v) a n := by
          refine loadLE_congr fun x hlo hhi ↦ storeEach_outside _ fun c hc ↦ ?_
          rcases hrest c hc with rfl | hout
          · exact absurd hc hal
          · omega
        exact hkeep.trans (loadLE_storeLE_same m hv)

/-! ### Copies -/

/-- `m` with the window `[a, a + n)` taken from `m'` at `b`. -/
def copied (m : Bytes) (a : ℕ) (m' : Bytes) (b n : ℕ) : Bytes :=
  fun x ↦ if a ≤ x ∧ x < a + n then m' (b + (x - a)) else m x

@[simp] theorem copied_zero (m : Bytes) (a : ℕ) (m' : Bytes) (b : ℕ) : copied m a m' b 0 = m := by
  funext x
  rw [copied, if_neg (by omega)]

theorem copied_copied (m : Bytes) (a : ℕ) (m' : Bytes) (b n k : ℕ) :
    copied (copied m a m' b n) (a + n) m' (b + n) k = copied m a m' b (n + k) := by
  funext x
  unfold copied
  by_cases hlow : a ≤ x ∧ x < a + n
  · rw [if_neg (by omega), if_pos hlow, if_pos (by omega)]
  · by_cases hhigh : a + n ≤ x ∧ x < a + n + k
    · rw [if_pos hhigh, if_pos (by omega)]
      congr 1
      omega
    · rw [if_neg hhigh, if_neg hlow, if_neg (by omega)]

/-- The digits of a loaded number are the bytes that it was loaded from. -/
theorem digit_loadLE (m : Bytes) {a n k : ℕ} (hk : k < n) :
    UInt8.ofNat (loadLE m a n / 256 ^ k) = m (a + k) := by
  induction n generalizing a k with
  | zero => exact absurd hk (Nat.not_lt_zero k)
  | succ n ih =>
      have hbyte := (m a).toNat_lt
      rw [loadLE]
      cases k with
      | zero =>
          rw [Nat.pow_zero, Nat.div_one, show m (a + 0) = m a from rfl]
          apply UInt8.toNat_inj.mp
          rw [UInt8.toNat_ofNat']
          omega
      | succ k =>
          rw [Nat.pow_succ', ← Nat.div_div_eq_div_mul,
            show ((m a).toNat + 256 * loadLE m (a + 1) n) / 256 = loadLE m (a + 1) n by omega,
            ih (by omega), show a + 1 + k = a + (k + 1) by omega]

theorem storeLE_loadLE (m : Bytes) (a : ℕ) (m' : Bytes) (b n : ℕ) :
    storeLE m a n (loadLE m' b n) = copied m a m' b n := by
  funext x
  unfold storeLE copied
  by_cases hx : a ≤ x ∧ x < a + n
  · rw [if_pos hx, if_pos hx, digit_loadLE m' (by omega)]
  · rw [if_neg hx, if_neg hx]

theorem storeLE_loadLE_self (m : Bytes) (a n : ℕ) : storeLE m a n (loadLE m a n) = m := by
  funext x
  rw [storeLE_loadLE, copied]
  split
  next hx => congr 1; omega
  next => rfl

/-! ### Memory given by lists of bytes -/

/-- The byte at `x`, where each list lies at its offset and zeros lie in between. -/
def chunkByte : List (ℕ × List UInt8) → ℕ → UInt8
  | [], _ => 0
  | (o, l) :: rest, x =>
      if o ≤ x ∧ x < o + l.length then l.getD (x - o) 0 else chunkByte rest x

/-- An image at `base` in zeroed memory. -/
def placed (base : ℕ) (chunks : List (ℕ × List UInt8)) : Bytes :=
  fun x ↦ if base ≤ x then chunkByte chunks (x - base) else 0

/-- `v` in `n` little-endian bytes. -/
def bytesLE : ℕ → ℕ → List UInt8
  | 0, _ => []
  | n + 1, v => UInt8.ofNat v :: bytesLE n (v / 256)

end Divers.Library
