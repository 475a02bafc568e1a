import Divers.HeapPool.Model
import Divers.Library.RoundUp

/-!
# The sizes of a pool, in exact integers

What `heap_pool_create` computes in wrapping 64-bit words equals, for every request that does not
wrap, the exact integers defined here from the request alone.
-/

open Divers.Library

namespace Divers.HeapPool

/-! ## Exact sizes -/

/-- Alignment of the first chunk: the requested one, but at least a word. -/
def exactAlignment (a : ℕ) : ℕ := max 8 a

/-- The header word and the padding that makes the distance between chunks a multiple of `a`. -/
def exactHole (size a : ℕ) : ℕ := 8 + pad (size + 8) a

/-- Distance between two chunks. -/
def exactStride (size a : ℕ) : ℕ := size + exactHole size a

/-- The bytes asked for before they are rounded up to whole pages. -/
def exactNeed (nb size a : ℕ) : ℕ :=
  72 + exactAlignment a - exactHole size a + nb * (8 + exactStride size a)

/-- A page size is a power of two that holds a word. -/
structure PageSize where
  bytes : SizeT
  shift : ℕ
  word_le : 3 ≤ shift
  bytes_eq : bytes.toNat = 2 ^ shift

def pageSize4k : PageSize := ⟨4096, 12, by decide, rfl⟩

/-- The length that is mapped: the byte count in whole pages, modulo the word size. -/
def mappedLength (page : PageSize) (nb size a : SizeT) : ℕ :=
  roundUp (exactNeed nb.toNat size.toNat a.toNat) page.bytes.toNat % 2 ^ 64

/-- What one chunk costs does not wrap, and the mapping holds the descriptor and one alignment. -/
def WellSized (page : PageSize) (nb size a : SizeT) : Prop :=
  8 + exactStride size.toNat a.toNat < 2 ^ 64 ∧
    exactAlignment a.toNat + 72 ≤ mappedLength page nb size a

/-- The alignments that `heap_pool_create` does not refuse. -/
def Accepted (_align : SizeT) : Prop := _align ≠ 0 → isPowerOfTwo _align = true

/-- A request that `heap_pool_create` accepts and whose size computations do not wrap. -/
structure Request (page : PageSize) where
  nb : SizeT
  size : SizeT
  alignment : SizeT
  nb_pos : 0 < nb.toNat
  accepted : alignment ≠ 0 → isPowerOfTwo alignment = true
  fits : exactNeed nb.toNat size.toNat alignment.toNat + page.bytes.toNat ≤ 2 ^ 64

namespace Request

variable {page : PageSize} (r : Request page)

def align : ℕ := exactAlignment r.alignment.toNat
def hole : ℕ := exactHole r.size.toNat r.alignment.toNat
def stride : ℕ := exactStride r.size.toNat r.alignment.toNat
def need : ℕ := exactNeed r.nb.toNat r.size.toNat r.alignment.toNat

/-- The bytes that page rounding adds to the request. -/
def slack : ℕ := pad r.need page.bytes.toNat

def allocsize : ℕ := r.need + r.slack

/-- The number of chunks the pool gets: `hpd_nrel`. -/
def nrel : ℕ := (r.allocsize - r.align - 72) / (8 + r.stride)

end Request

/-- What a well-sized pool is laid out from, once it is mapped. -/
structure Sizing where
  size : SizeT
  alignment : SizeT
  allocsize : ℕ
  accepted : Accepted alignment
  unit_lt : 8 + exactStride size.toNat alignment.toNat < 2 ^ 64
  room : exactAlignment alignment.toNat + 72 ≤ allocsize
  allocsize_lt : allocsize < 2 ^ 64

namespace Sizing

variable (s : Sizing)

def align : ℕ := exactAlignment s.alignment.toNat
def hole : ℕ := exactHole s.size.toNat s.alignment.toNat
def stride : ℕ := exactStride s.size.toNat s.alignment.toNat

/-- The number of chunks the pool gets: `hpd_nrel`. -/
def nrel : ℕ := (s.allocsize - s.align - 72) / (8 + s.stride)

end Sizing

/-! ## 64-bit words -/

theorem isPowerOfTwo_iff {a : SizeT} (ha : a ≠ 0) :
    isPowerOfTwo a = true ↔ ∃ k, a.toNat = 2 ^ k := by
  have hpos : a.toNat ≠ 0 := fun h ↦ ha (UInt64.toNat_inj.mp h)
  have hmask : (a &&& (a - 1)) = 0 ↔ a.toNat.isPowerOfTwo := by
    rw [← Nat.and_sub_one_eq_zero_iff_isPowerOfTwo hpos, ← UInt64.toNat_inj, UInt64.toNat_and,
      toNat_sub_one (Nat.pos_of_ne_zero hpos), UInt64.toNat_zero]
  rw [isPowerOfTwo, Bool.or_eq_true, beq_iff_eq, beq_iff_eq, hmask]
  constructor
  · intro heither
    obtain rfl | h := heither
    · exact ⟨0, rfl⟩
    · exact h
  · exact Or.inr

/-- `__ALIGN` clears the low bits of its sum. -/
theorem align_toNat_eq {x y : SizeT} {k : ℕ} (hy : y.toNat = 2 ^ k) :
    (align x y).toNat = (x + y - 1).toNat - (x + y - 1).toNat % y.toNat := by
  have hypos : 0 < y.toNat := hy ▸ Nat.two_pow_pos k
  have hmask : (y - 1).toNat = 2 ^ k - 1 := by rw [toNat_sub_one hypos, hy]
  rw [align, UInt64.toNat_and, UInt64.toNat_not, hmask, hy,
    ← and_not_mask (w := 64) (x + y - 1).toNat_lt]
  rfl

theorem alignSum_toNat (x y : SizeT) :
    (x + y - 1).toNat = (x.toNat + y.toNat + (2 ^ 64 - 1)) % 2 ^ 64 := by
  rw [UInt64.toNat_sub, UInt64.toNat_add, UInt64.toNat_one]
  omega

/-- `__ALIGN` rounds up to a multiple of a power of two, as long as the sum does not wrap. -/
theorem align_toNat {x y : SizeT} {k : ℕ} (hy : y.toNat = 2 ^ k)
    (hfit : x.toNat + y.toNat ≤ 2 ^ 64) : (align x y).toNat = roundUp x.toNat y.toNat := by
  have hypos : 0 < y.toNat := hy ▸ Nat.two_pow_pos k
  have hsum : (x + y - 1).toNat = x.toNat + y.toNat - 1 := by
    rw [alignSum_toNat]
    omega
  rw [align_toNat_eq hy, hsum, roundUp_eq_sub_mod _ hypos]

theorem two_pow_dvd_word {y : SizeT} {k : ℕ} (hy : y.toNat = 2 ^ k) : y.toNat ∣ 2 ^ 64 := by
  have hlt := y.toNat_lt
  rw [hy, Nat.pow_lt_pow_iff_right (by decide)] at hlt
  rw [hy]
  exact pow_dvd_pow 2 (Nat.le_of_lt hlt)

/-- In general it rounds up modulo the word size: the multiple is `2 ^ 64` when the sum wraps. -/
theorem align_toNat_mod {x y : SizeT} {k : ℕ} (hy : y.toNat = 2 ^ k) :
    (align x y).toNat = roundUp x.toNat y.toNat % 2 ^ 64 := by
  have hypos : 0 < y.toNat := hy ▸ Nat.two_pow_pos k
  have hxlt := x.toNat_lt
  by_cases hfit : x.toNat + y.toNat ≤ 2 ^ 64
  · have hlt := roundUp_lt x.toNat hypos
    rw [align_toNat hy hfit, Nat.mod_eq_of_lt (by omega)]
  · -- the sum wraps to less than `y`, and masking leaves nothing
    have hword := two_pow_dvd_word hy
    have hsum : (x + y - 1).toNat = x.toNat + y.toNat - 1 - 2 ^ 64 := by
      rw [alignSum_toNat]
      have := y.toNat_lt
      omega
    have hmultiple : roundUp x.toNat y.toNat = 2 ^ 64 := by
      have hle := roundUp_le_of_dvd hypos (Nat.le_of_lt hxlt) hword
      have hge := le_roundUp x.toNat y.toNat
      obtain ⟨c, hc⟩ := Nat.dvd_sub hword (dvd_roundUp x.toNat hypos)
      have hzero : c = 0 := by
        by_contra hne
        have := Nat.le_mul_of_pos_right y.toNat (Nat.pos_of_ne_zero hne)
        omega
      rw [hzero, Nat.mul_zero] at hc
      omega
    have hsmall : (x + y - 1).toNat < y.toNat := by
      rw [hsum]
      omega
    rw [align_toNat_eq hy, hmultiple, Nat.mod_eq_of_lt hsmall, Nat.sub_self, Nat.mod_self]

theorem computeNewAlignment_toNat {a : SizeT} {k : ℕ} (ha : a.toNat = 2 ^ k) :
    (computeNewAlignment a).toNat = max 8 a.toNat := by
  rw [computeNewAlignment]
  split
  next hlt =>
    -- below a word: the word size is already a multiple of the requested alignment
    have hlt : a.toNat < 8 := hlt
    have hword : (a + (sizeofSizeT - a)).toNat = 8 := by
      have hsub : (sizeofSizeT - a).toNat = 8 - a.toNat := toNat_sub_of_le (Nat.le_of_lt hlt)
      rw [toNat_add_of_lt (by omega), hsub]
      omega
    have hk : k ≤ 3 := by
      rw [ha, show 8 = 2 ^ 3 from rfl, Nat.pow_lt_pow_iff_right (by decide)] at hlt
      omega
    rw [align_toNat ha (by omega), hword, roundUp_of_dvd (ha ▸ pow_dvd_pow 2 (n := 3) hk)]
    omega
  next hge =>
    have hge : ¬ a.toNat < 8 := hge
    omega

theorem chunksize_eq (size : SizeT) : size + chunkExtraSize = size := by
  rw [← UInt64.toNat_inj, UInt64.toNat_add, chunkExtraSize_toNat, Nat.add_zero,
    Nat.mod_eq_of_lt size.toNat_lt]

theorem PageSize.bytes_pos (page : PageSize) : 0 < page.bytes.toNat :=
  page.bytes_eq ▸ Nat.two_pow_pos _

theorem PageSize.eight_dvd (page : PageSize) : 8 ∣ page.bytes.toNat :=
  page.bytes_eq ▸ pow_dvd_pow 2 page.word_le

/-! ## The exact sizes are what the code computes -/

theorem eight_le_exactAlignment (a : ℕ) : 8 ≤ exactAlignment a := Nat.le_max_left _ _

theorem le_exactAlignment (a : ℕ) : a ≤ exactAlignment a := Nat.le_max_right _ _

theorem eight_le_exactHole (size a : ℕ) : 8 ≤ exactHole size a := Nat.le_add_right _ _

theorem exactHole_lt (size a : ℕ) : exactHole size a < 8 + exactAlignment a := by
  have halign := le_exactAlignment a
  have hword := eight_le_exactAlignment a
  obtain rfl | h := Nat.eq_zero_or_pos a
  · rw [exactHole, pad_zero]; omega
  · have := pad_lt (size + 8) h
    rw [exactHole]; omega

theorem exactNeed_add_hole (nb size a : ℕ) :
    exactNeed nb size a + exactHole size a =
      72 + exactAlignment a + nb * (8 + exactStride size a) := by
  have := exactHole_lt size a
  rw [exactNeed]
  omega

namespace Accepted

variable {a : SizeT}

theorem cases (h : Accepted a) : a.toNat = 0 ∨ ∃ k, a.toNat = 2 ^ k := by
  by_cases hz : a = 0
  · exact Or.inl (by rw [hz]; rfl)
  · exact Or.inr ((isPowerOfTwo_iff hz).mp (h hz))

theorem exactAlignment_eq (h : Accepted a) : ∃ k, 3 ≤ k ∧ exactAlignment a.toNat = 2 ^ k := by
  obtain h | ⟨k, h⟩ := h.cases
  · exact ⟨3, Nat.le_refl 3, by rw [exactAlignment, h]; rfl⟩
  · by_cases hk : 3 ≤ k
    · have := Nat.pow_le_pow_right (Nat.zero_lt_two) hk
      exact ⟨k, hk, by rw [exactAlignment, h, Nat.max_eq_right this]⟩
    · have := Nat.pow_le_pow_right (Nat.zero_lt_two) (Nat.le_of_not_le hk)
      exact ⟨3, Nat.le_refl 3, by rw [exactAlignment, h, Nat.max_eq_left this]⟩

theorem dvd_exactAlignment (h : Accepted a) (hne : a ≠ 0) : a.toNat ∣ exactAlignment a.toNat := by
  obtain ⟨k, hk⟩ := (isPowerOfTwo_iff hne).mp (h hne)
  obtain hle | hle := Nat.le_total 8 a.toNat
  · rw [exactAlignment, Nat.max_eq_right hle]
  · rw [exactAlignment, Nat.max_eq_left hle, hk]
    exact pow_dvd_pow 2 (m := k) (n := 3)
      ((Nat.pow_le_pow_iff_right (by decide : 1 < 2)).mp (hk ▸ hle))

/-- The distance between two chunks is a multiple of the requested alignment. -/
theorem dvd_exactStride (_ : Accepted a) (hne : a ≠ 0) (size : ℕ) :
    a.toNat ∣ exactStride size a.toNat := by
  have hpos : 0 < a.toNat := Nat.pos_of_ne_zero fun hz ↦ hne (UInt64.toNat_inj.mp hz)
  have hdvd := dvd_roundUp (size + 8) hpos
  rwa [roundUp, Nat.add_assoc] at hdvd

theorem poolAlignment_toNat (h : Accepted a) :
    (poolAlignment a).toNat = exactAlignment a.toNat := by
  rw [poolAlignment]
  split
  next hz => rw [exactAlignment, beq_iff_eq.mp hz]; rfl
  next hz =>
    have hne : a ≠ 0 := by simpa using hz
    obtain ⟨k, hk⟩ := (isPowerOfTwo_iff hne).mp (h hne)
    exact computeNewAlignment_toNat hk

/-- A sum that wraps leaves the padding as it is: an accepted alignment divides the word size. -/
theorem poolHolesize_toNat (h : Accepted a) (size : SizeT) :
    (poolHolesize size a).toNat = exactHole size.toNat a.toNat := by
  rw [poolHolesize, exactHole]
  split
  next hgt =>
    have hgt : 1 < a.toNat := hgt
    have halt := a.toNat_lt
    obtain hz | ⟨k, hk⟩ := h.cases
    · omega
    · have hnext : size.toNat + 8 = (size + sizeofSizeT).toNat +
          2 ^ 64 * ((size.toNat + 8) / 2 ^ 64) := by
        rw [UInt64.toNat_add, sizeofSizeT_toNat, Nat.mod_add_div]
      have hpad : pad (size.toNat + 8) a.toNat = pad (size + sizeofSizeT).toNat a.toNat := by
        rw [hnext]
        exact pad_add_of_dvd _ ((two_pow_dvd_word hk).mul_right _)
      have hlt := pad_lt (size + sizeofSizeT).toNat (Nat.lt_trans Nat.zero_lt_one hgt)
      -- `diff`
      have hdiff : (align (size + sizeofSizeT) a - (size + sizeofSizeT)).toNat =
          pad (size + sizeofSizeT).toNat a.toNat := by
        have := (size + sizeofSizeT).toNat_lt
        rw [UInt64.toNat_sub, align_toNat_mod hk, roundUp]
        omega
      have hhalf : a.toNat ≤ 2 ^ 63 := by
        rw [hk, Nat.pow_lt_pow_iff_right (by decide)] at halt
        rw [hk]
        exact Nat.pow_le_pow_right (by decide) (by omega)
      rw [toNat_add_of_lt (by rw [hdiff, sizeofSizeT_toNat]; omega), hdiff, sizeofSizeT_toNat,
        hpad]
  next hle =>
    have hle : ¬ 1 < a.toNat := hle
    rw [show pad (size.toNat + 8) a.toNat = 0 by
      obtain h | h : a.toNat = 0 ∨ a.toNat = 1 := by omega
      · rw [h, pad_zero]
      · rw [h, pad_one]]
    rfl

end Accepted

theorem poolAllocsize_toNat (page : PageSize) (nb size a : SizeT) {alignment holesize : SizeT}
    (halign : alignment.toNat = exactAlignment a.toNat)
    (hhole : holesize.toNat = exactHole size.toNat a.toNat) :
    (poolAllocsize page.bytes nb size holesize alignment).toNat = mappedLength page nb size a := by
  have hneed := exactNeed_add_hole nb.toNat size.toNat a.toNat
  set need := exactNeed nb.toNat size.toNat a.toNat
  set words := sizeofDesc + alignment - holesize + nb * (sizeofSizeT + size + holesize) with hwords
  have hunit : (sizeofSizeT + size + holesize).toNat =
      (8 + exactStride size.toNat a.toNat) % 2 ^ 64 := by
    rw [UInt64.toNat_add, UInt64.toNat_add, sizeofSizeT_toNat, hhole, exactStride]
    omega
  have hsum : (words + holesize).toNat = (need + exactHole size.toNat a.toNat) % 2 ^ 64 := by
    have hcancel : words + holesize =
        sizeofDesc + alignment + nb * (sizeofSizeT + size + holesize) := by
      rw [hwords, UInt64.add_assoc, UInt64.add_comm _ holesize, ← UInt64.add_assoc,
        UInt64.sub_add_cancel]
    rw [hcancel, UInt64.toNat_add, UInt64.toNat_add, UInt64.toNat_mul, sizeofDesc_toNat, halign,
      hunit, Nat.mul_mod_mod, ← Nat.add_mod, hneed]
  have hword : words.toNat = need % 2 ^ 64 := by
    have := words.toNat_lt
    rw [UInt64.toNat_add, hhole] at hsum
    omega
  have hsplit : roundUp need page.bytes.toNat =
      roundUp (need % 2 ^ 64) page.bytes.toNat + 2 ^ 64 * (need / 2 ^ 64) := by
    rw [← roundUp_add_of_dvd _ ((two_pow_dvd_word page.bytes_eq).mul_right _), Nat.mod_add_div]
  rw [poolAllocsize, align_toNat_mod page.bytes_eq, ← hwords, hword, mappedLength, hsplit,
    Nat.add_mul_mod_self_left]

theorem page_dvd_mappedLength (page : PageSize) (nb size a : SizeT) :
    page.bytes.toNat ∣ mappedLength page nb size a := by
  apply (Nat.dvd_mod_iff (two_pow_dvd_word page.bytes_eq)).mpr
  exact dvd_roundUp _ page.bytes_pos

/-- The sizes of a well-sized pool. -/
def WellSized.sizing {page : PageSize} {nb size a : SizeT} (h : WellSized page nb size a)
    (haccepted : Accepted a) : Sizing where
  size := size
  alignment := a
  allocsize := mappedLength page nb size a
  accepted := haccepted
  unit_lt := h.1
  room := h.2
  allocsize_lt := Nat.mod_lt _ (Nat.two_pow_pos 64)

namespace Sizing

variable (s : Sizing)

theorem eight_le_align : 8 ≤ s.align := eight_le_exactAlignment _

theorem eight_le_hole : 8 ≤ s.hole := eight_le_exactHole _ _

theorem stride_eq : s.stride = s.size.toNat + s.hole := rfl

theorem align_eq_two_pow : ∃ k, 3 ≤ k ∧ s.align = 2 ^ k := s.accepted.exactAlignment_eq

theorem align_add_le : s.align + 72 ≤ s.allocsize := s.room

theorem unit_add_lt : 8 + s.stride < 2 ^ 64 := s.unit_lt

/-- The value stored in `hpd_nrel`. -/
theorem nrel_toNat {allocsize alignment holesize : SizeT} (halloc : allocsize.toNat = s.allocsize)
    (halign : alignment.toNat = s.align) (hhole : holesize.toNat = s.hole) :
    ((allocsize - alignment - sizeofDesc) / (sizeofSizeT + holesize + s.size)).toNat =
      s.nrel := by
  have hroom := s.align_add_le
  have hunit := s.unit_add_lt
  have hstride := s.stride_eq
  have hsub : (allocsize - alignment).toNat = s.allocsize - s.align := by
    rw [toNat_sub_of_le (by omega), halloc, halign]
  have hnum : (allocsize - alignment - sizeofDesc).toNat = s.allocsize - s.align - 72 := by
    rw [toNat_sub_of_le (by rw [sizeofDesc_toNat]; omega), hsub, sizeofDesc_toNat]
  have hden : (sizeofSizeT + holesize + s.size).toNat = 8 + s.stride := by
    have hadd : (sizeofSizeT + holesize).toNat = 8 + s.hole := by
      rw [toNat_add_of_lt (by rw [sizeofSizeT_toNat]; omega), sizeofSizeT_toNat, hhole]
    rw [toNat_add_of_lt (by omega), hadd]
    omega
  rw [UInt64.toNat_div, hnum, hden, nrel]

/-- The index words and the chunks fit behind the descriptor and one alignment. -/
theorem nrel_mul_le : s.nrel * (8 + s.stride) + s.align + 72 ≤ s.allocsize := by
  have hroom := s.align_add_le
  have := Nat.div_mul_le_self (s.allocsize - s.align - 72) (8 + s.stride)
  rw [nrel]
  omega

end Sizing

/-! ## The sizes of a request -/

namespace Request

variable {page : PageSize} (r : Request page)

theorem align_eq_two_pow : ∃ k, 3 ≤ k ∧ r.align = 2 ^ k := Accepted.exactAlignment_eq r.accepted

theorem eight_le_align : 8 ≤ r.align := eight_le_exactAlignment _

theorem alignment_dvd_stride (h : r.alignment ≠ 0) : r.alignment.toNat ∣ r.stride :=
  Accepted.dvd_exactStride r.accepted h _

theorem hole_lt : r.hole < 8 + r.align := exactHole_lt _ _

theorem stride_eq : r.stride = r.size.toNat + r.hole := rfl

theorem need_add_hole : r.need + r.hole = 72 + r.align + r.nb.toNat * (8 + r.stride) :=
  exactNeed_add_hole _ _ _

theorem cost_le_need : 80 + r.align + r.size.toNat ≤ r.need := by
  have hneed := r.need_add_hole
  have hone := Nat.le_mul_of_pos_left (8 + r.stride) r.nb_pos
  rw [r.stride_eq] at hone hneed
  omega

theorem need_add_page_le : r.need + page.bytes.toNat ≤ 2 ^ 64 := r.fits

theorem allocsize_eq_roundUp : r.allocsize = roundUp r.need page.bytes.toNat := rfl

theorem allocsize_lt : r.allocsize < 2 ^ 64 := by
  have hlt := roundUp_lt r.need page.bytes_pos
  have hfit := r.need_add_page_le
  rw [allocsize_eq_roundUp]
  omega

/-- The request's pool, with the exact byte count in whole pages. -/
def toSizing : Sizing where
  size := r.size
  alignment := r.alignment
  allocsize := r.allocsize
  accepted := r.accepted
  unit_lt := by
    have hcost := r.cost_le_need
    have hfit := r.need_add_page_le
    have hlt := r.hole_lt
    have hpage := page.eight_dvd
    have hpos := page.bytes_pos
    show 8 + (r.size.toNat + r.hole) < 2 ^ 64
    omega
  room := by
    have hcost := r.cost_le_need
    show r.align + 72 ≤ r.need + r.slack
    omega
  allocsize_lt := r.allocsize_lt

theorem mappedLength_eq : mappedLength page r.nb r.size r.alignment = r.allocsize :=
  Nat.mod_eq_of_lt r.allocsize_lt

theorem wellSized : WellSized page r.nb r.size r.alignment := by
  rw [WellSized, r.mappedLength_eq]
  exact ⟨r.toSizing.unit_lt, r.toSizing.room⟩

theorem sizing_wellSized : r.wellSized.sizing r.accepted = r.toSizing := by
  simp only [WellSized.sizing, toSizing, r.mappedLength_eq]

/-! ## How many chunks fit -/

theorem nrel_mul_le : r.nrel * (8 + r.stride) + r.align + 72 ≤ r.allocsize :=
  r.toSizing.nrel_mul_le

/-- The pool holds the requested number of chunks exactly when page rounding gives back the hole
that the byte count leaves out. -/
theorem nb_le_nrel_iff : r.nb.toNat ≤ r.nrel ↔ r.hole ≤ r.slack := by
  have hcost := r.cost_le_need
  have hneed := r.need_add_hole
  rw [nrel, Nat.le_div_iff_mul_le (by omega), allocsize]
  omega

/-- Chunks at least a page apart: page rounding never makes room for one more than requested. -/
theorem nrel_le_nb (hpage : page.bytes.toNat ≤ r.stride) : r.nrel ≤ r.nb.toNat := by
  have hslack : r.slack < page.bytes.toNat := pad_lt r.need page.bytes_pos
  have hneed := r.need_add_hole
  have hcost := r.cost_le_need
  rw [nrel, ← Nat.lt_succ_iff, Nat.div_lt_iff_lt_mul (by omega), allocsize, Nat.succ_mul]
  omega

end Request

end Divers.HeapPool
