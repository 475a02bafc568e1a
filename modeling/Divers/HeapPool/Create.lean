import Divers.HeapPool.Layout
import Divers.HeapPool.Sizes

/-!
# heap_pool_create

What the layout loop writes, and the pool `heap_pool_create` leaves behind for a request whose
sizes and addresses do not wrap.
-/

open Divers.Library

namespace Divers.HeapPool

/-! ## The layout loop -/

/-- The byte is in neither the index slot nor the header of chunk `j`. -/
def Layout.ApartFrom (L : Layout) (x j : ℕ) : Prop :=
  (x < L.slot j ∨ L.slot j + 8 ≤ x) ∧ (x < L.chunk j - 8 ∨ L.chunk j ≤ x)

section Loop

variable {L : Layout} {i walker ptr : SizeT} (m : Bytes)

theorem headerAddr_toNat {j : ℕ} (hptr : ptr.toNat = L.chunk j) :
    (ptr - sizeofSizeT).toNat = L.chunk j - 8 := by
  have := L.index_le
  have := L.first_le_chunk j
  rw [toNat_sub_of_le (by rw [sizeofSizeT_toNat]; omega), hptr, sizeofSizeT_toNat]

theorem layoutChunk_apart (hwalker : walker.toNat = L.slot i.toNat)
    (hptr : ptr.toNat = L.chunk i.toNat) {x : ℕ} (hx : L.ApartFrom x i.toNat) :
    layoutChunk m walker ptr i x = m x := by
  have hheader := headerAddr_toNat hptr
  have := L.index_le
  have := L.first_le_chunk i.toNat
  rcases hx with ⟨hslot, hhead⟩
  rw [layoutChunk, store64_outside _ (by omega), store64_outside _ (by omega)]

theorem layoutChunk_slot (hlt : i.toNat < L.nrel) (hwalker : walker.toNat = L.slot i.toNat)
    (hptr : ptr.toNat = L.chunk i.toNat) :
    loadLE (layoutChunk m walker ptr i) (L.slot i.toNat) 8 = i.toNat + 1 := by
  have hheader := headerAddr_toNat hptr
  have hslot := L.slot_add_le hlt
  have := L.first_le_chunk i.toNat
  have hnext : (i + 1).toNat = i.toNat + 1 := by
    have := L.index_le
    have := L.fits
    exact toNat_add_of_lt (b := 1) (show i.toNat + 1 < 2 ^ 64 by omega)
  have := (i + 1).toNat_lt
  rw [layoutChunk, store64, loadLE_storeLE_disjoint _ (by omega), store64, hwalker,
    loadLE_storeLE_same _ (by omega), hnext]

theorem layoutChunk_header (hptr : ptr.toNat = L.chunk i.toNat) :
    L.Headed (layoutChunk m walker ptr i) i.toNat := by
  have := i.toNat_lt
  rw [Layout.Headed, layoutChunk, store64, headerAddr_toNat hptr,
    loadLE_storeLE_same _ (by omega)]

/-- The slot and the header of a chunk are apart from those of every later chunk. -/
theorem Layout.apartFrom_later {x j k : ℕ} (hjk : j < k) (hk : k < L.nrel)
    (hx : (L.slot j ≤ x ∧ x < L.slot j + 8) ∨ (L.chunk j - 8 ≤ x ∧ x < L.chunk j)) :
    L.ApartFrom x k := by
  have hchunk := L.chunk_add_le hjk
  have hsize := L.size_le
  have hslot := L.slot_add_le hk
  have hfirst := L.first_le_chunk k
  have hfirstj := L.first_le_chunk j
  rw [Layout.slot] at hslot hx
  rw [Layout.ApartFrom, Layout.slot]
  omega

theorem Layout.apartFrom_of_lt {x j : ℕ} (hx : x < L.base + 72) : L.ApartFrom x j := by
  have := L.index_le
  have := L.first_le_chunk j
  rw [Layout.ApartFrom, Layout.slot]
  omega

end Loop

/-- From iteration `i` on the loop fills the index slots and headers of the chunks `j ≥ i`, and
touches no other byte. -/
theorem layoutLoop_spec {L : Layout} {_align stride p : SizeT} (hstride : stride.toNat = L.stride)
    (hassert : ∀ j, j < L.nrel → _align ≠ 0 → _align.toNat ∣ L.chunk j)
    {bound : ℕ} {i walker ptr : SizeT} {m : Bytes} (hdesc : L.Describes m p)
    (hi : i.toNat ≤ L.nrel) (hbound : L.nrel < i.toNat + bound)
    (hwalker : walker.toNat = L.slot i.toNat) (hptr : ptr.toNat = L.chunk i.toNat) :
    ∃ m', layoutLoop _align stride p bound i walker ptr m = .ok m' ∧
      (∀ j, i.toNat ≤ j → j < L.nrel → loadLE m' (L.slot j) 8 = j + 1 ∧ L.Headed m' j) ∧
      (∀ x, (∀ j, i.toNat ≤ j → j < L.nrel → L.ApartFrom x j) → m' x = m x) := by
  induction bound generalizing i walker ptr m with
  | zero => omega
  | succ bound ih =>
      have htest : i < getField m p .hpdNrel ↔ i.toNat < L.nrel := by
        rw [UInt64.lt_iff_toNat_lt, hdesc.nrel]
      rw [layoutLoop]
      by_cases hlt : i.toNat < L.nrel
      · have hindex := L.index_le
        have hend := L.chunk_add_lt hlt
        have hslot := L.slot_add_le hlt
        have hfits := L.fits
        -- the assertion holds
        have hno : ¬ (_align ≠ 0 ∧ ptr % _align ≠ 0) := by
          intro hboth
          obtain ⟨hne, hmod⟩ := hboth
          refine hmod (UInt64.toNat_inj.mp ?_)
          rw [UInt64.toNat_mod, hptr, Nat.mod_eq_zero_of_dvd (hassert _ hlt hne),
            UInt64.toNat_zero]
        rw [if_pos (htest.mpr hlt), if_neg hno]
        have hnext : (i + 1).toNat = i.toNat + 1 :=
          toNat_add_of_lt (b := 1) (show i.toNat + 1 < 2 ^ 64 by omega)
        have hwalker' : (walker + sizeofSizeT).toNat = L.slot (i + 1).toNat := by
          rw [toNat_add_of_lt (by rw [sizeofSizeT_toNat]; omega), hwalker, hnext,
            sizeofSizeT_toNat, Layout.slot, Layout.slot]
          omega
        have hptr' : (ptr + stride).toNat = L.chunk (i + 1).toNat := by
          rw [toNat_add_of_lt (by omega), hptr, hstride, hnext, Layout.chunk, Layout.chunk,
            Nat.succ_mul]
          omega
        have hdesc' : L.Describes (layoutChunk m walker ptr i) p :=
          hdesc.congr fun x hx ↦ layoutChunk_apart m hwalker hptr (Layout.apartFrom_of_lt hx)
        obtain ⟨m', hrun, hfill, hframe⟩ :=
          ih hdesc' (by omega) (by omega) hwalker' hptr'
        rw [hnext] at hfill hframe
        -- the later iterations stay clear of the slot and the header written in this one
        have hkeep : ∀ x, (L.slot i.toNat ≤ x ∧ x < L.slot i.toNat + 8) ∨
            (L.chunk i.toNat - 8 ≤ x ∧ x < L.chunk i.toNat) →
            m' x = layoutChunk m walker ptr i x :=
          fun x hx ↦ hframe x fun j hj hjn ↦ Layout.apartFrom_later hj hjn hx
        have hfirst := L.first_le_chunk i.toNat
        refine ⟨m', hrun, fun j hj hjn ↦ ?_, fun x hx ↦ ?_⟩
        · rcases Nat.eq_or_lt_of_le hj with rfl | hgt
          · refine ⟨?_, (layoutChunk_header m hptr).congr fun x hlo hhi ↦ hkeep x (by omega)⟩
            rw [loadLE_congr fun x hlo hhi ↦ hkeep x (by omega),
              layoutChunk_slot m hlt hwalker hptr]
          · exact hfill j hgt hjn
        · rw [hframe x fun j hj hjn ↦ hx j (by omega) hjn,
            layoutChunk_apart m hwalker hptr (hx _ (Nat.le_refl _) hlt)]
      · rw [if_neg (mt htest.mp hlt)]
        exact ⟨m, rfl, fun j hj hjn ↦ absurd hjn (by omega), fun _ _ ↦ rfl⟩

/-! ## The descriptor -/

theorem divide_of_ne {a b : SizeT} (h : b ≠ 0) : divide a b = .ok (a / b) := if_neg h

/-- What `heap_pool_create` stores in the descriptor before it lays the chunks out. -/
def descValue (size allocsize alignment chunksize holesize : SizeT) : DescField → SizeT
  | .hpdNext | .hpdNralloc | .hpdFirstfree | .hpdOfffirstelem => 0
  | .hpdSzel => size
  | .hpdNrel => (allocsize - alignment - sizeofDesc) / (sizeofSizeT + holesize + chunksize)
  | .hpdSzck => holesize + size + chunkExtraSize
  | .hpdHolesize => holesize
  | .hpdAllocsize => allocsize

/-- With a divisor the descriptor is filled, and nothing else is changed. -/
theorem writeDesc_spec {p size allocsize alignment chunksize holesize : SizeT}
    (hp : p.toNat + 72 ≤ 2 ^ 64) (hdivisor : sizeofSizeT + holesize + chunksize ≠ 0) (m : Bytes) :
    ∃ m', writeDesc m p size allocsize alignment chunksize holesize = .ok m' ∧
      (∀ f, f ≠ .hpdOfffirstelem →
        getField m' p f = descValue size allocsize alignment chunksize holesize f) ∧
      ∀ x, (x < p.toNat ∨ p.toNat + 72 ≤ x) → m' x = m x := by
  rw [writeDesc, divide_of_ne hdivisor]
  refine ⟨_, rfl, fun f hf ↦ ?_, fun x hx ↦ ?_⟩
  · simp only [getField_setField hp]
    cases f <;> simp [descValue] at hf ⊢
  · simp only [setField_outside hp _ hx]

/-- All that counts of the kernel is where it maps the pool. -/
theorem heapPoolCreate_of_mmap {pagesize nb size _align base : SizeT}
    {mmap : SizeT → Option SizeT} {m : Bytes}
    (h : mmap (poolAllocsize pagesize nb (size + chunkExtraSize)
      (poolHolesize (size + chunkExtraSize) _align) (poolAlignment _align)) = some base) :
    heapPoolCreate pagesize mmap m nb size _align =
      heapPoolCreate pagesize (fun _ ↦ some base) m nb size _align := by
  unfold heapPoolCreate
  dsimp only
  rw [h]

/-! ## The pool of given sizes -/

namespace Sizing

variable (s : Sizing)

/-- Where the first chunk goes in a pool mapped at `base`. -/
def first (base : ℕ) : ℕ := roundUp (base + 72 + 8 * s.nrel + s.align) s.align

/-- No address computed while the pool is laid out at `base` wraps. -/
structure NoAddrWrap (base : SizeT) : Prop where
  index : base.toNat + 72 + 8 * s.nrel + 2 * s.align ≤ 2 ^ 64
  chunks : s.first base.toNat + s.nrel * s.stride < 2 ^ 64

/-- The geometry of the pool at `base`. -/
def layout {base : SizeT} (h : s.NoAddrWrap base) : Layout where
  base := base.toNat
  nrel := s.nrel
  size := s.size.toNat
  stride := s.stride
  first := s.first base.toNat
  index_le := by
    have := s.eight_le_align
    have := le_roundUp (base.toNat + 72 + 8 * s.nrel + s.align) s.align
    rw [first]
    omega
  size_le := by
    have := s.eight_le_hole
    rw [stride_eq]
    omega
  fits := h.chunks

/-- What `heap_pool_create` leaves at `base`: the memory `m'` made from `m`. -/
structure Created {base : SizeT} (h : s.NoAddrWrap base) (m m' : Bytes) : Prop where
  desc : (s.layout h).Describes m' base
  allocsize : (getField m' base .hpdAllocsize).toNat = s.allocsize
  nralloc : getField m' base .hpdNralloc = 0
  firstfree : getField m' base .hpdFirstfree = 0
  slots : ∀ j, j < s.nrel → loadLE m' ((s.layout h).slot j) 8 = j + 1
  headers : ∀ j, j < s.nrel → (s.layout h).Headed m' j
  frame : ∀ x, (x < base.toNat ∨ base.toNat + 72 ≤ x) →
    (∀ j, j < s.nrel → (s.layout h).ApartFrom x j) → m' x = m x

theorem align_dvd_first (base : ℕ) : s.align ∣ s.first base :=
  dvd_roundUp _ (Nat.lt_of_lt_of_le (by decide) s.eight_le_align)

/-- Every chunk is aligned as requested. -/
theorem alignment_dvd_chunk {base : SizeT} (h : s.NoAddrWrap base) (j : ℕ)
    (halign : s.alignment ≠ 0) : s.alignment.toNat ∣ (s.layout h).chunk j :=
  Nat.dvd_add ((s.accepted.dvd_exactAlignment halign).trans (s.align_dvd_first base.toNat))
    ((s.accepted.dvd_exactStride halign _).mul_left j)

theorem firstChunk_toNat {base alignment : SizeT} {m : Bytes} (h : s.NoAddrWrap base)
    (halign : alignment.toNat = s.align) (hnrel : (getField m base .hpdNrel).toNat = s.nrel) :
    (firstChunk m base alignment).toNat = s.first base.toNat := by
  have hindex := h.index
  rcases s.align_eq_two_pow with ⟨k, -, hk⟩
  have hmul : (sizeofSizeT * getField m base .hpdNrel).toNat = 8 * s.nrel := by
    rw [toNat_mul_of_lt (by rw [hnrel, sizeofSizeT_toNat]; omega), hnrel, sizeofSizeT_toNat]
  have hraw : (hpdRaw base).toNat = base.toNat + 72 :=
    toNat_add_of_lt (by rw [sizeofDesc_toNat]; have := s.eight_le_align; omega)
  have hend : (arrayIndexAddr base (getField m base .hpdNrel) + alignment).toNat =
      base.toNat + 72 + 8 * s.nrel + s.align := by
    have := s.eight_le_align
    have hslot : (arrayIndexAddr base (getField m base .hpdNrel)).toNat =
        base.toNat + 72 + 8 * s.nrel := by
      rw [arrayIndexAddr, toNat_add_of_lt (by omega), hraw, hmul]
    rw [toNat_add_of_lt (by omega), hslot, halign]
  rw [firstChunk, align_toNat (halign.trans hk) (by omega), hend, halign, first]

theorem size_add_hole_toNat {holesize : SizeT} (hhole : holesize.toNat = s.hole) :
    (s.size + holesize).toNat = s.stride := by
  have hunit := s.unit_add_lt
  have hstride := s.stride_eq
  rw [toNat_add_of_lt (by omega), hhole, stride_eq]

/-- The divisor is what one chunk costs. -/
theorem divisor_ne_zero {holesize : SizeT} (hhole : holesize.toNat = s.hole) :
    sizeofSizeT + holesize + s.size ≠ 0 := by
  intro hzero
  have hword : (sizeofSizeT + holesize + s.size).toNat = 8 + s.stride := by
    have hunit := s.unit_add_lt
    rw [stride_eq] at hunit ⊢
    rw [UInt64.toNat_add, UInt64.toNat_add, sizeofSizeT_toNat, hhole]
    omega
  rw [hzero, UInt64.toNat_zero] at hword
  omega

/-- The descriptor as it stands when the layout loop starts. -/
theorem describes_of_fields {base allocsize alignment holesize ptr : SizeT} {m : Bytes}
    (h : s.NoAddrWrap base) (halloc : allocsize.toNat = s.allocsize)
    (halign : alignment.toNat = s.align) (hhole : holesize.toNat = s.hole)
    (hptr : ptr.toNat = s.first base.toNat)
    (hfields : ∀ f, f ≠ .hpdOfffirstelem →
      getField m base f = descValue s.size allocsize alignment s.size holesize f) :
    (s.layout h).Describes (setField m base .hpdOfffirstelem (ptr - base)) base := by
  have hindex := h.index
  have halign8 := s.eight_le_align
  have hp : base.toNat + 72 ≤ 2 ^ 64 := by omega
  have hget : ∀ f, f ≠ .hpdOfffirstelem → getField (setField m base .hpdOfffirstelem (ptr - base))
      base f = descValue s.size allocsize alignment s.size holesize f := by
    intro f hf
    rw [getField_setField hp, if_neg hf, hfields f hf]
  refine ⟨rfl, ?_, ?_, ?_, ?_⟩
  · rw [hget _ (by decide)]
    exact s.nrel_toNat halloc halign hhole
  · rw [hget _ (by decide)]
    rfl
  · rw [hget _ (by decide), descValue, chunksize_eq, UInt64.add_comm]
    exact s.size_add_hole_toNat hhole
  · have := (s.layout h).index_le
    rw [getField_setField hp, if_pos rfl, toNat_sub_of_le, hptr]
    · rfl
    · rw [hptr]
      change base.toNat + 72 + 8 * s.nrel + 8 ≤ s.first base.toNat at this
      omega

/-- The pool is created: the loop ends within its bound and its assertion never fails. -/
theorem heapPoolCreate_spec {base : SizeT} (h : s.NoAddrWrap base) (page : PageSize) (nb : SizeT)
    (halloc : mappedLength page nb s.size s.alignment = s.allocsize) (m : Bytes) :
    ∃ m', heapPoolCreate page.bytes (fun _ ↦ some base) m nb s.size s.alignment =
      .ok (base, m') ∧ s.Created h m m' := by
  have hindex := h.index
  have halign8 := s.eight_le_align
  have hp : base.toNat + 72 ≤ 2 ^ 64 := by omega
  have halign := s.accepted.poolAlignment_toNat
  have hhole := s.accepted.poolHolesize_toNat s.size
  have halloc := (poolAllocsize_toNat page nb s.size s.alignment halign hhole).trans halloc
  have hok : ¬ (s.alignment ≠ 0 ∧ ¬ isPowerOfTwo s.alignment = true) :=
    fun hbad ↦ hbad.2 (s.accepted hbad.1)
  rw [heapPoolCreate, if_neg hok]
  simp only [chunksize_eq]
  set alignment := poolAlignment s.alignment
  set holesize := poolHolesize s.size s.alignment
  set allocsize := poolAllocsize page.bytes nb s.size holesize alignment
  obtain ⟨m₁, hwrite, hget, hout⟩ := writeDesc_spec hp (s.divisor_ne_zero hhole) m
  rw [hwrite]
  dsimp only [bind, Except.bind]
  set ptr := firstChunk m₁ base alignment
  set m₂ := setField m₁ base .hpdOfffirstelem (ptr - base) with hm₂
  have hnrel : (getField m₁ base .hpdNrel).toNat = s.nrel := by
    rw [hget _ (by decide)]
    exact s.nrel_toNat halloc halign hhole
  have hptr : ptr.toNat = s.first base.toNat := s.firstChunk_toNat h halign hnrel
  have hdesc : (s.layout h).Describes m₂ base :=
    s.describes_of_fields h halloc halign hhole hptr hget
  -- the loop starts at the first index word and the first chunk
  have hassert : ∀ j, j < (s.layout h).nrel → s.alignment ≠ 0 →
      s.alignment.toNat ∣ (s.layout h).chunk j :=
    fun j _ hne ↦ s.alignment_dvd_chunk h j hne
  have hbound : (s.layout h).nrel < (0 : SizeT).toNat +
      ((getField m₂ base .hpdNrel).toNat + 1) := by
    rw [hdesc.nrel, UInt64.toNat_zero]
    omega
  have hwalker : (hpdRaw base).toNat = (s.layout h).slot (0 : SizeT).toNat :=
    toNat_add_of_lt (by rw [sizeofDesc_toNat]; omega)
  have hstart : ptr.toNat = (s.layout h).chunk (0 : SizeT).toNat := by
    rw [hptr, UInt64.toNat_zero, Layout.chunk, Nat.zero_mul]
    rfl
  obtain ⟨m', hrun, hfill, hframe⟩ :=
    layoutLoop_spec (s.size_add_hole_toNat hhole) hassert hdesc (Nat.zero_le _) hbound hwalker
      hstart
  rw [hrun]
  have hfield : ∀ f, getField m' base f = getField m₂ base f :=
    getField_congr hp fun x hx ↦ hframe x fun j _ _ ↦ Layout.apartFrom_of_lt hx
  refine ⟨m', rfl, ?_, ?_, ?_, ?_, ?_, ?_, ?_⟩
  · exact hdesc.congr fun x hx ↦ hframe x fun j _ _ ↦ Layout.apartFrom_of_lt hx
  · rw [hfield, hm₂, getField_setField hp, if_neg (by decide), hget _ (by decide)]
    exact halloc
  · rw [hfield, hm₂, getField_setField hp, if_neg (by decide), hget _ (by decide)]
    rfl
  · rw [hfield, hm₂, getField_setField hp, if_neg (by decide), hget _ (by decide)]
    rfl
  · exact fun j hj ↦ (hfill j (Nat.zero_le j) hj).1
  · exact fun j hj ↦ (hfill j (Nat.zero_le j) hj).2
  · intro x hx hapart
    rw [hframe x fun j _ hj ↦ hapart j hj, hm₂, setField_outside hp _ hx, hout x hx]

end Sizing

/-! ## The pool of a request -/

namespace Request

variable {page : PageSize} (r : Request page)

/-- The request's pool is created. -/
theorem heapPoolCreate_spec {base : SizeT} (h : r.toSizing.NoAddrWrap base) (m : Bytes) :
    ∃ m', heapPoolCreate page.bytes (fun _ ↦ some base) m r.nb r.size r.alignment =
      .ok (base, m') ∧ r.toSizing.Created h m m' :=
  r.toSizing.heapPoolCreate_spec h page r.nb r.mappedLength_eq m

end Request

end Divers.HeapPool
