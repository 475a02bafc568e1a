import Divers.HeapPool.Bounds

/-!
# Size computations that wrap

`heap_pool_create` checks none of its sums and products.  A byte count that is zero modulo the word
size is refused by `mmap`; any other one is mapped, whatever its exact value.  Then a chunk whose
cost is zero modulo the word size makes the division for `hpd_nrel` fail.
-/

open Divers.Library

namespace Divers.HeapPool

/-- `mmap` maps any number of whole pages but none. -/
structure MapsPages (page : PageSize) (mmap : SizeT → Option SizeT) : Prop where
  zero : mmap 0 = none
  pages : ∀ len, len ≠ 0 → page.bytes.toNat ∣ len.toNat → mmap len ≠ none

/-- What `heap_pool_create` returns is an error: `ERR_PTR(-EINVAL)` or `MAP_FAILED`. -/
def ReturnsError : Except CreateError (SizeT × Bytes) → Prop
  | .error .einval => True
  | .error .mapFailed => True
  | _ => False

/-- The process is killed in `heap_pool_create`: by SIGFPE, or by `abort`. -/
def Dies : Except CreateError (SizeT × Bytes) → Prop
  | .error .divideError => True
  | .error .assertFailed => True
  | _ => False

/-- No size computation has wrapped. -/
structure SizesExact (page : PageSize) (nb size _align : SizeT) : Prop where
  alignment : (poolAlignment _align).toNat = exactAlignment _align.toNat
  holesize : (poolHolesize (size + chunkExtraSize) _align).toNat =
    exactHole size.toNat _align.toNat
  stride : (size + chunkExtraSize + poolHolesize (size + chunkExtraSize) _align).toNat =
    exactStride size.toNat _align.toNat
  unit : (sizeofSizeT + poolHolesize (size + chunkExtraSize) _align +
    (size + chunkExtraSize)).toNat = 8 + exactStride size.toNat _align.toNat
  allocsize : exactNeed nb.toNat size.toNat _align.toNat ≤
    (poolAllocsize page.bytes nb (size + chunkExtraSize)
      (poolHolesize (size + chunkExtraSize) _align) (poolAlignment _align)).toNat
  nrel : (poolAlignment _align).toNat + sizeofDesc.toNat ≤
    (poolAllocsize page.bytes nb (size + chunkExtraSize)
      (poolHolesize (size + chunkExtraSize) _align) (poolAlignment _align)).toNat

/-- The byte count fits with the page it is rounded to, and without any chunk the page rounding
makes up for the hole that is left out. -/
def SizesFit (page : PageSize) (nb size _align : SizeT) : Prop :=
  exactNeed nb.toNat size.toNat _align.toNat + page.bytes.toNat ≤ 2 ^ 64 ∧
    (nb = 0 → 8 + exactStride size.toNat _align.toNat < 2 ^ 64 ∧
      exactHole size.toNat _align.toNat ≤
        pad (exactNeed nb.toNat size.toNat _align.toNat) page.bytes.toNat)

/-! ## The errors of heap_pool_create -/

/-- The layout loop keeps `ptr` on a multiple of the alignment, also where it wraps. -/
theorem layoutLoop_error {_align stride ret i walker ptr : SizeT} {bound : ℕ} {m : Bytes}
    {e : CreateError} (hword : _align ≠ 0 → _align.toNat ∣ 2 ^ 64)
    (hstride : _align ≠ 0 → _align.toNat ∣ stride.toNat)
    (hptr : _align ≠ 0 → _align.toNat ∣ ptr.toNat)
    (h : layoutLoop _align stride ret bound i walker ptr m = .error e) : e = .loopLimit := by
  induction bound generalizing i walker ptr m with
  | zero =>
      rw [layoutLoop] at h
      cases h
      rfl
  | succ bound ih =>
      rw [layoutLoop] at h
      split at h
      next =>
        have hmod : ¬ (_align ≠ 0 ∧ ptr % _align ≠ 0) := by
          intro hboth
          obtain ⟨hne, hmod⟩ := hboth
          apply hmod
          apply UInt64.toNat_inj.mp
          rw [UInt64.toNat_mod, Nat.mod_eq_zero_of_dvd (hptr hne), UInt64.toNat_zero]
        dsimp only at h
        rw [if_neg hmod] at h
        refine ih (fun hne ↦ ?_) h
        rw [UInt64.toNat_add]
        exact (Nat.dvd_mod_iff (hword hne)).mpr (Nat.dvd_add (hptr hne) (hstride hne))
      next => cases h

section

variable {page : PageSize} {mmap : SizeT → Option SizeT} {pagesize nb size _align : SizeT}

theorem Accepted.dvd_word (haccepted : Accepted _align) (hne : _align ≠ 0) :
    _align.toNat ∣ 2 ^ 64 := by
  obtain ⟨k, hk⟩ := (isPowerOfTwo_iff hne).mp (haccepted hne)
  exact two_pow_dvd_word hk

/-- The distance between two chunks as the loop adds it. -/
theorem Accepted.dvd_stride (haccepted : Accepted _align) (hne : _align ≠ 0) (size : SizeT) :
    _align.toNat ∣ (size + poolHolesize size _align).toNat := by
  rw [UInt64.toNat_add, haccepted.poolHolesize_toNat size]
  exact (Nat.dvd_mod_iff (haccepted.dvd_word hne)).mpr (haccepted.dvd_exactStride hne _)

theorem Accepted.dvd_firstChunk (haccepted : Accepted _align) (hne : _align ≠ 0) (m : Bytes)
    (ret : SizeT) : _align.toNat ∣ (firstChunk m ret (poolAlignment _align)).toNat := by
  have halign := haccepted.poolAlignment_toNat
  obtain ⟨k, -, hk⟩ := haccepted.exactAlignment_eq
  refine (haccepted.dvd_exactAlignment hne).trans ?_
  rw [firstChunk, align_toNat_eq (halign.trans hk), halign]
  exact Nat.dvd_sub_mod _

/-- What one chunk costs, as the divisor has it. -/
theorem divisor_toNat (size : SizeT) (haccepted : Accepted _align) :
    (sizeofSizeT + poolHolesize size _align + size).toNat =
      (8 + exactStride size.toNat _align.toNat) % 2 ^ 64 := by
  rw [UInt64.toNat_add, UInt64.toNat_add, sizeofSizeT_toNat, haccepted.poolHolesize_toNat size,
    exactStride]
  omega

/-- A mapped request dies at the division, or goes through the layout loop. -/
theorem heapPoolCreate_mapped (haccepted : Accepted _align) {ret : SizeT}
    (hmap : mmap (poolAllocsize pagesize nb size (poolHolesize size _align)
      (poolAlignment _align)) = some ret) (m : Bytes) :
    (2 ^ 64 ∣ 8 + exactStride size.toNat _align.toNat ∧
        heapPoolCreate pagesize mmap m nb size _align = .error .divideError) ∨
      (¬ 2 ^ 64 ∣ 8 + exactStride size.toNat _align.toNat ∧
        ∀ e, heapPoolCreate pagesize mmap m nb size _align = .error e → e = .loopLimit) := by
  have hok : ¬ (_align ≠ 0 ∧ ¬ isPowerOfTwo _align = true) :=
    fun hbad ↦ hbad.2 (haccepted hbad.1)
  have hdivisor := divisor_toNat size haccepted
  rw [Nat.dvd_iff_mod_eq_zero, ← hdivisor]
  rw [heapPoolCreate, if_neg hok]
  simp only [chunksize_eq, hmap]
  by_cases hzero : sizeofSizeT + poolHolesize size _align + size = 0
  · left
    refine ⟨by rw [hzero]; rfl, ?_⟩
    rw [writeDesc, divide, if_pos hzero]
    rfl
  · right
    refine ⟨fun hnat ↦ hzero (UInt64.toNat_inj.mp hnat), fun e he ↦ ?_⟩
    obtain ⟨m₁, hwrite⟩ : ∃ m₁, writeDesc m ret size
        (poolAllocsize pagesize nb size (poolHolesize size _align) (poolAlignment _align))
        (poolAlignment _align) size (poolHolesize size _align) = .ok m₁ :=
      ⟨_, by rw [writeDesc, divide_of_ne hzero]; rfl⟩
    rw [hwrite] at he
    dsimp only [bind, Except.bind] at he
    cases hloop : layoutLoop _align (size + poolHolesize size _align) ret
        ((getField (setField m₁ ret .hpdOfffirstelem (firstChunk m₁ ret (poolAlignment _align) -
          ret)) ret .hpdNrel).toNat + 1) 0 (hpdRaw ret)
        (firstChunk m₁ ret (poolAlignment _align)) (setField m₁ ret .hpdOfffirstelem
          (firstChunk m₁ ret (poolAlignment _align) - ret)) with
    | ok m₂ =>
        rw [hloop] at he
        cases he
    | error e' =>
        rw [hloop] at he
        cases he
        exact layoutLoop_error haccepted.dvd_word (fun hne ↦ haccepted.dvd_stride hne size)
          (fun hne ↦ haccepted.dvd_firstChunk hne m₁ ret) hloop

theorem heapPoolCreate_unmapped (haccepted : Accepted _align)
    (hmap : mmap (poolAllocsize pagesize nb size (poolHolesize size _align)
      (poolAlignment _align)) = none) (m : Bytes) :
    heapPoolCreate pagesize mmap m nb size _align = .error .mapFailed := by
  have hok : ¬ (_align ≠ 0 ∧ ¬ isPowerOfTwo _align = true) :=
    fun hbad ↦ hbad.2 (haccepted hbad.1)
  rw [heapPoolCreate, if_neg hok]
  simp only [chunksize_eq, hmap]

/-- An accepted alignment leaves the refused mapping as the only error that is returned, and the
division as the only thing that kills. -/
theorem returnsError_iff (haccepted : Accepted _align) (m : Bytes) :
    (ReturnsError (heapPoolCreate pagesize mmap m nb size _align) ↔
        mmap (poolAllocsize pagesize nb size (poolHolesize size _align)
          (poolAlignment _align)) = none) ∧
      (Dies (heapPoolCreate pagesize mmap m nb size _align) ↔
        mmap (poolAllocsize pagesize nb size (poolHolesize size _align)
          (poolAlignment _align)) ≠ none ∧ 2 ^ 64 ∣ 8 + exactStride size.toNat _align.toNat) := by
  cases hmap : mmap (poolAllocsize pagesize nb size (poolHolesize size _align)
      (poolAlignment _align)) with
  | none =>
      rw [heapPoolCreate_unmapped haccepted hmap m]
      exact ⟨iff_of_true trivial rfl, iff_of_false id fun h ↦ h.1 rfl⟩
  | some ret =>
      have hsome : some ret ≠ none := Option.some_ne_none ret
      rw [and_iff_right hsome]
      obtain ⟨hdvd, hdies⟩ | ⟨hdvd, hrun⟩ := heapPoolCreate_mapped haccepted hmap m
      · rw [hdies]
        exact ⟨iff_of_false id hsome, iff_of_true trivial hdvd⟩
      · have hneither : ¬ ReturnsError (heapPoolCreate pagesize mmap m nb size _align) ∧
            ¬ Dies (heapPoolCreate pagesize mmap m nb size _align) := by
          cases hcreate : heapPoolCreate pagesize mmap m nb size _align with
          | ok p => exact ⟨id, id⟩
          | error e =>
              rw [hrun e hcreate]
              exact ⟨id, id⟩
        exact ⟨iff_of_false hneither.1 hsome, iff_of_false hneither.2 hdvd⟩

theorem mmap_eq_none_iff (hmmap : MapsPages page mmap) (haccepted : Accepted _align) :
    mmap (poolAllocsize page.bytes nb size (poolHolesize size _align) (poolAlignment _align)) =
      none ↔ mappedLength page nb size _align = 0 := by
  have hlength := poolAllocsize_toNat page nb size _align haccepted.poolAlignment_toNat
    (haccepted.poolHolesize_toNat size)
  set allocsize := poolAllocsize page.bytes nb size (poolHolesize size _align)
    (poolAlignment _align)
  rw [← hlength]
  constructor
  · intro hnone
    by_contra hne
    apply hmmap.pages allocsize _ _ hnone
    · intro hzero
      rw [hzero] at hne
      exact hne rfl
    · rw [hlength]
      exact page_dvd_mappedLength page nb size _align
  · intro hzero
    rw [show allocsize = 0 from UInt64.toNat_inj.mp hzero]
    exact hmmap.zero

/-! ## When the computed sizes are exact -/

theorem mappedLength_eq (h : exactNeed nb.toNat size.toNat _align.toNat + page.bytes.toNat ≤
    2 ^ 64) : mappedLength page nb size _align =
      exactNeed nb.toNat size.toNat _align.toNat +
        pad (exactNeed nb.toNat size.toNat _align.toNat) page.bytes.toNat := by
  have hlt := roundUp_lt (exactNeed nb.toNat size.toNat _align.toNat) page.bytes_pos
  exact Nat.mod_eq_of_lt (by omega)

/-- A count that is not beyond what is mapped has not wrapped. -/
theorem need_add_page_le_iff :
    exactNeed nb.toNat size.toNat _align.toNat ≤ mappedLength page nb size _align ↔
      exactNeed nb.toNat size.toNat _align.toNat + page.bytes.toNat ≤ 2 ^ 64 := by
  constructor
  · intro hle
    rw [mappedLength] at hle
    have hround := le_roundUp (exactNeed nb.toNat size.toNat _align.toNat) page.bytes.toNat
    have hlt := roundUp_lt (exactNeed nb.toNat size.toNat _align.toNat) page.bytes_pos
    have hpage := page.bytes.toNat_lt
    by_cases hword : roundUp (exactNeed nb.toNat size.toNat _align.toNat) page.bytes.toNat < 2 ^ 64
    · -- two multiples of the page size are at least a page apart
      have hdvd := Nat.dvd_sub (two_pow_dvd_word page.bytes_eq)
        (dvd_roundUp (exactNeed nb.toNat size.toNat _align.toNat) page.bytes_pos)
      have := Nat.le_of_dvd (by omega) hdvd
      omega
    · -- what is mapped falls short by `2 ^ 64`, more than the rounding adds
      omega
  · intro hfit
    rw [mappedLength_eq hfit]
    exact Nat.le_add_right _ _

theorem sizesExact_iff (haccepted : Accepted _align) :
    SizesExact page nb size _align ↔ SizesFit page nb size _align := by
  have halign := haccepted.poolAlignment_toNat
  have hhole := haccepted.poolHolesize_toNat size
  have hlength := poolAllocsize_toNat page nb size _align halign hhole
  have hneed := exactNeed_add_hole nb.toNat size.toNat _align.toNat
  have hstride : exactStride size.toNat _align.toNat =
      size.toNat + exactHole size.toNat _align.toNat := rfl
  constructor
  · intro h
    have hneedle := h.allocsize
    have hroom := h.nrel
    have hunit := h.unit
    rw [chunksize_eq, hlength] at hneedle hroom
    have hfit := need_add_page_le_iff.mp hneedle
    refine ⟨hfit, fun hzero ↦ ⟨?_, ?_⟩⟩
    · rw [← hunit]
      exact UInt64.toNat_lt _
    · rw [mappedLength_eq hfit, halign, sizeofDesc_toNat] at hroom
      rw [hzero, UInt64.toNat_zero, Nat.zero_mul] at hneed
      rw [hzero, UInt64.toNat_zero] at hroom ⊢
      omega
  · intro hboth
    obtain ⟨hfit, hempty⟩ := hboth
    -- with a chunk the byte count covers what one chunk costs
    have hunit : 8 + exactStride size.toNat _align.toNat < 2 ^ 64 ∧
        exactAlignment _align.toNat + 72 ≤ mappedLength page nb size _align := by
      rw [mappedLength_eq hfit]
      by_cases hzero : nb = 0
      · obtain ⟨hunit, hpad⟩ := hempty hzero
        rw [hzero, UInt64.toNat_zero, Nat.zero_mul] at hneed
        rw [hzero, UInt64.toNat_zero] at hpad ⊢
        exact ⟨hunit, by omega⟩
      · have hpos : 0 < nb.toNat := Nat.pos_of_ne_zero fun h ↦ hzero (UInt64.toNat_inj.mp h)
        have hone := Nat.le_mul_of_pos_left (8 + exactStride size.toNat _align.toNat) hpos
        have hlt := exactHole_lt size.toNat _align.toNat
        have hpage := page.eight_dvd
        have hpos := page.bytes_pos
        omega
    have hsum : (sizeofSizeT + poolHolesize size _align).toNat =
        8 + exactHole size.toNat _align.toNat := by
      rw [toNat_add_of_lt (by rw [sizeofSizeT_toNat, hhole]; omega), sizeofSizeT_toNat, hhole]
    refine ⟨halign, ?_, ?_, ?_, ?_, ?_⟩ <;> rw [chunksize_eq]
    · exact hhole
    · rw [toNat_add_of_lt (by rw [hhole]; omega), hhole, hstride]
    · rw [toNat_add_of_lt (by rw [hsum]; omega), hsum]
      omega
    · rw [hlength]
      exact need_add_page_le_iff.mpr hfit
    · rw [hlength, halign]
      exact hunit.2

/-- For every number of chunks, size and accepted alignment: a call that neither returns an error
nor dies has computed exact sizes when, and only when, the sizes fit, and it dies when a chunk
costs nothing modulo the word size. -/
theorem heapPoolCreate_exact_iff (hmmap : MapsPages page mmap) (haccepted : Accepted _align)
    (m : Bytes) :
    ((¬ ReturnsError (heapPoolCreate page.bytes mmap m nb size _align) →
        ¬ Dies (heapPoolCreate page.bytes mmap m nb size _align) →
        SizesExact page nb size _align) ↔
      2 ^ 64 ∣ roundUp (exactNeed nb.toNat size.toNat _align.toNat) page.bytes.toNat ∨
        2 ^ 64 ∣ 8 + exactStride size.toNat _align.toNat ∨ SizesFit page nb size _align) ∧
    (Dies (heapPoolCreate page.bytes mmap m nb size _align) ↔
      ¬ 2 ^ 64 ∣ roundUp (exactNeed nb.toNat size.toNat _align.toNat) page.bytes.toNat ∧
        2 ^ 64 ∣ 8 + exactStride size.toNat _align.toNat) := by
  obtain ⟨herror, hdies⟩ : _ ∧ _ := returnsError_iff haccepted m
  rw [herror, hdies, sizesExact_iff haccepted, ne_eq, mmap_eq_none_iff hmmap haccepted,
    mappedLength, ← Nat.dvd_iff_mod_eq_zero]
  exact ⟨by tauto, Iff.rfl⟩

end

/-- A kernel that maps every non-empty range of pages at one address. -/
def mapAt (base : SizeT) (len : SizeT) : Option SizeT := if len = 0 then none else some base

theorem mapAt_mapsPages (page : PageSize) (base : SizeT) : MapsPages page (mapAt base) where
  zero := rfl
  pages len hne _ := by
    rw [mapAt, if_neg hne]
    exact Option.some_ne_none base

-- The pool of `main.c`, and a chunk that costs `2 ^ 64` bytes.
theorem heapPoolCreate_exact_main :
    SizesExact pageSize4k 10 128 0 ∧
      Dies (heapPoolCreate 4096 (mapAt 65536) (fun _ ↦ 0) 1 (-16) 0) := by
  have hmmap := mapAt_mapsPages pageSize4k 65536
  have hfit : SizesFit pageSize4k 10 128 0 := ⟨by decide, fun hzero ↦ absurd hzero (by decide)⟩
  have hmain := @heapPoolCreate_exact_iff _ _ 10 128 _ hmmap zero_accepted fun _ ↦ 0
  have hdies := @heapPoolCreate_exact_iff _ _ 1 (-16) _ hmmap zero_accepted fun _ ↦ 0
  refine ⟨hmain.1.mpr (Or.inr (Or.inr hfit)) ?_ ?_, hdies.2.mpr (by decide)⟩
  · rw [(returnsError_iff zero_accepted _).1, mmap_eq_none_iff hmmap zero_accepted]
    decide
  · rw [hmain.2]
    decide

/-- What a request for `2 ^ 60` chunks of 240 bytes gets: with its index and header words a chunk
costs `2 ^ 8` bytes, all of them together none, and one page is mapped. -/
def onePageSizing : Sizing where
  size := 240
  alignment := 0
  allocsize := 4096
  accepted := zero_accepted
  unit_lt := by decide
  room := by decide
  allocsize_lt := by decide

theorem heapPoolCreate_not_exact :
    ¬ ∀ (page : PageSize) (mmap : SizeT → Option SizeT) (m : Bytes) (nb size _align : SizeT),
      MapsPages page mmap → Accepted _align →
      (∃ p, heapPoolCreate page.bytes mmap m nb size _align = .ok p) →
      SizesExact page nb size _align := by
  intro hall
  have hwrap : onePageSizing.NoAddrWrap 65536 := ⟨by decide, by decide⟩
  have hlength : mappedLength pageSize4k 1152921504606846976 240 0 = 4096 := by decide
  have hmap : mapAt 65536 (poolAllocsize 4096 1152921504606846976 (240 + chunkExtraSize)
      (poolHolesize (240 + chunkExtraSize) 0) (poolAlignment 0)) = some 65536 := by decide
  obtain ⟨m', hrun, -⟩ := onePageSizing.heapPoolCreate_spec hwrap pageSize4k 1152921504606846976
    hlength fun _ ↦ 0
  have hcreate : heapPoolCreate 4096 (mapAt 65536) (fun _ ↦ 0) 1152921504606846976 240 0 =
      .ok (65536, m') := (heapPoolCreate_of_mmap hmap).trans hrun
  have hexact := hall pageSize4k _ _ _ _ 0 (mapAt_mapsPages pageSize4k 65536) zero_accepted
    ⟨_, hcreate⟩
  exact absurd ((sizesExact_iff zero_accepted).mp hexact).1 (by decide)

end Divers.HeapPool
