import Divers.HeapPool.Create

/-!
# Layout and containment of a created pool

The creation loop and the accessor macro agree on every chunk, the chunks are aligned as
requested, and no two parts of a pool overlap.  The parts lie inside the mapping except for some
alignments above the page size, where the byte count budgets a single alignment but the first
chunk is rounded up from an address that already carries one.
-/

open Divers.Library

namespace Divers.HeapPool

/-- A page-aligned mapping of `len` bytes in the lower half of the address space, where the kernel
puts user mappings. -/
structure UserMapping (page : PageSize) (len : ℕ) where
  base : SizeT
  aligned : page.bytes.toNat ∣ base.toNat
  fits : base.toNat + len ≤ 2 ^ 63

namespace Sizing

variable {page : PageSize} (s : Sizing)

/-- The end of the last stride, before and after the first chunk is aligned. -/
theorem chunksEnd_lt (base : ℕ) :
    s.first base + s.nrel * s.stride < base + s.allocsize + s.align := by
  have hround := roundUp_lt (base + 72 + 8 * s.nrel + s.align)
    (Nat.lt_of_lt_of_le (by decide) s.eight_le_align)
  have hfit := s.nrel_mul_le
  rw [Nat.mul_add] at hfit
  rw [first]
  omega

/-- In a user mapping no address of the layout wraps. -/
theorem noAddrWrap (map : UserMapping page s.allocsize) : s.NoAddrWrap map.base := by
  have hend := s.chunksEnd_lt map.base.toNat
  have halign := s.align_add_le
  have hfits := map.fits
  have hfit := s.nrel_mul_le
  rw [Nat.mul_add] at hfit
  exact ⟨by omega, by omega⟩

theorem layoutPtr_toNat {base stride ptr : SizeT} (h : s.NoAddrWrap base)
    (hstride : stride.toNat = s.stride) (hptr : ptr.toNat = s.first base.toNat) {i : ℕ}
    (hi : i ≤ s.nrel) : (layoutPtr stride ptr i).toNat = (s.layout h).chunk i := by
  induction i with
  | zero => rw [layoutPtr, hptr, Layout.chunk, Nat.zero_mul]; rfl
  | succ i ih =>
      have hend := (s.layout h).chunk_add_lt (i := i) hi
      have hstep : (s.layout h).stride = s.stride := rfl
      rw [layoutPtr, toNat_add_of_lt (by rw [ih (by omega), hstride]; omega), ih (by omega),
        hstride, Layout.chunk, Layout.chunk, Nat.succ_mul, hstep]
      omega

/-- The last payload ends within the mapping. -/
def EndsWithin (base : ℕ) : Prop :=
  s.nrel = 0 ∨ s.first base + s.nrel * s.stride ≤ base + s.allocsize + s.hole

/-- Every part of the pool ends inside the mapping exactly when the last payload does. -/
theorem contained_iff_endsWithin {base : SizeT} (h : s.NoAddrWrap base) :
    (∀ a, (s.layout h).Has a →
        base.toNat ≤ (s.layout h).start a ∧
          (s.layout h).start a + (s.layout h).length a ≤ base.toNat + s.allocsize) ↔
      s.EndsWithin base.toNat := by
  rw [EndsWithin]
  have hstride := s.stride_eq
  have hlast : ∀ i, i < s.nrel →
      (s.layout h).chunk i + s.stride ≤ s.first base.toNat + s.nrel * s.stride :=
    fun i hi ↦ (s.layout h).chunk_add_le hi
  have hindex := h.index
  constructor
  · intro hall
    rcases Nat.eq_zero_or_pos s.nrel with hz | hpos
    · exact Or.inl hz
    · right
      -- the last payload is the part that ends last
      have hword : (UInt64.ofNat (s.nrel - 1)).toNat = s.nrel - 1 := by
        rw [UInt64.toNat_ofNat', Nat.mod_eq_of_lt (by omega)]
      have hin := (hall (.payload (UInt64.ofNat (s.nrel - 1)))
        (show (UInt64.ofNat (s.nrel - 1)).toNat < s.nrel by omega)).2
      change (s.layout h).chunk _ + s.size.toNat ≤ _ at hin
      rw [hword] at hin
      change s.first base.toNat + (s.nrel - 1) * s.stride + s.size.toNat ≤ _ at hin
      have hmul : (s.nrel - 1) * s.stride + s.stride = s.nrel * s.stride := by
        rw [← Nat.succ_mul, Nat.succ_eq_add_one, Nat.sub_add_cancel hpos]
      omega
  · intro hend a ha
    have hfit := s.nrel_mul_le
    rw [Nat.mul_add] at hfit
    have hle : (s.layout h).base + 72 + 8 * s.nrel + 8 ≤ s.first base.toNat :=
      (s.layout h).index_le
    change base.toNat + 72 + 8 * s.nrel + 8 ≤ s.first base.toNat at hle
    have hchunk : ∀ i, s.first base.toNat ≤ (s.layout h).chunk i := (s.layout h).first_le_chunk
    cases a with
    | desc =>
        change base.toNat ≤ base.toNat ∧ base.toNat + 72 ≤ _
        omega
    | index i =>
        have hi : i.toNat < s.nrel := ha
        change base.toNat ≤ base.toNat + 72 + 8 * i.toNat ∧
          base.toNat + 72 + 8 * i.toNat + 8 ≤ _
        omega
    | header i =>
        have hi : i.toNat < s.nrel := ha
        have := hlast _ hi
        have := hchunk i.toNat
        change base.toNat ≤ (s.layout h).chunk i.toNat - 8 ∧
          (s.layout h).chunk i.toNat - 8 + 8 ≤ _
        omega
    | payload i =>
        have hi : i.toNat < s.nrel := ha
        have := hlast _ hi
        have := hchunk i.toNat
        change base.toNat ≤ (s.layout h).chunk i.toNat ∧
          (s.layout h).chunk i.toNat + s.size.toNat ≤ _
        omega

end Sizing

namespace Request

variable {page : PageSize} (r : Request page)

/-- For every request whose sizes and addresses do not wrap: the accessor macro finds chunk `i`
where the creation loop had `ptr` when it stored `i` in front of it, every chunk is aligned as
requested, and the descriptor, the index words, the headers and the payloads are pairwise
disjoint. -/
theorem heapPoolCreate_layout {base : SizeT} (h : r.toSizing.NoAddrWrap base) (m : Bytes) :
    ∃ m', heapPoolCreate page.bytes (fun _ ↦ some base) m r.nb r.size r.alignment =
        .ok (base, m') ∧
      (∀ i, i < getField m' base .hpdNrel →
        nthChunk m' base i =
            layoutPtr (r.size + poolHolesize r.size r.alignment)
              (firstChunk m' base (poolAlignment r.alignment)) i.toNat ∧
          chunkHeader m' (nthChunk m' base i) = i ∧
          (r.alignment ≠ 0 → r.alignment.toNat ∣ (nthChunk m' base i).toNat)) ∧
      ∀ a b, HasRegion m' base a → HasRegion m' base b → a ≠ b →
        (regionStart m' base a).toNat + (regionLength m' base a).toNat ≤
            (regionStart m' base b).toNat ∨
          (regionStart m' base b).toNat + (regionLength m' base b).toNat ≤
            (regionStart m' base a).toNat := by
  rcases r.heapPoolCreate_spec h m with ⟨m', hrun, hm'⟩
  have hdesc := hm'.desc
  have halign := r.toSizing.accepted.poolAlignment_toNat
  have hhole := r.toSizing.accepted.poolHolesize_toNat r.size
  refine ⟨m', hrun, fun i hi ↦ ?_, fun a b ha hb hne ↦ ?_⟩
  · have hi : i.toNat < r.nrel := (hdesc.has_iff (a := .index i)).mp hi
    have hchunk := hdesc.nthChunk_toNat hi
    refine ⟨UInt64.toNat_inj.mp ?_, UInt64.toNat_inj.mp ?_, fun hne ↦ ?_⟩
    · have hstride := r.toSizing.size_add_hole_toNat hhole
      have hptr := r.toSizing.firstChunk_toNat h halign hdesc.nrel
      exact hchunk.trans (r.toSizing.layoutPtr_toNat h hstride hptr (Nat.le_of_lt hi)).symm
    · exact (hm'.headers i.toNat hi).chunkHeader_toNat hchunk
    · rw [hchunk]
      exact r.toSizing.alignment_dvd_chunk h i.toNat hne
  · have ha := hdesc.has_iff.mp ha
    have hb := hdesc.has_iff.mp hb
    rw [hdesc.regionStart_toNat ha, hdesc.regionStart_toNat hb, hdesc.regionLength_toNat,
      hdesc.regionLength_toNat]
    exact (r.toSizing.layout h).region_disjoint ha hb hne

end Request

-- Alignment 0 is not tested.
theorem zero_accepted : (0 : SizeT) ≠ 0 → isPowerOfTwo 0 = true := fun h ↦ absurd rfl h

/-- The pool of `main.c`: ten chunks of 128 bytes. -/
def mainRequest : Request pageSize4k where
  nb := 10
  size := 128
  alignment := 0
  nb_pos := by decide
  accepted := zero_accepted
  fits := by decide

theorem heapPoolCreate_layout_main :
    ∃ m', heapPoolCreate 4096 (fun _ ↦ some 65536) (fun _ ↦ 0) 10 128 0 = .ok (65536, m') ∧
      ∀ i, i < getField m' 65536 .hpdNrel → chunkHeader m' (nthChunk m' 65536 i) = i := by
  have hwrap : mainRequest.toSizing.NoAddrWrap 65536 := ⟨by decide, by decide⟩
  rcases mainRequest.heapPoolCreate_layout hwrap fun _ ↦ 0 with ⟨m', hrun, hchunks, -⟩
  exact ⟨m', hrun, fun i hi ↦ (hchunks i hi).2.1⟩

namespace Request

variable {page : PageSize} (r : Request page)

/-! ## Containment -/

theorem first_eq (base : ℕ) :
    r.toSizing.first base = roundUp (base + 72 + 8 * r.nrel + r.align) r.align := rfl

theorem chunksEnd_lt (base : ℕ) :
    r.toSizing.first base + r.nrel * r.stride < base + r.allocsize + r.align :=
  r.toSizing.chunksEnd_lt base

/-- The padding that aligns the address right behind `nb` index words. -/
def lead (base : ℕ) : ℕ := pad (base + 72 + 8 * r.nb.toNat) r.align

theorem align_dvd_stride (h : 8 ≤ r.alignment.toNat) : r.align ∣ r.stride := by
  rw [align, exactAlignment, Nat.max_eq_right h]
  exact r.alignment_dvd_stride fun hz ↦ by rw [hz, UInt64.toNat_zero] at h; omega

/-- An alignment up to the page size divides the page size. -/
theorem align_dvd_page (h : r.align ≤ page.bytes.toNat) : r.align ∣ page.bytes.toNat := by
  rcases r.align_eq_two_pow with ⟨k, -, hk⟩
  have hpage := page.bytes_eq
  rw [hk, hpage, Nat.pow_le_pow_iff_right (by decide)] at h
  rw [hk, hpage]
  exact pow_dvd_pow 2 h

theorem page_dvd_allocsize : page.bytes.toNat ∣ r.allocsize :=
  r.allocsize_eq_roundUp ▸ dvd_roundUp r.need page.bytes_pos

/-- Up to the page size the last stride ends inside the mapping: its end and the mapping's end are
multiples of the alignment less than one alignment apart. -/
theorem chunksEnd_le_of_align_le (map : UserMapping page r.allocsize)
    (h : r.align ≤ page.bytes.toNat) :
    r.toSizing.first map.base.toNat + r.nrel * r.stride ≤ map.base.toNat + r.allocsize := by
  have hend := r.chunksEnd_lt map.base.toNat
  have hdvd := r.align_dvd_page h
  have hbase := hdvd.trans map.aligned
  by_cases hword : 8 ≤ r.alignment.toNat
  · have hleft : r.align ∣ r.toSizing.first map.base.toNat + r.nrel * r.stride :=
      Nat.dvd_add (r.toSizing.align_dvd_first _) ((r.align_dvd_stride hword).mul_left _)
    have hright : r.align ∣ map.base.toNat + r.allocsize :=
      Nat.dvd_add hbase (hdvd.trans r.page_dvd_allocsize)
    by_contra hgt
    have := Nat.le_of_dvd (by omega) (Nat.dvd_sub hleft hright)
    omega
  · -- word alignment: the address behind the index array is aligned already
    have halign : r.align = 8 := by rw [align, exactAlignment]; omega
    have hfit := r.nrel_mul_le
    have hfirst : r.toSizing.first map.base.toNat = map.base.toNat + 72 + 8 * r.nrel + 8 := by
      rw [first_eq, halign]
      apply roundUp_of_dvd
      rw [halign] at hbase
      omega
    rw [hfirst]
    rw [Nat.mul_add] at hfit
    omega

theorem page_le_stride (h : page.bytes.toNat < r.align) : r.align ≤ r.stride := by
  have hpage := Nat.le_of_dvd page.bytes_pos page.eight_dvd
  have hword : 8 ≤ r.alignment.toNat := by
    rw [align, exactAlignment] at h
    omega
  have hpos : 0 < r.stride := by
    have := r.toSizing.eight_le_hole
    show 0 < r.size.toNat + r.toSizing.hole
    omega
  exact Nat.le_of_dvd hpos (r.align_dvd_stride hword)

/-- Above the page size a pool short of its requested chunks still ends inside the mapping. -/
theorem chunksEnd_le_of_slack_lt (base : ℕ) (h : page.bytes.toNat < r.align)
    (hslack : r.slack < r.hole) :
    r.toSizing.first base + r.nrel * r.stride ≤ base + r.allocsize + r.hole := by
  -- one chunk less leaves room for the second alignment
  have hfew : r.nrel < r.nb.toNat := by
    have := mt r.nb_le_nrel_iff.mp (Nat.not_le.mpr hslack)
    omega
  have hmul := Nat.mul_le_mul_right (8 + r.stride) (Nat.succ_le_of_lt hfew)
  rw [Nat.succ_mul, Nat.mul_add] at hmul
  have hround := roundUp_lt (base + 72 + 8 * r.nrel + r.align)
    (Nat.lt_of_lt_of_le (by decide) r.eight_le_align)
  have hneed := r.need_add_hole
  have hstride := r.page_le_stride h
  rw [first_eq, allocsize]
  omega

/-- Above the page size, with all the requested chunks, the end is known exactly. -/
theorem chunksEnd_eq (base : ℕ) (h : page.bytes.toNat < r.align) (hslack : r.hole ≤ r.slack) :
    r.nrel = r.nb.toNat ∧
      r.toSizing.first base + r.nrel * r.stride = base + r.need + r.lead base + r.hole := by
  have hnrel : r.nrel = r.nb.toNat := by
    have := r.nrel_le_nb (Nat.le_trans (Nat.le_of_lt h) (r.page_le_stride h))
    have := r.nb_le_nrel_iff.mpr hslack
    omega
  have hneed := r.need_add_hole
  rw [Nat.mul_add] at hneed
  refine ⟨hnrel, ?_⟩
  rw [first_eq, hnrel, roundUp_add_of_dvd _ (Nat.dvd_refl _), roundUp, lead]
  omega

/-- Only an alignment above the page size with all the requested chunks can push the last payload
out. -/
theorem chunksEnd_le_or (map : UserMapping page r.allocsize) :
    r.toSizing.first map.base.toNat + r.nrel * r.stride ≤ map.base.toNat + r.allocsize + r.hole ∨
      page.bytes.toNat < r.align ∧ r.hole ≤ r.slack := by
  by_cases hbig : r.align ≤ page.bytes.toNat
  · exact Or.inl (Nat.le_add_right_of_le (r.chunksEnd_le_of_align_le map hbig))
  · have hbig := Nat.lt_of_not_le hbig
    by_cases hslack : r.slack < r.hole
    · exact Or.inl (r.chunksEnd_le_of_slack_lt map.base.toNat hbig hslack)
    · exact Or.inr ⟨hbig, Nat.le_of_not_lt hslack⟩

/-- The headers are inside the mapping whatever the alignment: the padding that can push the last
payload out is shorter than a stride. -/
theorem chunk_le_mapping (map : UserMapping page r.allocsize) {i : ℕ} (hi : i < r.nrel) :
    (r.toSizing.layout (r.toSizing.noAddrWrap map)).chunk i ≤ map.base.toNat + r.allocsize := by
  have hstride := r.stride_eq
  have hlast : (r.toSizing.layout (r.toSizing.noAddrWrap map)).chunk i + r.stride ≤
      r.toSizing.first map.base.toNat + r.nrel * r.stride :=
    (r.toSizing.layout (r.toSizing.noAddrWrap map)).chunk_add_le hi
  rcases r.chunksEnd_le_or map with hend | ⟨hbig, hslack⟩
  · omega
  · have hend := (r.chunksEnd_eq map.base.toNat hbig hslack).2
    have halloc : r.allocsize = r.need + r.slack := rfl
    have hpage := r.page_le_stride hbig
    have hlead : r.lead map.base.toNat < r.align :=
      pad_lt _ (Nat.lt_of_lt_of_le (by decide) r.eight_le_align)
    omega

end Request

/-- Everything the library writes and a client may touch lies in `[p, p + hpd_allocsize)`. -/
def Contained (m : Bytes) (p : SizeT) : Prop :=
  ∀ a, HasRegion m p a →
    p.toNat ≤ (regionStart m p a).toNat ∧
      (regionStart m p a).toNat + (regionLength m p a).toNat ≤
        p.toNat + (getField m p .hpdAllocsize).toNat

/-- The byte `x` is in the descriptor, the index array or a chunk header: the parts that
`heap_pool_create` writes. -/
def LibraryByte (m : Bytes) (p : SizeT) (x : ℕ) : Prop :=
  ∃ a, HasRegion m p a ∧ (∀ i, a ≠ .payload i) ∧ (regionStart m p a).toNat ≤ x ∧
    x < (regionStart m p a).toNat + (regionLength m p a).toNat

namespace Sizing

variable (s : Sizing)

/-- `heap_pool_create` changes library bytes only. -/
theorem Created.unchanged {base : SizeT} {h : s.NoAddrWrap base} {m m' : Bytes}
    (hm' : s.Created h m m') {x : ℕ} (hx : ¬ LibraryByte m' base x) : m' x = m x := by
  have hdesc := hm'.desc
  have hout : ∀ a, (s.layout h).Has a → (∀ i, a ≠ .payload i) →
      x < (s.layout h).start a ∨ (s.layout h).start a + (s.layout h).length a ≤ x := by
    intro a ha hpay
    by_contra hin
    refine hx ⟨a, hdesc.has_iff.mpr ha, hpay, ?_⟩
    rw [hdesc.regionStart_toNat ha, hdesc.regionLength_toNat]
    omega
  refine hm'.frame x (hout .desc trivial fun _ ↦ Region.noConfusion) fun j hj ↦ ?_
  have hword : (UInt64.ofNat j).toNat = j := by
    have := h.index
    have : s.nrel = (s.layout h).nrel := rfl
    rw [UInt64.toNat_ofNat', Nat.mod_eq_of_lt (by omega)]
  have hhas : (UInt64.ofNat j).toNat < (s.layout h).nrel := by
    rw [hword]
    exact hj
  have hindex := hout (.index (UInt64.ofNat j)) hhas fun _ ↦ Region.noConfusion
  have hheader := hout (.header (UInt64.ofNat j)) hhas fun _ ↦ Region.noConfusion
  simp only [Layout.start, Layout.length, hword] at hindex hheader
  have := (s.layout h).index_le
  have := (s.layout h).first_le_chunk j
  exact ⟨hindex, by omega⟩

end Sizing

namespace Request

variable {page : PageSize} (r : Request page)

/-- `heap_pool_create` writes the library's bytes and nothing else, and the pool lies inside its
mapping exactly when the alignment is at most a page, or page rounding adds less than a hole, or
the padding in front of the first chunk is covered by what page rounding adds. -/
theorem heapPoolCreate_contained_iff (map : UserMapping page r.allocsize) (m : Bytes) :
    ∃ m', heapPoolCreate page.bytes (fun _ ↦ some map.base) m r.nb r.size r.alignment =
        .ok (map.base, m') ∧
      (∀ x, ¬ LibraryByte m' map.base x → m' x = m x) ∧
      (Contained m' map.base ↔
        r.align ≤ page.bytes.toNat ∨ r.slack < r.hole ∨ r.lead map.base.toNat ≤ r.slack) := by
  have h := r.toSizing.noAddrWrap map
  rcases r.heapPoolCreate_spec h m with ⟨m', hrun, hm'⟩
  refine ⟨m', hrun, fun x hx ↦ hm'.unchanged _ hx, ?_⟩
  have hdesc := hm'.desc
  have hcontained : Contained m' map.base ↔
      (r.nrel = 0 ∨ r.toSizing.first map.base.toNat + r.nrel * r.stride ≤
        map.base.toNat + r.allocsize + r.hole) := by
    refine Iff.trans ?_ (r.toSizing.contained_iff_endsWithin h)
    refine forall_congr' fun a ↦ ?_
    rw [hdesc.has_iff]
    refine imp_congr_right fun ha ↦ ?_
    rw [hdesc.regionStart_toNat ha, hdesc.regionLength_toNat, hm'.allocsize]
  have halloc : r.allocsize = r.need + r.slack := rfl
  rw [hcontained]
  constructor
  · intro hend
    by_contra hno
    push Not at hno
    rcases hno with ⟨hbig, hslack, hlead⟩
    rcases r.chunksEnd_eq map.base.toNat hbig hslack with ⟨hnrel, heq⟩
    have hnb := r.nb_pos
    omega
  · rcases r.chunksEnd_le_or map with hend | ⟨hbig, hslack⟩
    · exact fun _ ↦ Or.inr hend
    · have := (r.chunksEnd_eq map.base.toNat hbig hslack).2
      omega

end Request

-- The number of chunks and the base of the pools below.
theorem one_toNat_pos : 0 < (1 : SizeT).toNat := by decide

theorem pageSize4k_dvd_base : pageSize4k.bytes.toNat ∣ (65536 : SizeT).toNat := by decide

/-- One chunk of 8184 bytes aligned to two pages. -/
def twoPageRequest : Request pageSize4k where
  nb := 1
  size := 8184
  alignment := 8192
  nb_pos := one_toNat_pos
  accepted := fun _ ↦ by decide
  fits := by decide

def twoPageMapping : UserMapping pageSize4k twoPageRequest.allocsize :=
  ⟨65536, pageSize4k_dvd_base, by decide⟩

/-- Its payload starts 16384 bytes into a mapping of 20480 bytes and ends beyond it. -/
theorem heapPoolCreate_not_contained :
    ∃ m', heapPoolCreate 4096 (fun _ ↦ some 65536) (fun _ ↦ 0) 1 8184 8192 = .ok (65536, m') ∧
      ¬ Contained m' 65536 := by
  have h := twoPageRequest.toSizing.noAddrWrap twoPageMapping
  rcases twoPageRequest.heapPoolCreate_spec h fun _ ↦ 0 with ⟨m', hrun, hm'⟩
  have hdesc := hm'.desc
  have hhas : (twoPageRequest.toSizing.layout h).Has (.payload 0) := by
    change 0 < twoPageRequest.nrel
    decide
  refine ⟨m', hrun, fun hin ↦ ?_⟩
  have hend := (hin (.payload 0) (hdesc.has_iff.mpr hhas)).2
  rw [show (65536 : SizeT) = twoPageMapping.base from rfl, hdesc.regionStart_toNat hhas,
    hdesc.regionLength_toNat, hm'.allocsize] at hend
  change twoPageRequest.toSizing.first 65536 + 0 * twoPageRequest.stride + 8184 ≤
    65536 + twoPageRequest.allocsize at hend
  revert hend
  decide

end Divers.HeapPool
