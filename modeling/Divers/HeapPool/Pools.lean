import Divers.HeapPool.Frame

/-!
# The pools of a process

Any number of pools in one address space: creations, operations on live pools and
`heap_pool_destroy` or `heap_pool_close`, in any order.  A pool reads and writes the bytes of its
own mapping only, so it does not notice the others, and `munmap` gets the length that `mmap` got.
-/

open Divers.Library

namespace Divers.HeapPool

/-! ## The process -/

/-- A length in whole pages, as the kernel takes it. -/
def inPages (page : PageSize) (len : SizeT) : ℕ := roundUp len.toNat page.bytes.toNat

/-- The kernel maps `len` bytes at `base`: whole pages in the lower half of the address space, with
nothing mapped there yet. -/
def MayMap (page : PageSize) (mapped : Mapped) (base len : SizeT) : Prop :=
  page.bytes.toNat ∣ base.toNat ∧ len ≠ 0 ∧ base.toNat + inPages page len ≤ 2 ^ 63 ∧
    mapped.Free ⟨base.toNat, inPages page len⟩

instance {page : PageSize} {mapped : Mapped} {base len : SizeT} :
    Decidable (MayMap page mapped base len) :=
  inferInstanceAs (Decidable (_ ∧ _ ∧ _ ∧ _))

/-- The length that `heap_pool_create` maps. -/
def createLength (page : PageSize) (nb size _align : SizeT) : SizeT :=
  poolAllocsize page.bytes nb (size + chunkExtraSize) (poolHolesize (size + chunkExtraSize) _align)
    (poolAlignment _align)

/-- A mapping that is private and anonymous starts with zeros. -/
def zeroed (m : Bytes) (e : Extent) : Bytes := fun x ↦ if e.Has x then 0 else m x

/-- `munmap(desc, len)`. -/
def munmap (page : PageSize) (mapped : Mapped) (desc len : SizeT) : Mapped :=
  if page.bytes.toNat ∣ desc.toNat ∧ len ≠ 0 then mapped.unmap ⟨desc.toNat, inPages page len⟩
  else mapped

def heapPoolDestroy (page : PageSize) (m : Bytes) (mapped : Mapped) (desc : SizeT) : Mapped :=
  munmap page mapped desc (getField m desc .hpdAllocsize)

def heapPoolClose (page : PageSize) (m : Bytes) (mapped : Mapped) (desc : SizeT) : Mapped :=
  munmap page mapped desc (getField m desc .hpdAllocsize)

/-- `HEAP_POOL_ADDR_IN_BNDS(p, addr)`. -/
def heapPoolAddrInBnds (m : Bytes) (p addr : SizeT) : Bool :=
  decide (addr > p) && decide (addr < p + getField m p .hpdAllocsize)

/-- A pool in use: the memory as `heap_pool_create` left it, and the chunks handed out since. -/
structure LivePool where
  image : Bytes
  outstanding : List SizeT

structure Process where
  mem : Bytes
  mapped : Mapped
  pools : SizeT → Option LivePool    -- by the address of the descriptor

inductive ProcessOp where
  | create (nb size _align base : SizeT)    -- `base` is where the kernel would map
  | onPool (p : SizeT) (op : PoolOp)
  | destroy (p : SizeT)
  | close (p : SizeT)
  deriving DecidableEq, Repr

/-- One call.  Only pools that are live are used, destroyed or closed. -/
def processStep (page : PageSize) (s : Process) : ProcessOp → Option Process
  | .create nb size _align base =>
      let len := createLength page nb size _align
      let place : Extent := ⟨base.toNat, inPages page len⟩
      let mmap := fun len ↦ if MayMap page s.mapped base len then some base else none
      match heapPoolCreate page.bytes mmap (zeroed s.mem place) nb size _align with
      | .ok (p, mem) =>
          some { mem := mem, mapped := s.mapped.map place,
                 pools := Function.update s.pools p (some ⟨mem, []⟩) }
      | .error .einval => some s
      | .error .mapFailed => some s
      | .error _ => none
  | .onPool p op =>
      (s.pools p).bind fun c ↦ (poolStep p ⟨s.mem, c.outstanding⟩ op).map fun t ↦
        { s with mem := t.mem
                 pools := Function.update s.pools p (some { c with outstanding := t.outstanding }) }
  | .destroy p =>
      (s.pools p).map fun _ ↦
        { s with mapped := heapPoolDestroy page s.mem s.mapped p
                 pools := Function.update s.pools p none }
  | .close p =>
      (s.pools p).map fun _ ↦
        { s with mapped := heapPoolClose page s.mem s.mapped p
                 pools := Function.update s.pools p none }

/-- A pool that is created has sizes that do not wrap, and ends within its mapping. -/
def Fitting (page : PageSize) (s : Process) : ProcessOp → Prop
  | .create nb size _align base => ∀ haccepted : Accepted _align,
      MayMap page s.mapped base (createLength page nb size _align) →
        ∃ hsized : WellSized page nb size _align,
          (hsized.sizing haccepted).EndsWithin base.toNat
  | _ => True

namespace Process

/-- What `munmap` would get for the pool at `p`. -/
def extent (s : Process) (p : SizeT) : Extent := ⟨p.toNat, (getField s.mem p .hpdAllocsize).toNat⟩

/-- The mappings of the pools. -/
def extents (s : Process) : SizeT → Option Extent := fun p ↦ (s.pools p).map fun _ ↦ s.extent p

/-- The byte `x` is in the payload of a chunk that is handed out. -/
def ClientByte (s : Process) (x : ℕ) : Prop :=
  ∃ p c addr, s.pools p = some c ∧ addr ∈ c.outstanding ∧ addr.toNat ≤ x ∧
    x < addr.toNat + (getField s.mem p .hpdSzel).toNat

/-- What a process may rely on in `s`, when `own` was mapped and held what `m₀` does before it had
any pool. -/
structure Undisturbed (page : PageSize) (own : Mapped) (m₀ : Bytes) (s : Process) : Prop where
  /-- Every pool is as safe as it would be alone, and inside its mapping. -/
  pools : ∀ p c, s.pools p = some c →
    Safe c.image p ⟨s.mem, c.outstanding⟩ ∧ Contained s.mem p
  /-- The mappings of the pools overlap neither each other nor `own`, and nothing else is mapped. -/
  books : Booked own s.mapped s.extents
  none_left : (∀ p, s.pools p = none) → s.mapped = own
  /-- The macro tells whose a chunk is. -/
  owner : ∀ p c, s.pools p = some c → getField s.mem p .hpdSzel ≠ 0 →
    ∀ addr ∈ c.outstanding, ∀ q d, s.pools q = some d →
      (heapPoolAddrInBnds s.mem q addr = true ↔ q = p)
  own : ∀ x, own x = true → s.mem x = m₀ x
  /-- What a client wrote stays until it writes again or gives the chunk back. -/
  kept : ∀ op u, Fitting page s op → processStep page s op = some u →
    (∀ p y b, op ≠ .onPool p (.write y b)) → ∀ x, s.ClientByte x → u.mem x = s.mem x

end Process

/-! ## One step -/

namespace LivePool

/-- The pool at `p` in the memory `m`. -/
structure Holds (page : PageSize) (L : Layout) (m : Bytes) (p : SizeT) (c : LivePool) : Prop where
  created : L.Describes c.image p
  noErrAddr : L.NoErrAddr
  within : L.Within (getField m p .hpdAllocsize).toNat
  tracks : L.Tracks p ⟨m, c.outstanding⟩
  aligned : page.bytes.toNat ∣ p.toNat
  fits : p.toNat + (getField m p .hpdAllocsize).toNat ≤ 2 ^ 63
  whole : page.bytes.toNat ∣ (getField m p .hpdAllocsize).toNat

variable {page : PageSize} {L : Layout} {m m' : Bytes} {p : SizeT} {c : LivePool}

namespace Holds

theorem base (h : c.Holds page L m p) : p.toNat = L.base := h.created.base

theorem safe (h : c.Holds page L m p) : Safe c.image p ⟨m, c.outstanding⟩ :=
  Layout.safe_of_tracks h.noErrAddr h.created h.tracks

theorem contained (h : c.Holds page L m p) : Contained m p := by
  obtain ⟨a, hrep, -⟩ := h.tracks
  have hdesc : L.Describes m p := hrep.desc
  intro part hpart
  rw [hdesc.has_iff] at hpart
  rw [hdesc.regionStart_toNat hpart, hdesc.regionLength_toNat, h.base]
  exact ⟨L.base_le_start part, h.within part hpart⟩

theorem allocsize_pos (h : c.Holds page L m p) : 0 < (getField m p .hpdAllocsize).toNat := by
  have := h.within.index_le
  omega

/-- `munmap` gets the very extent that `mmap` returned. -/
theorem munmap_eq (h : c.Holds page L m p) (mapped : Mapped) :
    munmap page mapped p (getField m p .hpdAllocsize) =
      mapped.unmap ⟨p.toNat, (getField m p .hpdAllocsize).toNat⟩ := by
  have hlen : getField m p .hpdAllocsize ≠ 0 := by
    intro hz
    have hpos := h.allocsize_pos
    rw [hz] at hpos
    exact Nat.lt_irrefl 0 hpos
  rw [munmap, if_pos ⟨h.aligned, hlen⟩, inPages, roundUp_of_dvd h.whole]

/-- Changes outside of the mapping do not matter. -/
theorem same (h : c.Holds page L m p)
    (hsame : Extent.Same ⟨p.toNat, (getField m p .hpdAllocsize).toNat⟩ m m') :
    c.Holds page L m' p ∧ getField m' p .hpdAllocsize = getField m p .hpdAllocsize := by
  rw [h.base] at hsame
  obtain ⟨a, hrep, -⟩ := h.tracks
  have hsize := Layout.Describes.getField_same h.within hsame hrep.desc .hpdAllocsize
  refine ⟨⟨h.created, h.noErrAddr, ?_, h.tracks.same h.within hsame, h.aligned, ?_, ?_⟩, hsize⟩
  · rw [hsize]
    exact h.within
  · rw [hsize]
    exact h.fits
  · rw [hsize]
    exact h.whole

/-- An operation keeps its own pool. -/
theorem step (h : c.Holds page L m p) {op : PoolOp} {t : PoolState}
    (hstep : poolStep p ⟨m, c.outstanding⟩ op = some t) :
    { c with outstanding := t.outstanding }.Holds page L t.mem p := by
  have hsize : getField t.mem p .hpdAllocsize = getField m p .hpdAllocsize :=
    h.tracks.step_allocsize hstep
  refine ⟨h.created, h.noErrAddr, ?_, Layout.tracks_step h.noErrAddr h.tracks hstep, h.aligned, ?_,
    ?_⟩
  · rw [hsize]
    exact h.within
  · rw [hsize]
    exact h.fits
  · rw [hsize]
    exact h.whole

theorem addrInBnds_iff (h : c.Holds page L m p) (addr : SizeT) :
    heapPoolAddrInBnds m p addr = true ↔
      p ≠ addr ∧ Extent.Has ⟨p.toNat, (getField m p .hpdAllocsize).toNat⟩ addr.toNat := by
  have hfits := h.fits
  have hend : (p + getField m p .hpdAllocsize).toNat =
      p.toNat + (getField m p .hpdAllocsize).toNat := toNat_add_of_lt (by omega)
  rw [heapPoolAddrInBnds, Bool.and_eq_true, decide_eq_true_eq, decide_eq_true_eq,
    gt_iff_lt, UInt64.lt_iff_toNat_lt, UInt64.lt_iff_toNat_lt, hend, ← UInt64.toNat_inj.ne,
    Extent.Has]
  dsimp only
  omega

/-- A chunk that is handed out lies behind the index array. -/
theorem outstanding_mem (h : c.Holds page L m p) {addr : SizeT} (haddr : addr ∈ c.outstanding) :
    L.base + 72 + 8 * L.nrel < addr.toNat ∧
      addr.toNat + (getField m p .hpdSzel).toNat ≤
        p.toNat + (getField m p .hpdAllocsize).toNat := by
  have hindex := L.index_le
  have hbase := h.base
  obtain ⟨a, hrep, hout⟩ := h.tracks
  dsimp only at hout
  rw [hout] at haddr
  obtain ⟨i, -, hi, rfl⟩ := hrep.outstanding_mem haddr
  have hfirst := L.first_le_chunk i.toNat
  have hend := h.within.payload hi
  have hszel : (getField m p .hpdSzel).toNat = L.size := hrep.desc.szel
  rw [Layout.chunkAddr_toNat hi, hszel]
  omega

end Holds

end LivePool

/-! ## Creation -/

section Create

variable {page : PageSize} {mmap : SizeT → Option SizeT} {nb size _align base : SizeT} (m : Bytes)

theorem heapPoolCreate_mmap_none (h : mmap (createLength page nb size _align) = none) :
    heapPoolCreate page.bytes mmap m nb size _align = .error .einval ∨
      heapPoolCreate page.bytes mmap m nb size _align = .error .mapFailed := by
  rw [createLength] at h
  unfold heapPoolCreate
  dsimp only
  rw [h]
  split
  next => exact Or.inl rfl
  next => exact Or.inr rfl

theorem heapPoolCreate_refused (h : ¬ Accepted _align) :
    heapPoolCreate page.bytes mmap m nb size _align = .error .einval := by
  rw [Accepted, Classical.not_imp] at h
  rw [heapPoolCreate, if_pos h]

end Create

theorem createLength_toNat (page : PageSize) (nb size : SizeT) {_align : SizeT}
    (haccepted : Accepted _align) :
    (createLength page nb size _align).toNat = mappedLength page nb size _align := by
  rw [createLength, chunksize_eq]
  exact poolAllocsize_toNat page nb size _align haccepted.poolAlignment_toNat
    (haccepted.poolHolesize_toNat size)

theorem inPages_createLength (page : PageSize) (nb size : SizeT) {_align : SizeT}
    (haccepted : Accepted _align) :
    inPages page (createLength page nb size _align) = mappedLength page nb size _align := by
  rw [inPages, createLength_toNat page nb size haccepted,
    roundUp_of_dvd (page_dvd_mappedLength page nb size _align)]

namespace Sizing

variable {page : PageSize} (s : Sizing)

theorem within (map : UserMapping page s.allocsize) (hends : s.EndsWithin map.base.toNat) :
    (s.layout (s.noAddrWrap map)).Within s.allocsize :=
  fun a ha ↦ ((s.contained_iff_endsWithin (s.noAddrWrap map)).mpr hends a ha).2

/-- `heap_pool_create` writes in its mapping only. -/
theorem Created.outside {base : SizeT} {h : s.NoAddrWrap base} {m m' : Bytes}
    (hm' : s.Created h m m') (hlen : (s.layout h).Within s.allocsize) {x : ℕ}
    (hx : ¬ Extent.Has ⟨base.toNat, s.allocsize⟩ x) : m' x = m x := by
  have hnrel := (s.layout h).nrel_lt
  have hout : ∀ a, (s.layout h).Has a →
      x < (s.layout h).start a ∨ (s.layout h).start a + (s.layout h).length a ≤ x := by
    intro a ha
    by_contra hin
    exact hx (hlen.has ha (by omega) (by omega))
  refine hm'.frame x (hout .desc trivial) fun j hj ↦ ?_
  have hword : (UInt64.ofNat j).toNat = j := by
    have : s.nrel = (s.layout h).nrel := rfl
    rw [UInt64.toNat_ofNat', Nat.mod_eq_of_lt (by omega)]
  have hhas : (UInt64.ofNat j).toNat < (s.layout h).nrel := by
    rw [hword]
    exact hj
  have hindex := hout (.index (UInt64.ofNat j)) hhas
  have hheader := hout (.header (UInt64.ofNat j)) hhas
  simp only [Layout.start, Layout.length, hword] at hindex hheader
  have := (s.layout h).index_le
  have := (s.layout h).first_le_chunk j
  exact ⟨hindex, by omega⟩

end Sizing

/-! ## The invariant -/

namespace Process

/-- The run invariant. -/
structure Sound (page : PageSize) (own : Mapped) (m₀ : Bytes) (s : Process) : Prop where
  pools : ∀ p c, s.pools p = some c → ∃ L, c.Holds page L s.mem p
  books : Booked own s.mapped s.extents
  own : ∀ x, own x = true → s.mem x = m₀ x

variable {page : PageSize} {own : Mapped} {m₀ : Bytes} {s u : Process} {p q base : SizeT}
  {c d : LivePool}

theorem extents_of_some (h : s.pools p = some c) : s.extents p = some (s.extent p) := by
  rw [extents, h, Option.map_some]

theorem extents_of_none (h : s.pools p = none) : s.extents p = none := by
  rw [extents, h, Option.map_none]

/-- Another entry for the pool at `p`, with memory that keeps the lengths of the other mappings. -/
theorem extents_update {mem : Bytes} (mapped : Mapped) (o : Option LivePool)
    (hkeep : ∀ q d, q ≠ p → s.pools q = some d →
      getField mem q .hpdAllocsize = getField s.mem q .hpdAllocsize) :
    extents ⟨mem, mapped, Function.update s.pools p o⟩ =
      Function.update s.extents p
        (o.map fun _ ↦ ⟨p.toNat, (getField mem p .hpdAllocsize).toNat⟩) := by
  funext q
  by_cases hne : q = p
  · subst hne
    simp only [extents, extent, Function.update_self]
  · simp only [extents, extent, Function.update_of_ne hne]
    cases hq : s.pools q with
    | none => rw [Option.map_none, Option.map_none]
    | some d => rw [Option.map_some, Option.map_some, hkeep q d hne hq]

/-- A creation that finds its extent free lays out a pool in it. -/
theorem create_of_free {nb size _align : SizeT} (haccepted : Accepted _align)
    (hsized : WellSized page nb size _align)
    (map : UserMapping page (mappedLength page nb size _align))
    (hfree : s.mapped.Free ⟨map.base.toNat, mappedLength page nb size _align⟩) :
    ∃ m', (hsized.sizing haccepted).Created ((hsized.sizing haccepted).noAddrWrap map)
        (zeroed s.mem ⟨map.base.toNat, mappedLength page nb size _align⟩) m' ∧
      processStep page s (.create nb size _align map.base) =
        some { mem := m', mapped := s.mapped.map ⟨map.base.toNat, mappedLength page nb size _align⟩,
               pools := Function.update s.pools map.base (some ⟨m', []⟩) } := by
  have hpages := inPages_createLength page nb size haccepted
  have hlen : createLength page nb size _align ≠ 0 := by
    intro hz
    have hroom := hsized.2
    rw [← createLength_toNat page nb size haccepted, hz, UInt64.toNat_zero] at hroom
    omega
  have hmay : MayMap page s.mapped map.base (createLength page nb size _align) := by
    rw [MayMap, hpages]
    exact ⟨map.aligned, hlen, map.fits, hfree⟩
  let mmap := fun len ↦ if MayMap page s.mapped map.base len then some map.base else none
  have hmmap : mmap (createLength page nb size _align) = some map.base := if_pos hmay
  obtain ⟨m', hrun, hm'⟩ := (hsized.sizing haccepted).heapPoolCreate_spec
    ((hsized.sizing haccepted).noAddrWrap map) page nb rfl
    (zeroed s.mem ⟨map.base.toNat, mappedLength page nb size _align⟩)
  have hcreate : heapPoolCreate page.bytes mmap
      (zeroed s.mem ⟨map.base.toNat, mappedLength page nb size _align⟩) nb size _align =
        .ok (map.base, m') :=
    (heapPoolCreate_of_mmap hmmap).trans hrun
  refine ⟨m', hm', ?_⟩
  rw [processStep, hpages, hcreate]

/-- A creation changes nothing, or lays out a pool in a free extent. -/
theorem create_cases {nb size _align : SizeT} (hfit : Fitting page s (.create nb size _align base))
    (hstep : processStep page s (.create nb size _align base) = some u) :
    u = s ∨ ∃ (z : Sizing) (map : UserMapping page z.allocsize) (m' : Bytes),
      map.base = base ∧ page.bytes.toNat ∣ z.allocsize ∧
        s.mapped.Free ⟨base.toNat, z.allocsize⟩ ∧
        (z.layout (z.noAddrWrap map)).Within z.allocsize ∧
        z.Created (z.noAddrWrap map) (zeroed s.mem ⟨base.toNat, z.allocsize⟩) m' ∧
        u = { mem := m', mapped := s.mapped.map ⟨base.toNat, z.allocsize⟩,
              pools := Function.update s.pools base (some ⟨m', []⟩) } := by
  by_cases haccepted : Accepted _align
  · by_cases hmay : MayMap page s.mapped base (createLength page nb size _align)
    · right
      obtain ⟨hsized, hends⟩ := hfit haccepted hmay
      obtain ⟨haligned, -, hhalf, hfree⟩ := hmay
      rw [inPages_createLength page nb size haccepted] at hhalf hfree
      let map : UserMapping page (mappedLength page nb size _align) := ⟨base, haligned, hhalf⟩
      obtain ⟨m', hm', hcreate⟩ := create_of_free haccepted hsized map hfree
      rw [show map.base = base from rfl, hstep, Option.some.injEq] at hcreate
      exact ⟨hsized.sizing haccepted, map, m', rfl, page_dvd_mappedLength page nb size _align,
        hfree, (hsized.sizing haccepted).within map hends, hm', hcreate⟩
    · left
      rw [processStep] at hstep
      let mmap := fun len ↦ if MayMap page s.mapped base len then some base else none
      have hmmap : mmap (createLength page nb size _align) = none := if_neg hmay
      rcases heapPoolCreate_mmap_none
        (zeroed s.mem ⟨base.toNat, inPages page (createLength page nb size _align)⟩)
        hmmap with hrun | hrun
      · rw [hrun, Option.some.injEq] at hstep
        exact hstep.symm
      · rw [hrun, Option.some.injEq] at hstep
        exact hstep.symm
  · left
    rw [processStep, heapPoolCreate_refused _ haccepted, Option.some.injEq] at hstep
    exact hstep.symm

theorem onPool_cases {op : PoolOp} (hstep : processStep page s (.onPool p op) = some u) :
    ∃ c t, s.pools p = some c ∧ poolStep p ⟨s.mem, c.outstanding⟩ op = some t ∧
      u = { s with mem := t.mem
                   pools := Function.update s.pools p
                    (some { c with outstanding := t.outstanding }) } := by
  rw [processStep, Option.bind_eq_some_iff] at hstep
  obtain ⟨c, hc, hstep⟩ := hstep
  rw [Option.map_eq_some_iff] at hstep
  obtain ⟨t, ht, rfl⟩ := hstep
  exact ⟨c, t, hc, ht, rfl⟩

/-- `heap_pool_destroy` and `heap_pool_close` do the same. -/
theorem gone_cases {op : ProcessOp} (hop : op = .destroy p ∨ op = .close p)
    (hstep : processStep page s op = some u) :
    ∃ c, s.pools p = some c ∧
      u = { s with mapped := munmap page s.mapped p (getField s.mem p .hpdAllocsize)
                   pools := Function.update s.pools p none } := by
  rcases hop with rfl | rfl
  · rw [processStep, Option.map_eq_some_iff] at hstep
    obtain ⟨c, hc, rfl⟩ := hstep
    exact ⟨c, hc, rfl⟩
  · rw [processStep, Option.map_eq_some_iff] at hstep
    obtain ⟨c, hc, rfl⟩ := hstep
    exact ⟨c, hc, rfl⟩

namespace Sound

variable (h : s.Sound page own m₀)
include h

theorem apart (hp : s.pools p = some c) (hq : s.pools q = some d) (hne : q ≠ p) {x : ℕ}
    (hx : (s.extent q).Has x) : ¬ (s.extent p).Has x :=
  fun hxp ↦ hne (h.books.apart (extents_of_some hq) (extents_of_some hp) hx hxp)

theorem own_apart (hp : s.pools p = some c) {x : ℕ} (hown : own x = true) :
    ¬ (s.extent p).Has x := by
  intro hx
  rw [h.books.own_apart (extents_of_some hp) hx] at hown
  cases hown

/-- Memory that differs outside of a pool holds the pool, with the same mapping. -/
theorem same (hp : s.pools p = some c) {m : Bytes} (hsame : (s.extent p).Same s.mem m) :
    (∃ L, c.Holds page L m p) ∧ getField m p .hpdAllocsize = getField s.mem p .hpdAllocsize := by
  obtain ⟨L, hL⟩ := h.pools p c hp
  have hsame := hL.same hsame
  exact ⟨⟨L, hsame.1⟩, hsame.2⟩

theorem create {nb size _align : SizeT} (hfit : Fitting page s (.create nb size _align base))
    (hstep : processStep page s (.create nb size _align base) = some u) : u.Sound page own m₀ := by
  obtain rfl | ⟨z, map, m', rfl, hpages, hfree, hwithin, hm', rfl⟩ := create_cases hfit hstep
  · exact h
  · set place : Extent := ⟨map.base.toNat, z.allocsize⟩ with hplace
    have hsize : (getField m' map.base .hpdAllocsize).toNat = z.allocsize := hm'.allocsize
    -- outside of the new mapping the memory is as it was
    have hout : ∀ x, ¬ place.Has x → m' x = s.mem x := by
      intro x hx
      rw [hm'.outside z hwithin hx, zeroed, if_neg hx]
    have hnew : s.pools map.base = none := by
      by_contra hlive
      obtain ⟨c, hc⟩ := Option.ne_none_iff_exists'.mp hlive
      obtain ⟨L, hL⟩ := h.pools _ c hc
      have hpos := hL.allocsize_pos
      have hmapped := h.books.not_free (extents_of_some hc) (x := map.base.toNat)
        ⟨Nat.le_refl _, Nat.lt_add_of_pos_right hpos⟩
      have := z.nrel_mul_le
      rw [hfree _ ⟨Nat.le_refl _, by dsimp only [place]; omega⟩] at hmapped
      cases hmapped
    have hkeep : ∀ q d, s.pools q = some d → (s.extent q).Same s.mem m' := by
      intro q d hq x hx
      refine hout x fun hin ↦ ?_
      have hmapped := h.books.not_free (extents_of_some hq) hx
      rw [hfree x hin] at hmapped
      cases hmapped
    refine ⟨fun q d hq ↦ ?_, ?_, fun x hx ↦ ?_⟩
    · dsimp only at hq ⊢
      by_cases hne : q = map.base
      · rw [hne, Function.update_self, Option.some.injEq] at hq
        subst hne
        subst hq
        refine ⟨z.layout (z.noAddrWrap map), hm'.desc, z.noErrAddr map, ?_, ?_, map.aligned, ?_,
          ?_⟩
        · rw [hsize]
          exact hwithin
        · exact ⟨IdStack.fresh _, hm'.represents, rfl⟩
        · rw [hsize]
          exact map.fits
        · rw [hsize]
          exact hpages
      · rw [Function.update_of_ne hne] at hq
        exact (h.same hq (hkeep q d hq)).1
    · rw [extents_update _ _ fun q d _ hq ↦ (h.same hq (hkeep q d hq)).2, Option.map_some, hsize]
      exact h.books.map (extents_of_none hnew) hfree
    · dsimp only
      refine (hout x fun hin ↦ ?_).trans (h.own x hx)
      have hmapped := (h.books.mapped_iff x).mpr (Or.inl hx)
      rw [hfree x hin] at hmapped
      cases hmapped

theorem onPool {op : PoolOp} (hstep : processStep page s (.onPool p op) = some u) :
    u.Sound page own m₀ := by
  obtain ⟨c, t, hp, ht, rfl⟩ := onPool_cases hstep
  obtain ⟨L, hL⟩ := h.pools p c hp
  have hsize : getField t.mem p .hpdAllocsize = getField s.mem p .hpdAllocsize :=
    hL.tracks.step_allocsize ht
  have hout : ∀ x, ¬ (s.extent p).Has x → t.mem x = s.mem x := by
    intro x hx
    rw [extent, hL.base] at hx
    exact hL.tracks.step_outside hL.within ht hx
  have hkeep : ∀ q d, q ≠ p → s.pools q = some d → (s.extent q).Same s.mem t.mem :=
    fun q d hne hq x hx ↦ hout x (h.apart hp hq hne hx)
  refine ⟨fun q d hq ↦ ?_, ?_, fun x hx ↦ (hout x (h.own_apart hp hx)).trans (h.own x hx)⟩
  · dsimp only at hq ⊢
    by_cases hne : q = p
    · subst hne
      rw [Function.update_self, Option.some.injEq] at hq
      exact hq ▸ ⟨L, hL.step ht⟩
    · rw [Function.update_of_ne hne] at hq
      exact (h.same hq (hkeep q d hne hq)).1
  · have hself : Function.update s.extents p (some (s.extent p)) = s.extents :=
      Function.update_eq_self_iff.mpr (extents_of_some hp).symm
    rw [extents_update _ _ fun q d hne hq ↦ (h.same hq (hkeep q d hne hq)).2, Option.map_some,
      hsize]
    change Booked own s.mapped (Function.update s.extents p (some (s.extent p)))
    rw [hself]
    exact h.books

theorem gone {op : ProcessOp} (hop : op = .destroy p ∨ op = .close p)
    (hstep : processStep page s op = some u) : u.Sound page own m₀ := by
  obtain ⟨c, hp, rfl⟩ := gone_cases hop hstep
  obtain ⟨L, hL⟩ := h.pools p c hp
  refine ⟨fun q d hq ↦ ?_, ?_, h.own⟩
  · dsimp only at hq ⊢
    by_cases hne : q = p
    · rw [hne, Function.update_self] at hq
      cases hq
    · rw [Function.update_of_ne hne] at hq
      exact h.pools q d hq
  · rw [extents_update _ _ fun _ _ _ _ ↦ rfl, Option.map_none, hL.munmap_eq]
    exact h.books.unmap (extents_of_some hp)

/-- Every step keeps the invariant. -/
theorem step {op : ProcessOp} (hfit : Fitting page s op) (hstep : processStep page s op = some u) :
    u.Sound page own m₀ := by
  cases op with
  | create nb size _align base => exact h.create hfit hstep
  | onPool p op => exact h.onPool hstep
  | destroy p => exact h.gone (Or.inl rfl) hstep
  | close p => exact h.gone (Or.inr rfl) hstep

theorem clientByte {x : ℕ} (hx : s.ClientByte x) : ∃ p c L, s.pools p = some c ∧
    c.Holds page L s.mem p ∧ (s.extent p).Has x ∧ L.base + 72 + 8 * L.nrel ≤ x := by
  obtain ⟨p, c, addr, hp, haddr, hlo, hhi⟩ := hx
  obtain ⟨L, hL⟩ := h.pools p c hp
  have hbase := hL.base
  have hbounds := hL.outstanding_mem haddr
  exact ⟨p, c, L, hp, hL, ⟨by dsimp only [extent]; omega, by dsimp only [extent]; omega⟩, by omega⟩

theorem owner (hp : s.pools p = some c) (hszel : getField s.mem p .hpdSzel ≠ 0) {addr : SizeT}
    (haddr : addr ∈ c.outstanding) (hq : s.pools q = some d) :
    heapPoolAddrInBnds s.mem q addr = true ↔ q = p := by
  obtain ⟨L, hL⟩ := h.pools p c hp
  obtain ⟨L', hL'⟩ := h.pools q d hq
  have hbase := hL.base
  have hbounds := hL.outstanding_mem haddr
  have hpos : 0 < (getField s.mem p .hpdSzel).toNat :=
    Nat.pos_of_ne_zero fun hz ↦ hszel (UInt64.toNat_inj.mp hz)
  have hin : (s.extent p).Has addr.toNat :=
    ⟨by dsimp only [extent]; omega, by dsimp only [extent]; omega⟩
  rw [hL'.addrInBnds_iff]
  constructor
  · intro hbnds
    by_contra hne
    exact h.apart hp hq hne hbnds.2 hin
  · rintro rfl
    refine ⟨?_, hin⟩
    rintro rfl
    omega

theorem kept {op : ProcessOp} (hfit : Fitting page s op) (hstep : processStep page s op = some u)
    (hop : ∀ p y b, op ≠ .onPool p (.write y b)) {x : ℕ} (hx : s.ClientByte x) :
    u.mem x = s.mem x := by
  obtain ⟨p, c, L, hp, hL, hin, hbehind⟩ := h.clientByte hx
  cases op with
  | create nb size _align base =>
      obtain rfl | ⟨z, map, m', rfl, -, hfree, hwithin, hm', rfl⟩ := create_cases hfit hstep
      · rfl
      · have hout : ¬ Extent.Has ⟨map.base.toNat, z.allocsize⟩ x := by
          intro hplace
          have hmapped := h.books.not_free (extents_of_some hp) hin
          rw [hfree x hplace] at hmapped
          cases hmapped
        dsimp only
        rw [hm'.outside z hwithin hout, zeroed, if_neg hout]
  | onPool q op =>
      obtain ⟨d, t, hq, ht, rfl⟩ := onPool_cases hstep
      by_cases hne : p = q
      · subst hne
        rw [hp, Option.some.injEq] at hq
        subst hq
        exact hL.tracks.library_outside ht (fun y b heq ↦ hop p y b (heq ▸ rfl)) (Or.inr hbehind)
      · obtain ⟨L', hL'⟩ := h.pools q d hq
        have hout := h.apart hq hp hne hin
        rw [extent, hL'.base] at hout
        exact hL'.tracks.step_outside hL'.within ht hout
  | destroy q =>
      obtain ⟨-, -, rfl⟩ := gone_cases (Or.inl rfl) hstep
      rfl
  | close q =>
      obtain ⟨-, -, rfl⟩ := gone_cases (Or.inr rfl) hstep
      rfl

theorem undisturbed : s.Undisturbed page own m₀ where
  pools p c hp := by
    obtain ⟨L, hL⟩ := h.pools p c hp
    exact ⟨hL.safe, hL.contained⟩
  books := h.books
  none_left hnone := h.books.eq_own fun p ↦ extents_of_none (hnone p)
  owner _ _ hp hszel _ haddr _ _ hq := h.owner hp hszel haddr hq
  own := h.own
  kept _ _ hfit hstep hop _ hx := h.kept hfit hstep hop hx

end Sound

/-- A process without pools. -/
def start (own : Mapped) (m₀ : Bytes) : Process := ⟨m₀, own, fun _ ↦ none⟩

theorem Sound.start (page : PageSize) (own : Mapped) (m₀ : Bytes) :
    (Process.start own m₀).Sound page own m₀ where
  pools _ _ h := by cases h
  books := .none own
  own _ _ := rfl

end Process

/-- However many pools a process creates, uses and gives back, in any order: as long as each stays
in its mapping, each is as safe as if it were alone, no operation changes a byte of the process or
of a chunk in use, and what is mapped is exactly the process' own memory and the pools that it
has. -/
theorem heapPools_undisturbed (page : PageSize) (own : Mapped) (m₀ : Bytes) {s : Process}
    (hrun : Guarded (processStep page) (Fitting page) (.start own m₀) s) :
    s.Undisturbed page own m₀ := by
  refine Process.Sound.undisturbed (hrun.invariant (Process.Sound.start page own m₀) ?_)
  exact fun _ _ _ h hfit hstep ↦ h.step hfit hstep

/-- A request whose sizes do not wrap is fitting where its pool is contained. -/
theorem Request.fitting {page : PageSize} (r : Request page) (s : Process) {base : SizeT}
    (hroom : r.align ≤ page.bytes.toNat ∨ r.slack < r.hole ∨ r.lead base.toNat ≤ r.slack) :
    Fitting page s (.create r.nb r.size r.alignment base) := by
  rintro haccepted ⟨haligned, -, hhalf, -⟩
  rw [inPages_createLength page r.nb r.size haccepted, r.mappedLength_eq] at hhalf
  let map : UserMapping page r.allocsize := ⟨base, haligned, hhalf⟩
  refine ⟨r.wellSized, ?_⟩
  rw [r.sizing_wellSized]
  refine Or.inr ?_
  change r.toSizing.first map.base.toNat + r.nrel * r.stride ≤
    map.base.toNat + r.allocsize + r.hole
  rcases r.chunksEnd_le_or map with hend | ⟨hbig, hslack⟩
  · exact hend
  · have halloc : r.allocsize = r.need + r.slack := rfl
    have hexact := (r.chunksEnd_eq map.base.toNat hbig hslack).2
    have hlead : r.lead map.base.toNat = r.lead base.toNat := rfl
    omega

def lowMapping : UserMapping pageSize4k (mappedLength pageSize4k 10 128 0) :=
  ⟨65536, pageSize4k_dvd_base, by decide⟩

/-- The page behind it. -/
def highMapping : UserMapping pageSize4k (mappedLength pageSize4k 10 128 0) :=
  ⟨69632, ⟨17, rfl⟩, by decide⟩

theorem mainRequest_fitting (s : Process) (base : SizeT) :
    Fitting pageSize4k s (.create 10 128 0 base) :=
  mainRequest.fitting s (Or.inl (by decide))

/-- Two pools side by side, the first of which is closed again. -/
theorem heapPools_undisturbed_two :
    ∃ s : Process, s.pools 65536 = none ∧ (s.pools 69632).isSome = true ∧
      s.Undisturbed pageSize4k (fun _ ↦ false) fun _ ↦ 0 := by
  obtain ⟨m₁, -, hfirst⟩ := Process.create_of_free (s := .start (fun _ ↦ false) fun _ ↦ 0)
    zero_accepted mainRequest.wellSized lowMapping fun _ _ ↦ rfl
  set s₁ : Process := ⟨m₁, _, _⟩ with hs₁
  obtain ⟨m₂, -, hsecond⟩ := Process.create_of_free (s := s₁) zero_accepted mainRequest.wellSized
    highMapping (by
      intro x hx
      have halloc : mappedLength pageSize4k 10 128 0 = 4096 := by decide
      change (false || decide (Extent.Has ⟨65536, mappedLength pageSize4k 10 128 0⟩ x)) = false
      change 69632 ≤ x ∧ x < 69632 + mappedLength pageSize4k 10 128 0 at hx
      rw [Bool.false_or, decide_eq_false_iff_not, Extent.Has]
      dsimp only
      omega)
  set s₂ : Process := ⟨m₂, _, _⟩ with hs₂
  have hlive : s₂.pools 65536 = some ⟨m₁, []⟩ := rfl
  have hthird : processStep pageSize4k s₂ (.close 65536) =
      some { s₂ with mapped := heapPoolClose pageSize4k s₂.mem s₂.mapped 65536
                     pools := Function.update s₂.pools 65536 none } := by
    rw [processStep, hlive, Option.map_some]
  exact ⟨_, rfl, rfl, heapPools_undisturbed pageSize4k _ _
    (.next (.close 65536) (.next _ (.next _ .refl (mainRequest_fitting _ 65536) hfirst)
      (mainRequest_fitting s₁ 69632) hsecond) trivial hthird)⟩

end Divers.HeapPool
