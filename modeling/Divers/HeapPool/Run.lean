import Divers.HeapPool.Bounds
import Divers.HeapPool.Refine
import Divers.Library.Transition

/-!
# Runs of a pool

Any sequence of allocations, releases of outstanding chunks and client writes inside the payloads
of outstanding chunks, from the pool that `heap_pool_create` returns.
-/

open Divers.Library

namespace Divers.HeapPool

structure PoolState where
  mem : Bytes
  outstanding : List SizeT    -- addresses handed out and not released

inductive PoolOp where
  | alloc
  | free (addr : SizeT)
  | write (x : SizeT) (b : UInt8)
  deriving DecidableEq, Repr

/-- One operation on the pool at `p`.  Releasing an address that is not outstanding and writing
outside the payloads of outstanding chunks are not operations of a correct client. -/
def poolStep (p : SizeT) (s : PoolState) : PoolOp → Option PoolState
  | .alloc =>
      let (ret, mem) := heapPoolAlloc s.mem p
      if isErrValue ret then some { s with mem := mem }
      else some { mem := mem, outstanding := ret :: s.outstanding }
  | .free addr =>
      if addr ∈ s.outstanding then
        some { mem := heapPoolFree s.mem p addr, outstanding := s.outstanding.erase addr }
      else none
  | .write x b =>
      if ∃ c ∈ s.outstanding,
          c.toNat ≤ x.toNat ∧ x.toNat < c.toNat + (getField s.mem p .hpdSzel).toNat then
        some { s with mem := Function.update s.mem x.toNat b }
      else none

theorem poolStep_alloc (p : SizeT) (s : PoolState) :
    poolStep p s .alloc =
      some { mem := (heapPoolAlloc s.mem p).2,
             outstanding := if isErrValue (heapPoolAlloc s.mem p).1 then s.outstanding
               else (heapPoolAlloc s.mem p).1 :: s.outstanding } := by
  rw [poolStep]
  generalize heapPoolAlloc s.mem p = r
  cases h : isErrValue r.1 <;> simp [h]

/-- The index at which an operation accesses the index array. -/
def indexAccess (m : Bytes) (p : SizeT) : PoolOp → Option SizeT
  | .alloc => if heapPoolNbFree m p = 0 then none else some (getField m p .hpdFirstfree)
  | .free addr => some (chunkHeader m addr)
  | .write _ _ => none

/-- Consecutive allocations, all of which must succeed. -/
def allocMany (p : SizeT) : ℕ → Bytes → Option Bytes
  | 0, m => some m
  | k + 1, m =>
      let (ret, m) := heapPoolAlloc m p
      if isErrValue ret then none else allocMany p k m

/-- What a client of the pool at `p` may rely on in state `s`; `m₀` is the memory at creation. -/
structure Safe (m₀ : Bytes) (p : SizeT) (s : PoolState) : Prop where
  /-- The pool keeps its size and its chunks their addresses. -/
  nrel : getField s.mem p .hpdNrel = getField m₀ p .hpdNrel
  chunks : ∀ i, i < getField m₀ p .hpdNrel → nthChunk s.mem p i = nthChunk m₀ p i
  /-- An allocation that succeeds returns a chunk that is not outstanding. -/
  alloc : isErrValue (heapPoolAlloc s.mem p).1 = false →
    (∃ i, i < getField m₀ p .hpdNrel ∧ (heapPoolAlloc s.mem p).1 = nthChunk m₀ p i) ∧
      (heapPoolAlloc s.mem p).1 ∉ s.outstanding
  /-- It fails exactly when every chunk is outstanding, and then with `-ENOMEM`. -/
  nomem : (heapPoolAlloc s.mem p).1 = errNoMem ↔
    ∀ i, i < getField m₀ p .hpdNrel → nthChunk m₀ p i ∈ s.outstanding
  failure : isErrValue (heapPoolAlloc s.mem p).1 = true → (heapPoolAlloc s.mem p).1 = errNoMem
  /-- The outstanding chunks are counted in `hpd_nralloc`, each once. -/
  outstanding : s.outstanding.Nodup ∧ ∀ c ∈ s.outstanding,
    ∃ i, i < getField m₀ p .hpdNrel ∧ c = nthChunk m₀ p i
  nralloc : (getField s.mem p .hpdNralloc).toNat = s.outstanding.length
  /-- The chain from `hpd_firstfree` visits every other index once and ends at `hpd_nrel`. -/
  chain : ∃ free, Path id (arrayIndex s.mem p) (getField s.mem p .hpdFirstfree) free
      (getField s.mem p .hpdNrel) ∧ free.Nodup ∧
    ∀ i, i ∈ free ↔ i < getField m₀ p .hpdNrel ∧ nthChunk m₀ p i ∉ s.outstanding
  /-- No operation accesses the index array outside `[0, hpd_nrel)`. -/
  access : ∀ op i, poolStep p s op ≠ none → indexAccess s.mem p op = some i →
    i < getField m₀ p .hpdNrel

namespace Layout

variable {L : Layout} {m : Bytes} {p : SizeT} {s : IdStack L.indexes}

/-- No chunk address looks like an error code. -/
def NoErrAddr (L : Layout) : Prop := L.first + L.nrel * L.stride + 4095 < 2 ^ 64

theorem NoErrAddr.isErrValue_chunkAddr (h : L.NoErrAddr) {i : SizeT} (hi : i.toNat < L.nrel) :
    isErrValue (L.chunkAddr i) = false := by
  have hle : L.chunk i.toNat + L.stride ≤ L.first + L.nrel * L.stride := L.chunk_add_le hi
  have hnat := chunkAddr_toNat hi
  have hno : ¬ (-4095 : SizeT).toNat ≤ (L.chunkAddr i).toNat := by
    rw [hnat, show (-4095 : SizeT).toNat = 2 ^ 64 - 4095 from rfl]
    rw [NoErrAddr] at h
    omega
  exact decide_eq_false hno

theorem isErrValue_errNoMem : isErrValue errNoMem = true := rfl

/-- `k` allocations in a row succeed exactly when the stack holds `k` indexes. -/
theorem allocMany_isSome_iff (hno : L.NoErrAddr) (h : L.Represents m p s) (k : ℕ) :
    (allocMany p k m).isSome = true ↔ k ≤ s.free.length := by
  induction k generalizing m s with
  | zero => simp [allocMany]
  | succ k ih =>
      cases hfree : s.free with
      | nil => simp [allocMany, h.alloc_empty hfree, isErrValue_errNoMem]
      | cons i rest =>
          rcases h.alloc_cons hfree with ⟨-, hret, hnext⟩
          have hi : i.toNat < L.nrel := h.free_lt (by rw [hfree]; exact List.mem_cons_self)
          rw [allocMany]
          simp only [hret, hno.isErrValue_chunkAddr hi, Bool.false_eq_true, if_false]
          rw [ih hnext, List.length_cons, Nat.succ_le_succ_iff]
          rfl

/-- The run invariant: the bytes represent a stack whose handed-out indexes are the outstanding
addresses. -/
def Tracks (L : Layout) (p : SizeT) (s : PoolState) : Prop :=
  ∃ a : IdStack L.indexes, L.Represents s.mem p a ∧ s.outstanding = a.out.map L.chunkAddr

theorem Represents.outstanding_mem {a : IdStack L.indexes} (h : L.Represents m p a) {c : SizeT}
    (hc : c ∈ a.out.map L.chunkAddr) : ∃ i ∈ a.out, i.toNat < L.nrel ∧ c = L.chunkAddr i := by
  rcases List.mem_map.mp hc with ⟨i, hi, rfl⟩
  exact ⟨i, hi, h.out_lt hi, rfl⟩

theorem Represents.chunkAddr_mem_iff {a : IdStack L.indexes} (h : L.Represents m p a) {i : SizeT}
    (hi : i.toNat < L.nrel) : L.chunkAddr i ∈ a.out.map L.chunkAddr ↔ i ∈ a.out := by
  refine ⟨fun hc ↦ ?_, fun hout ↦ List.mem_map.mpr ⟨i, hout, rfl⟩⟩
  rcases h.outstanding_mem hc with ⟨j, hj, hjlt, heq⟩
  exact chunkAddr_inj hi hjlt heq ▸ hj

theorem tracks_step (hno : L.NoErrAddr) {t u : PoolState} {op : PoolOp} (ht : L.Tracks p t)
    (hstep : poolStep p t op = some u) : L.Tracks p u := by
  rcases ht with ⟨a, hrep, hout⟩
  cases op with
  | alloc =>
      rw [poolStep_alloc, Option.some.injEq] at hstep
      cases hfree : a.free with
      | nil =>
          rw [hrep.alloc_empty hfree, isErrValue_errNoMem, if_pos rfl] at hstep
          subst hstep
          exact ⟨a, hrep, hout⟩
      | cons i rest =>
          rcases hrep.alloc_cons hfree with ⟨-, hret, hnext⟩
          have hi : i.toNat < L.nrel := hrep.free_lt (by rw [hfree]; exact List.mem_cons_self)
          rw [hret, hno.isErrValue_chunkAddr hi, if_neg Bool.false_ne_true, hout] at hstep
          subst hstep
          refine ⟨a.pop i rest hfree, ?_, ?_⟩
          · dsimp only
            exact hnext
          · dsimp only [IdStack.pop]
            rw [List.map_cons]
  | free addr =>
      simp only [poolStep, Option.ite_none_right_eq_some, Option.some.injEq] at hstep
      rcases hstep with ⟨hmem, rfl⟩
      rw [hout] at hmem
      rcases hrep.outstanding_mem hmem with ⟨i, hi, hlt, rfl⟩
      refine ⟨a.push i hi, (hrep.free_mem hi).2, ?_⟩
      simp only [hout, IdStack.push]
      -- erasing an address is erasing its index: addresses of different chunks differ
      exact map_erase_of_inj fun j hj heq ↦ chunkAddr_inj (hrep.out_lt hj) hlt heq
  | write x b =>
      simp only [poolStep, Option.ite_none_right_eq_some, Option.some.injEq] at hstep
      rcases hstep with ⟨⟨c, hc, hlo, hhi⟩, rfl⟩
      rw [hout] at hc
      rcases hrep.outstanding_mem hc with ⟨i, hi, hlt, rfl⟩
      rw [chunkAddr_toNat hlt] at hlo hhi
      rw [hrep.desc.szel] at hhi
      exact ⟨a, hrep.client_write hlt hlo hhi b, hout⟩

/-- A tracked state is safe: every part is read off the abstract stack. -/
theorem safe_of_tracks {m₀ : Bytes} {t : PoolState} (hno : L.NoErrAddr)
    (h₀ : L.Describes m₀ p) (ht : L.Tracks p t) : Safe m₀ p t := by
  rcases ht with ⟨a, hrep, hout⟩
  have hnodup := L.indexes_nodup
  have hlt : ∀ {i : SizeT}, i < getField m₀ p .hpdNrel ↔ i.toNat < L.nrel := by
    intro i
    rw [UInt64.lt_iff_toNat_lt, h₀.nrel]
  -- outstanding addresses are handed-out indexes
  have hmem : ∀ {i : SizeT}, i.toNat < L.nrel → (nthChunk m₀ p i ∈ t.outstanding ↔ i ∈ a.out) := by
    intro i hi
    rw [h₀.nthChunk_eq hi, hout, hrep.chunkAddr_mem_iff hi]
  have hfreeMem : ∀ {i : SizeT}, i ∈ a.free ↔ i.toNat < L.nrel ∧ i ∉ a.out := by
    intro i
    rw [a.mem_free_iff hnodup, L.mem_indexes]
  -- what `heap_pool_alloc` returns, with and without a free index
  have hret : (a.free = [] ∧ (heapPoolAlloc t.mem p).1 = errNoMem) ∨
      ∃ i ∈ a.free, getField t.mem p .hpdFirstfree = i ∧
        (heapPoolAlloc t.mem p).1 = nthChunk m₀ p i ∧
        isErrValue (heapPoolAlloc t.mem p).1 = false := by
    cases hfree : a.free with
    | nil => exact Or.inl ⟨rfl, by rw [hrep.alloc_empty hfree]⟩
    | cons i rest =>
        rcases hrep.alloc_cons hfree with ⟨hhead, hret, -⟩
        have hi : i.toNat < L.nrel := hrep.free_lt (by rw [hfree]; exact List.mem_cons_self)
        refine Or.inr ⟨i, List.mem_cons_self, hhead, ?_, ?_⟩
        · rw [hret, h₀.nthChunk_eq hi]
        · rw [hret, hno.isErrValue_chunkAddr hi]
  refine ⟨?_, fun i hi ↦ ?_, fun hok ↦ ?_, ?_, fun herr ↦ ?_, ⟨?_, fun c hc ↦ ?_⟩, ?_, ?_, ?_⟩
  · exact UInt64.toNat_inj.mp (hrep.desc.nrel.trans h₀.nrel.symm)
  · rw [hrep.desc.nthChunk_eq (hlt.mp hi), h₀.nthChunk_eq (hlt.mp hi)]
  · rcases hret with ⟨-, hnomem⟩ | ⟨i, hi, -, haddr, -⟩
    · rw [hnomem, isErrValue_errNoMem] at hok
      cases hok
    · have hi := hfreeMem.mp hi
      exact ⟨⟨i, hlt.mpr hi.1, haddr⟩, by rw [haddr, hmem hi.1]; exact hi.2⟩
  · rcases hret with ⟨hempty, hnomem⟩ | ⟨i, hi, -, haddr, hok⟩
    · refine iff_of_true hnomem fun i hi ↦ (hmem (hlt.mp hi)).mpr ?_
      by_contra hfree
      have := hfreeMem.mpr ⟨hlt.mp hi, hfree⟩
      rw [hempty] at this
      cases this
    · have hi := hfreeMem.mp hi
      refine iff_of_false (fun hnomem ↦ ?_) fun hall ↦ ?_
      · rw [hnomem, isErrValue_errNoMem] at hok
        cases hok
      · exact hi.2 ((hmem hi.1).mp (hall i (hlt.mpr hi.1)))
  · rcases hret with ⟨-, hnomem⟩ | ⟨i, hi, -, -, hok⟩
    · exact hnomem
    · rw [hok] at herr
      cases herr
  · rw [hout]
    exact (a.out_nodup hnodup).map_on fun i hi j hj heq ↦
      chunkAddr_inj (hrep.out_lt hi) (hrep.out_lt hj) heq
  · rw [hout] at hc
    rcases hrep.outstanding_mem hc with ⟨i, -, hi, rfl⟩
    exact ⟨i, hlt.mpr hi, (h₀.nthChunk_eq hi).symm⟩
  · rw [hrep.nralloc, hout, List.length_map]
  · refine ⟨a.free, hrep.chain, a.free_nodup hnodup, fun i ↦ ?_⟩
    rw [hfreeMem, hlt]
    exact and_congr_right fun hi ↦ not_congr (hmem hi).symm
  · intro op i henabled haccess
    cases op with
    | alloc =>
        rw [indexAccess, Option.ite_none_left_eq_some] at haccess
        rcases haccess with ⟨hne, hi⟩
        rcases hret with ⟨hempty, -⟩ | ⟨j, hj, hhead, -, -⟩
        · exact absurd (hrep.nbFree_eq_zero_iff.mpr hempty) hne
        · rw [hhead, Option.some.injEq] at hi
          exact hi ▸ hlt.mpr (hfreeMem.mp hj).1
    | free addr =>
        simp only [poolStep, ne_eq, ite_eq_right_iff, reduceCtorEq, imp_false, not_not] at henabled
        rw [hout] at henabled
        rcases hrep.outstanding_mem henabled with ⟨j, hj, hjlt, rfl⟩
        rw [indexAccess, (hrep.free_mem hj).1, Option.some.injEq] at haccess
        exact haccess ▸ hlt.mpr hjlt
    | write x b => cases haccess

end Layout

/-! ## From the created pool -/

namespace Sizing

variable {page : PageSize} (s : Sizing)

/-- The index array of a fresh pool links every index to its successor. -/
theorem Created.chain {base : SizeT} {h : s.NoAddrWrap base} {m m' : Bytes}
    (hm' : s.Created h m m') (k n : ℕ) (hkn : k + n = s.nrel) :
    Path id (arrayIndex m' base) (UInt64.ofNat k) ((List.range' k n).map UInt64.ofNat)
      (UInt64.ofNat s.nrel) := by
  induction n generalizing k with
  | zero => rw [← hkn]; rfl
  | succ n ih =>
      rw [List.range'_succ, List.map_cons, path_cons]
      refine ⟨rfl, ?_⟩
      have hnrel : s.nrel < 2 ^ 61 := (s.layout h).nrel_lt
      have hword : (UInt64.ofNat k).toNat = k := by
        rw [UInt64.toNat_ofNat', Nat.mod_eq_of_lt (by omega)]
      -- the loop stored `k + 1` in the slot of `k`
      have hslot := hm'.desc.slotAddr_toNat (i := UInt64.ofNat k) (by
        rw [hword]
        show k ≤ s.nrel
        omega)
      rw [arrayIndex, load64, hslot, hword, hm'.slots k (by omega)]
      exact ih (k + 1) (by omega)

/-- A created pool represents the stack of all its chunk indexes. -/
theorem Created.represents {base : SizeT} {h : s.NoAddrWrap base} {m m' : Bytes}
    (hm' : s.Created h m m') :
    (s.layout h).Represents m' base (IdStack.fresh (s.layout h).indexes) := by
  refine ⟨hm'.desc, by rw [hm'.nralloc]; rfl, ?_, hm'.headers⟩
  have hnrel : getField m' base .hpdNrel = UInt64.ofNat s.nrel := by
    rw [← UInt64.ofNat_toNat (x := getField m' base .hpdNrel), hm'.desc.nrel]
    rfl
  have hchain := hm'.chain s 0 s.nrel (Nat.zero_add _)
  rw [hm'.firstfree, hnrel]
  rw [← List.range_eq_range'] at hchain
  exact hchain

/-- The alignment is a power of two below `2 ^ 63`. -/
theorem align_le_two_pow (map : UserMapping page s.allocsize) : s.align ≤ 2 ^ 62 := by
  have hfits := map.fits
  have hroom := s.align_add_le
  rcases s.align_eq_two_pow with ⟨k, -, hk⟩
  rw [hk] at hroom ⊢
  have : 2 ^ k < 2 ^ 63 := by omega
  rw [Nat.pow_lt_pow_iff_right (by decide)] at this
  exact Nat.pow_le_pow_right (by decide) (by omega)

theorem noErrAddr (map : UserMapping page s.allocsize) :
    (s.layout (s.noAddrWrap map)).NoErrAddr := by
  have hend := s.chunksEnd_lt map.base.toNat
  have hfits := map.fits
  have halign := s.align_le_two_pow map
  change s.first map.base.toNat + s.nrel * s.stride + 4095 < 2 ^ 64
  omega

end Sizing

namespace Request

variable {page : PageSize} (r : Request page)

/-- For every request that does not wrap, every state that a run of allocations, releases of
outstanding chunks and client writes in outstanding payloads reaches from the created pool is
safe. -/
theorem heapPool_run_safe (map : UserMapping page r.allocsize) (m : Bytes) :
    ∃ m₀, heapPoolCreate page.bytes (fun _ ↦ some map.base) m r.nb r.size r.alignment =
        .ok (map.base, m₀) ∧
      ∀ s, Reachable (poolStep map.base) ⟨m₀, []⟩ s → Safe m₀ map.base s := by
  rcases r.heapPoolCreate_spec (r.toSizing.noAddrWrap map) m with ⟨m₀, hrun, hm₀⟩
  have hno := r.toSizing.noErrAddr map
  refine ⟨m₀, hrun, fun s hreach ↦ Layout.safe_of_tracks hno hm₀.desc ?_⟩
  refine hreach.invariant ⟨IdStack.fresh _, hm₀.represents, rfl⟩ ?_
  exact fun t op u ht _ hstep ↦ Layout.tracks_step hno ht hstep

/-- The created pool serves the `nb` chunks it was created for exactly when page rounding gives
back the hole that the byte count leaves out. -/
theorem heapPoolCreate_serves_iff (map : UserMapping page r.allocsize) (m : Bytes) :
    ∃ m₀, heapPoolCreate page.bytes (fun _ ↦ some map.base) m r.nb r.size r.alignment =
        .ok (map.base, m₀) ∧
      ((r.nb ≤ getField m₀ map.base .hpdNrel ∧
          (allocMany map.base r.nb.toNat m₀).isSome = true) ↔ r.hole ≤ r.slack) := by
  rcases r.heapPoolCreate_spec (r.toSizing.noAddrWrap map) m with ⟨m₀, hrun, hm₀⟩
  have hno := r.toSizing.noErrAddr map
  have hnrel : (getField m₀ map.base .hpdNrel).toNat = r.nrel := hm₀.desc.nrel
  refine ⟨m₀, hrun, ?_⟩
  have hlen : (IdStack.fresh (r.toSizing.layout
      (r.toSizing.noAddrWrap map)).indexes).free.length = r.nrel := Layout.indexes_length _
  rw [Layout.allocMany_isSome_iff hno hm₀.represents, hlen, UInt64.le_iff_toNat_le, hnrel,
    and_self, r.nb_le_nrel_iff]

end Request

/-- One chunk of 4008 bytes: descriptor, index word, header and payload take a page exactly. -/
def fullPageRequest : Request pageSize4k where
  nb := 1
  size := 4008
  alignment := 0
  nb_pos := one_toNat_pos
  accepted := zero_accepted
  fits := by decide

def fullPageMapping : UserMapping pageSize4k fullPageRequest.allocsize :=
  ⟨65536, pageSize4k_dvd_base, by decide⟩

/-- The pool created for it has no chunk at all. -/
theorem heapPoolCreate_short :
    ∃ m₀, heapPoolCreate 4096 (fun _ ↦ some 65536) (fun _ ↦ 0) 1 4008 0 = .ok (65536, m₀) ∧
      ¬ (1 : SizeT) ≤ getField m₀ 65536 .hpdNrel ∧ (heapPoolAlloc m₀ 65536).1 = errNoMem := by
  have h := fullPageRequest.toSizing.noAddrWrap fullPageMapping
  rcases fullPageRequest.heapPoolCreate_spec h fun _ ↦ 0 with ⟨m₀, hrun, hm₀⟩
  have hnrel : (getField m₀ fullPageMapping.base .hpdNrel).toNat = 0 :=
    hm₀.desc.nrel.trans (by change fullPageRequest.nrel = 0; decide)
  have hempty : (IdStack.fresh (fullPageRequest.toSizing.layout h).indexes).free = [] := by
    apply List.eq_nil_of_length_eq_zero
    exact (Layout.indexes_length _).trans (by change fullPageRequest.nrel = 0; decide)
  refine ⟨m₀, hrun, fun hle ↦ ?_, congrArg Prod.fst (hm₀.represents.alloc_empty hempty)⟩
  have hle : 1 ≤ (getField m₀ fullPageMapping.base .hpdNrel).toNat := UInt64.le_iff_toNat_le.mp hle
  omega

end Divers.HeapPool
