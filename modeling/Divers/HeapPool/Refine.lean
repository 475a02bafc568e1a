import Divers.HeapPool.Layout
import Divers.Library.IdStack
import Divers.Library.LinkedPath

/-!
# The pool refines a stack of chunk indexes

`Represents L m p s` relates the bytes of a pool to the abstract stack `s` of its free chunk
indexes: the free list threaded through the index array is the stack, and every header still holds
its chunk's index.  `heap_pool_alloc` pops, `heap_pool_free` pushes, and a client writing in a
payload changes nothing.
-/

open Divers.Library

namespace Divers.HeapPool

namespace Layout

variable (L : Layout)

/-- The chunk indexes of the pool. -/
def indexes : List SizeT := (List.range L.nrel).map UInt64.ofNat

theorem nrel_lt : L.nrel < 2 ^ 61 := by
  have := L.index_le
  have := L.fits
  omega

theorem mem_indexes {i : SizeT} : i ∈ L.indexes ↔ i.toNat < L.nrel := by
  have hnrel := L.nrel_lt
  rw [indexes, List.mem_map]
  constructor
  · intro hexists
    obtain ⟨k, hk, rfl⟩ := hexists
    rw [List.mem_range] at hk
    rw [UInt64.toNat_ofNat', Nat.mod_eq_of_lt (by omega)]
    exact hk
  · exact fun h ↦ ⟨i.toNat, List.mem_range.mpr h, UInt64.ofNat_toNat⟩

theorem indexes_nodup : L.indexes.Nodup := by
  have hnrel := L.nrel_lt
  refine List.Nodup.map_on (fun a ha b hb hab ↦ ?_) List.nodup_range
  rw [List.mem_range] at ha hb
  have := congrArg UInt64.toNat hab
  rwa [UInt64.toNat_ofNat', UInt64.toNat_ofNat', Nat.mod_eq_of_lt (by omega),
    Nat.mod_eq_of_lt (by omega)] at this

theorem indexes_length : L.indexes.length = L.nrel := by
  rw [indexes, List.length_map, List.length_range]

/-- The address of chunk `i`. -/
def chunkAddr (i : SizeT) : SizeT := UInt64.ofNat (L.chunk i.toNat)

variable {L} {m m' : Bytes} {p : SizeT}

theorem chunkAddr_toNat {i : SizeT} (hi : i.toNat < L.nrel) :
    (L.chunkAddr i).toNat = L.chunk i.toNat := by
  have := L.chunk_add_lt hi
  rw [chunkAddr, UInt64.toNat_ofNat', Nat.mod_eq_of_lt (by omega)]

theorem chunkAddr_inj {i j : SizeT} (hi : i.toNat < L.nrel) (hj : j.toNat < L.nrel)
    (h : L.chunkAddr i = L.chunkAddr j) : i = j := by
  have := congrArg UInt64.toNat h
  rw [chunkAddr_toNat hi, chunkAddr_toNat hj] at this
  exact UInt64.toNat_inj.mp (L.chunk_inj this)

theorem Describes.nthChunk_eq (h : L.Describes m p) {i : SizeT} (hi : i.toNat < L.nrel) :
    nthChunk m p i = L.chunkAddr i :=
  UInt64.toNat_inj.mp ((h.nthChunk_toNat hi).trans (chunkAddr_toNat hi).symm)

variable (L) in
/-- The bytes of the pool represent the stack `s` of chunk indexes. -/
structure Represents (m : Bytes) (p : SizeT) (s : IdStack L.indexes) : Prop where
  desc : L.Describes m p
  nralloc : (getField m p .hpdNralloc).toNat = s.out.length
  chain : Path id (arrayIndex m p) (getField m p .hpdFirstfree) s.free (getField m p .hpdNrel)
  headers : ∀ i, i < L.nrel → L.Headed m i

namespace Represents

variable {s : IdStack L.indexes}

theorem free_lt (_ : L.Represents m p s) {i : SizeT} (hi : i ∈ s.free) : i.toNat < L.nrel :=
  L.mem_indexes.mp (s.mem_iff.mp (Or.inl hi))

theorem out_lt (_ : L.Represents m p s) {i : SizeT} (hi : i ∈ s.out) : i.toNat < L.nrel :=
  L.mem_indexes.mp (s.mem_iff.mp (Or.inr hi))

theorem length_add (_ : L.Represents m p s) : s.free.length + s.out.length = L.nrel := by
  rw [s.length_add, L.indexes_length]

theorem nbFree_toNat (h : L.Represents m p s) :
    (heapPoolNbFree m p).toNat = s.free.length := by
  have hlen := h.length_add
  have hnrel := h.desc.nrel
  have hnralloc := h.nralloc
  rw [heapPoolNbFree, toNat_sub_of_le (by omega)]
  omega

theorem nbFree_eq_zero_iff (h : L.Represents m p s) : heapPoolNbFree m p = 0 ↔ s.free = [] := by
  rw [← UInt64.toNat_inj, h.nbFree_toNat, UInt64.toNat_zero, List.length_eq_zero_iff]

/-- Changing the allocation counter and the head of the free list in the descriptor leaves the
index array and the headers alone. -/
theorem of_descriptor (h : L.Describes m p) (hheaders : ∀ i, i < L.nrel → L.Headed m i)
    {firstfree nralloc : SizeT} (hnralloc : nralloc.toNat = s.out.length)
    (hchain : Path id (arrayIndex m p) firstfree s.free (getField m p .hpdNrel)) :
    L.Represents (setField (setField m p .hpdFirstfree firstfree) p .hpdNralloc nralloc) p s := by
  have hp := h.desc_le
  have hindex := L.index_le
  have hbase := h.base
  have hdesc := (h.setField (v := firstfree) (Or.inl rfl)).setField (v := nralloc) (Or.inr rfl)
  refine ⟨hdesc, ?_, ?_, fun i hi ↦ (hheaders i hi).congr fun x hlo _ ↦ ?_⟩
  · rw [getField_setField hp, if_pos rfl, hnralloc]
  · simp only [getField_setField hp, reduceCtorEq, if_false, if_true]
    refine hchain.congr fun i hi ↦ ?_
    have hi : i.toNat < L.nrel := L.mem_indexes.mp (s.mem_iff.mp (Or.inl hi))
    have hslot : p.toNat + 72 ≤ (arrayIndexAddr p i).toNat := by
      rw [h.slotAddr_toNat (Nat.le_of_lt hi), slot]
      omega
    rw [arrayIndex, load64_setField hp _ hslot, load64_setField hp _ hslot, arrayIndex]
  · have := L.first_le_chunk i
    rw [setField_outside hp _ (by omega), setField_outside hp _ (by omega)]

/-- With no free index `heap_pool_alloc` fails and leaves the pool as it is. -/
theorem alloc_empty (h : L.Represents m p s) (hfree : s.free = []) :
    heapPoolAlloc m p = (errNoMem, m) := by
  rw [heapPoolAlloc, if_pos (h.nbFree_eq_zero_iff.mpr hfree)]

/-- Otherwise it hands out the chunk on top of the stack. -/
theorem alloc_cons (h : L.Represents m p s) {i : SizeT} {rest : List SizeT}
    (hfree : s.free = i :: rest) :
    getField m p .hpdFirstfree = i ∧ (heapPoolAlloc m p).1 = L.chunkAddr i ∧
      L.Represents (heapPoolAlloc m p).2 p (s.pop i rest hfree) := by
  have hp := h.desc.desc_le
  have hi : i.toNat < L.nrel := h.free_lt (hfree ▸ List.mem_cons_self)
  have hchain := h.chain
  rw [hfree, path_cons] at hchain
  rcases hchain with ⟨hhead, hrest⟩
  have hne : ¬ heapPoolNbFree m p = 0 := fun hz ↦ by
    have := h.nbFree_eq_zero_iff.mp hz
    rw [hfree] at this
    cases this
  -- the counter does not wrap: there are fewer than `2 ^ 61` chunks
  have hcount : (getField m p .hpdNralloc + 1).toNat = (i :: s.out).length := by
    have hlen := h.length_add
    have hnralloc := h.nralloc
    have := L.nrel_lt
    rw [toNat_add_of_lt (b := 1) (show _ + 1 < _ by omega), hnralloc]
    rfl
  refine ⟨hhead, ?_, ?_⟩
  · rw [heapPoolAlloc, if_neg hne, hhead]
    exact ((h.desc.setField (Or.inl rfl)).setField (Or.inr rfl)).nthChunk_eq hi
  · rw [heapPoolAlloc, if_neg hne]
    simp only [getField_setField hp, reduceCtorEq, if_false]
    rw [hhead]
    exact of_descriptor (s := s.pop i rest hfree) h.desc h.headers hcount hrest

/-- Releasing a chunk that is handed out pushes its index. -/
theorem free_mem (h : L.Represents m p s) {i : SizeT} (hi : i ∈ s.out) :
    chunkHeader m (L.chunkAddr i) = i ∧
      L.Represents (heapPoolFree m p (L.chunkAddr i)) p (s.push i hi) := by
  have hp := h.desc.desc_le
  have hlt := h.out_lt hi
  have hbase := h.desc.base
  have hindex := L.index_le
  -- the header still holds the index
  have hhead : chunkHeader m (L.chunkAddr i) = i :=
    UInt64.toNat_inj.mp ((h.headers _ hlt).chunkHeader_toNat (chunkAddr_toNat hlt))
  have hslot := h.desc.slotAddr_toNat (Nat.le_of_lt hlt)
  have hslotLe := L.slot_add_le hlt
  have hraw : p.toNat + 72 ≤ (arrayIndexAddr p i).toNat := by
    rw [hslot, slot]
    omega
  set m₁ := store64 m (arrayIndexAddr p i) (getField m p .hpdFirstfree) with hm₁
  have hfield : ∀ f, getField m₁ p f = getField m p f := fun f ↦ getField_store64 hp m hraw
  have hdesc₁ : L.Describes m₁ p := h.desc.congr fun x hx ↦ store64_outside m (by omega)
  have hheaders₁ : ∀ j, j < L.nrel → L.Headed m₁ j := fun j hj ↦ by
    have := L.first_le_chunk j
    exact (h.headers j hj).congr fun x hlo _ ↦ store64_outside m (by omega)
  -- `array_index[i]` now links to the old head, and the rest of the list is as before
  have hchain : Path id (arrayIndex m₁ p) i (i :: s.free) (getField m₁ p .hpdNrel) := by
    refine ⟨rfl, ?_⟩
    rw [hfield, arrayIndex, hm₁, load64_store64_same, ← hm₁]
    refine h.chain.congr fun j hj ↦ ?_
    have hij : i.toNat ≠ j.toNat := fun heq ↦
      s.not_mem_out L.indexes_nodup hj (UInt64.toNat_inj.mp heq ▸ hi)
    rw [arrayIndex, hm₁, load64_store64_disjoint, arrayIndex]
    rw [hslot, h.desc.slotAddr_toNat (Nat.le_of_lt (h.free_lt hj)), slot, slot]
    omega
  have hcount : (getField m₁ p .hpdNralloc - 1).toNat = (s.out.erase i).length := by
    have hpos := List.length_pos_of_mem hi
    rw [hfield, toNat_sub_one (by rw [h.nralloc]; exact hpos), h.nralloc,
      List.length_erase_of_mem hi]
  refine ⟨hhead, ?_⟩
  rw [heapPoolFree, hhead]
  simp only [← hm₁, getField_setField hp, reduceCtorEq, if_false]
  exact of_descriptor (s := s.push i hi) hdesc₁ hheaders₁ hcount hchain

/-- A write inside the payload of some chunk is invisible to the library. -/
theorem client_write (h : L.Represents m p s) {i : SizeT} (hi : i.toNat < L.nrel) {x : ℕ}
    (hlo : L.chunk i.toNat ≤ x) (hhi : x < L.chunk i.toNat + L.size) (b : UInt8) :
    L.Represents (Function.update m x b) p s := by
  have hindex := L.index_le
  have hfirst := L.first_le_chunk i.toNat
  have hbase := h.desc.base
  have hbelow : ∀ y, y < L.first → Function.update m x b y = m y :=
    fun y hy ↦ Function.update_of_ne (by omega) b m
  have hdesc : L.Describes (Function.update m x b) p :=
    h.desc.congr fun y hy ↦ hbelow y (by omega)
  have hfield : ∀ f, getField (Function.update m x b) p f = getField m p f :=
    getField_congr h.desc.desc_le fun y hy ↦ hbelow y (by omega)
  refine ⟨hdesc, by rw [hfield, h.nralloc], ?_, fun j hj ↦ (h.headers j hj).congr ?_⟩
  · rw [hfield, hfield]
    refine h.chain.congr fun j hj ↦ load64_congr fun y _ hy ↦ hbelow y ?_
    -- the index array ends in front of the first chunk
    have hslot := L.slot_add_le (h.free_lt hj)
    rw [h.desc.slotAddr_toNat (Nat.le_of_lt (h.free_lt hj))] at hy
    omega
  · intro y hylo hyhi
    -- a payload ends in front of the next header
    have hne : y ≠ x := by
      have hsize := L.size_le
      rcases Nat.lt_trichotomy i.toNat j with hlt | rfl | hgt
      · have := L.chunk_add_le hlt
        omega
      · omega
      · have := L.chunk_add_le hgt
        omega
    exact Function.update_of_ne hne b m

end Represents

end Layout

end Divers.HeapPool
