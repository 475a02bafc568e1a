import Divers.HeapPool.Run
import Divers.Library.AddressSpace

/-!
# The bytes that matter to a pool

A pool is determined by the bytes from its descriptor to its last payload, and its operations change
no other ones: the library the descriptor and the index array, a client the payloads.
-/

open Divers.Library

namespace Divers.HeapPool

theorem heapPoolAlloc_outside {p : SizeT} (hp : p.toNat + 72 ≤ 2 ^ 64) (m : Bytes) {x : ℕ}
    (hx : x < p.toNat ∨ p.toNat + 72 ≤ x) : (heapPoolAlloc m p).2 x = m x := by
  rw [heapPoolAlloc]
  split
  next => rfl
  next => exact (setField_outside hp _ hx).trans (setField_outside hp _ hx)

theorem getField_heapPoolAlloc {p : SizeT} (hp : p.toNat + 72 ≤ 2 ^ 64) (m : Bytes) {f : DescField}
    (hfirst : f ≠ .hpdFirstfree) (hcount : f ≠ .hpdNralloc) :
    getField (heapPoolAlloc m p).2 p f = getField m p f := by
  rw [heapPoolAlloc]
  split
  next => rfl
  next => rw [getField_setField hp, if_neg hcount, getField_setField hp, if_neg hfirst]

section Free

variable {p addr : SizeT} (hp : p.toNat + 72 ≤ 2 ^ 64) (m : Bytes)
include hp

theorem heapPoolFree_outside {x : ℕ} (hx : x < p.toNat ∨ p.toNat + 72 ≤ x)
    (hslot : x < (arrayIndexAddr p (chunkHeader m addr)).toNat ∨
      (arrayIndexAddr p (chunkHeader m addr)).toNat + 8 ≤ x) :
    heapPoolFree m p addr x = m x := by
  rw [heapPoolFree, setField_outside hp _ hx, setField_outside hp _ hx, store64_outside m hslot]

theorem getField_heapPoolFree {f : DescField} (hfirst : f ≠ .hpdFirstfree)
    (hcount : f ≠ .hpdNralloc)
    (hslot : p.toNat + 72 ≤ (arrayIndexAddr p (chunkHeader m addr)).toNat) :
    getField (heapPoolFree m p addr) p f = getField m p f := by
  rw [heapPoolFree, getField_setField hp, if_neg hcount, getField_setField hp, if_neg hfirst,
    getField_store64 hp m hslot]

end Free

namespace Layout

variable {L : Layout} {len : ℕ} {m m' : Bytes} {p : SizeT}

variable (L) in
/-- All parts of the pool end within its first `len` bytes. -/
def Within (len : ℕ) : Prop := ∀ a, L.Has a → L.start a + L.length a ≤ L.base + len

theorem base_le_start (L : Layout) (a : Region) : L.base ≤ L.start a := by
  have hindex := L.index_le
  cases a with
  | desc => exact Nat.le_refl _
  | index i =>
      rw [start, slot]
      omega
  | header i =>
      have := L.first_le_chunk i.toNat
      rw [start]
      omega
  | payload i =>
      have := L.first_le_chunk i.toNat
      rw [start]
      omega

/-- The bytes of each part are among the pool's. -/
theorem Within.has (hlen : L.Within len) {a : Region} (ha : L.Has a) {x : ℕ} (hlo : L.start a ≤ x)
    (hhi : x < L.start a + L.length a) : Extent.Has ⟨L.base, len⟩ x := by
  have hbase := L.base_le_start a
  have hend := hlen a ha
  exact ⟨Nat.le_trans hbase hlo, Nat.lt_of_lt_of_le hhi hend⟩

section Same

variable (hlen : L.Within len) (hsame : Extent.Same ⟨L.base, len⟩ m m')
include hlen hsame

theorem Describes.getField_same (h : L.Describes m p) (f : DescField) :
    getField m' p f = getField m p f := by
  have hoffset := f.offset_le
  have hbase := h.base
  refine load64_congr fun x hlo hhi ↦ hsame x (hlen.has (a := .desc) trivial ?_ ?_)
  · rw [fieldAddr_toNat h.desc_le] at hlo
    rw [start]
    omega
  · rw [fieldAddr_toNat h.desc_le] at hhi
    rw [start, length]
    omega

theorem Describes.same (h : L.Describes m p) : L.Describes m' p := by
  have hfield := h.getField_same hlen hsame
  exact ⟨h.base, by rw [hfield, h.nrel], by rw [hfield, h.szel], by rw [hfield, h.szck],
    by rw [hfield, h.offfirstelem]⟩

theorem Describes.arrayIndex_same (h : L.Describes m p) {i : SizeT} (hi : i.toNat < L.nrel) :
    arrayIndex m' p i = arrayIndex m p i := by
  have hslot := h.slotAddr_toNat (Nat.le_of_lt hi)
  refine load64_congr fun x hlo hhi ↦ hsame x (hlen.has (a := .index i) hi ?_ ?_)
  · rwa [hslot] at hlo
  · rwa [hslot] at hhi

theorem Headed.same {i : ℕ} (hi : i < L.nrel) (h : L.Headed m i) : L.Headed m' i := by
  have hnrel := L.nrel_lt
  have hword : (UInt64.ofNat i).toNat = i := by
    rw [UInt64.toNat_ofNat', Nat.mod_eq_of_lt (by omega)]
  refine h.congr fun x hlo hhi ↦ hsame x (hlen.has (a := .header (UInt64.ofNat i)) ?_ ?_ ?_)
  · show (UInt64.ofNat i).toNat < L.nrel
    rwa [hword]
  · rwa [start, hword]
  · rw [start, length, hword]
    omega

/-- A pool is determined by its own bytes. -/
theorem Tracks.same {out : List SizeT} (h : L.Tracks p ⟨m, out⟩) : L.Tracks p ⟨m', out⟩ := by
  obtain ⟨a, hrep, hout⟩ := h
  have hfield := hrep.desc.getField_same hlen hsame
  refine ⟨a, ⟨hrep.desc.same hlen hsame, ?_, ?_, fun i hi ↦ ?_⟩, hout⟩
  · dsimp only
    rw [hfield]
    exact hrep.nralloc
  · dsimp only
    rw [hfield, hfield]
    exact hrep.chain.congr fun i hi ↦ hrep.desc.arrayIndex_same hlen hsame (hrep.free_lt hi)
  · exact (hrep.headers i hi).same hlen hsame hi

end Same

theorem Within.index_le (hlen : L.Within len) : 72 + 8 * L.nrel ≤ len := by
  have hnrel := L.nrel_lt
  rcases Nat.eq_zero_or_pos L.nrel with hz | hpos
  · have hdesc : L.base + 72 ≤ L.base + len := hlen .desc trivial
    omega
  · have hword : (UInt64.ofNat (L.nrel - 1)).toNat = L.nrel - 1 := by
      rw [UInt64.toNat_ofNat', Nat.mod_eq_of_lt (by omega)]
    have hlast := hlen (.index (UInt64.ofNat (L.nrel - 1))) (by rw [Has, hword]; omega)
    rw [start, length, slot, hword] at hlast
    omega

theorem Within.payload (hlen : L.Within len) {i : SizeT} (hi : i.toNat < L.nrel) :
    L.chunk i.toNat + L.size ≤ L.base + len :=
  hlen (.payload i) hi

section Step

variable {t u : PoolState} {op : PoolOp} (ht : L.Tracks p t)
include ht

/-- The library writes in the descriptor and the index array only. -/
theorem Tracks.library_outside (hstep : poolStep p t op = some u)
    (hop : ∀ y b, op ≠ .write y b) {x : ℕ} (hx : x < L.base ∨ L.base + 72 + 8 * L.nrel ≤ x) :
    u.mem x = t.mem x := by
  obtain ⟨a, hrep, hout⟩ := ht
  have hp := hrep.desc.desc_le
  have hbase := hrep.desc.base
  cases op with
  | alloc =>
      rw [poolStep_alloc, Option.some.injEq] at hstep
      subst hstep
      dsimp only
      exact heapPoolAlloc_outside hp t.mem (by omega)
  | free addr =>
      simp only [poolStep, Option.ite_none_right_eq_some, Option.some.injEq] at hstep
      obtain ⟨hmem, rfl⟩ := hstep
      rw [hout] at hmem
      obtain ⟨i, hi, hlt, rfl⟩ := hrep.outstanding_mem hmem
      have hslot := hrep.desc.slotAddr_toNat (Nat.le_of_lt hlt)
      dsimp only
      refine heapPoolFree_outside hp t.mem (by omega) ?_
      rw [(hrep.free_mem hi).1, hslot, slot]
      omega
  | write y b => exact absurd rfl (hop y b)

/-- A client writes in a payload only. -/
theorem Tracks.write_inside {y : SizeT} {b : UInt8} (hstep : poolStep p t (.write y b) = some u) :
    u = { t with mem := Function.update t.mem y.toNat b } ∧
      ∃ i : SizeT, i.toNat < L.nrel ∧ L.chunk i.toNat ≤ y.toNat ∧
        y.toNat < L.chunk i.toNat + L.size := by
  obtain ⟨a, hrep, hout⟩ := ht
  simp only [poolStep, Option.ite_none_right_eq_some, Option.some.injEq] at hstep
  obtain ⟨⟨c, hc, hlo, hhi⟩, rfl⟩ := hstep
  rw [hout] at hc
  obtain ⟨i, hi, hlt, rfl⟩ := hrep.outstanding_mem hc
  rw [chunkAddr_toNat hlt] at hlo hhi
  rw [hrep.desc.szel] at hhi
  exact ⟨rfl, i, hlt, hlo, hhi⟩

/-- No operation on the pool touches a byte outside of it. -/
theorem Tracks.step_outside (hlen : L.Within len) (hstep : poolStep p t op = some u) {x : ℕ}
    (hx : ¬ Extent.Has ⟨L.base, len⟩ x) : u.mem x = t.mem x := by
  have hindex := hlen.index_le
  by_cases hop : ∃ y b, op = .write y b
  · obtain ⟨y, b, rfl⟩ := hop
    obtain ⟨rfl, i, hi, hlo, hhi⟩ := ht.write_inside hstep
    refine Function.update_of_ne ?_ b t.mem
    rintro rfl
    exact hx (hlen.has (a := .payload i) hi hlo hhi)
  · refine ht.library_outside hstep (fun y b heq ↦ hop ⟨y, b, heq⟩) ?_
    dsimp only [Extent.Has] at hx
    omega

/-- Nor does one change the length that was mapped. -/
theorem Tracks.step_allocsize (hstep : poolStep p t op = some u) :
    getField u.mem p .hpdAllocsize = getField t.mem p .hpdAllocsize := by
  have hwrite := fun y b ↦ ht.write_inside (u := u) (y := y) (b := b)
  obtain ⟨a, hrep, hout⟩ := ht
  have hp := hrep.desc.desc_le
  have hbase := hrep.desc.base
  cases op with
  | alloc =>
      rw [poolStep_alloc, Option.some.injEq] at hstep
      subst hstep
      dsimp only
      exact getField_heapPoolAlloc hp t.mem (by decide) (by decide)
  | free addr =>
      simp only [poolStep, Option.ite_none_right_eq_some, Option.some.injEq] at hstep
      obtain ⟨hmem, rfl⟩ := hstep
      rw [hout] at hmem
      obtain ⟨i, hi, hlt, rfl⟩ := hrep.outstanding_mem hmem
      have hslot := hrep.desc.slotAddr_toNat (Nat.le_of_lt hlt)
      dsimp only
      refine getField_heapPoolFree hp t.mem (by decide) (by decide) ?_
      rw [(hrep.free_mem hi).1, hslot, slot]
      omega
  | write y b =>
      obtain ⟨rfl, i, -, hlo, -⟩ := hwrite y b hstep
      have hindex := L.index_le
      have hfirst := L.first_le_chunk i.toNat
      exact getField_congr hp (fun x hx ↦ Function.update_of_ne (by omega) b t.mem) _

end Step

end Layout

end Divers.HeapPool
