import Divers.HeapPool.Run
import Divers.Library.Window

/-!
# One pool behind several mappings

A shared pool is bytes that are mapped at a different address in each process that opened it.  Every
call goes through one of the mappings: it computes with that mapping's addresses, in a memory that
holds the pool there and whatever the process has around it.
-/

open Divers.Library

namespace Divers.HeapPool

/-! ## Calls through a mapping -/

/-- Where a process has the pool, and its other memory. -/
structure Mapping (page : PageSize) (len : ℕ) extends UserMapping page len where
  around : Bytes

/-- The pool's bytes by their offset, and the offsets of the chunks handed out. -/
structure PoolImage where
  bytes : Bytes
  outstanding : List SizeT

/-- What `heap_pool_create` left at `base`. -/
def PoolImage.created (m : Bytes) (base : SizeT) : PoolImage := ⟨fun o ↦ m (base.toNat + o), []⟩

/-- A chunk is released by its offset: each process rebases it. -/
inductive PoolCall where
  | alloc
  | free (offset : SizeT)
  deriving DecidableEq, Repr

inductive Returned where
  | chunk (offset : SizeT)
  | err (code : SizeT)
  | done
  deriving DecidableEq, Repr

section Calls

variable {page : PageSize} {len : ℕ}

def Mapping.see (via : Mapping page len) (bytes : Bytes) : Bytes :=
  placeAt len bytes via.base.toNat via.around

/-- One call through a mapping.  Only chunks that are handed out are released. -/
def mappedCall (via : Mapping page len) (s : PoolImage) : PoolCall → Option (Returned × PoolImage)
  | .alloc =>
      let (ret, m) := heapPoolAlloc (via.see s.bytes) via.base
      let bytes := takeFrom len s.bytes m via.base.toNat
      if isErrValue ret then some (.err ret, { s with bytes := bytes })
      else some (.chunk (ret - via.base), ⟨bytes, (ret - via.base) :: s.outstanding⟩)
  | .free offset =>
      if offset ∈ s.outstanding then
        let m := heapPoolFree (via.see s.bytes) via.base (via.base + offset)
        some (.done, ⟨takeFrom len s.bytes m via.base.toNat, s.outstanding.erase offset⟩)
      else none

theorem mappedCall_alloc (via : Mapping page len) (s : PoolImage) :
    mappedCall via s .alloc =
      if isErrValue (heapPoolAlloc (via.see s.bytes) via.base).1 then
        some (.err (heapPoolAlloc (via.see s.bytes) via.base).1,
          { s with
            bytes := takeFrom len s.bytes (heapPoolAlloc (via.see s.bytes) via.base).2
              via.base.toNat })
      else
        some (.chunk ((heapPoolAlloc (via.see s.bytes) via.base).1 - via.base),
          ⟨takeFrom len s.bytes (heapPoolAlloc (via.see s.bytes) via.base).2 via.base.toNat,
            ((heapPoolAlloc (via.see s.bytes) via.base).1 - via.base) :: s.outstanding⟩) := by
  rw [mappedCall]

/-- Calls in a row, each through its mapping: what they return and the pool they leave. -/
def mappedRun : PoolImage → List (Mapping page len × PoolCall) → Option (List Returned × PoolImage)
  | s, [] => some ([], s)
  | s, (via, call) :: calls =>
      (mappedCall via s call).bind fun (ret, s) ↦
        (mappedRun s calls).map fun (rets, s) ↦ (ret :: rets, s)

end Calls

/-! ## The same pool at two addresses -/

/-- The first `len` bytes of the pools at `p` and `q` are the same. -/
structure Twin (len : ℕ) (m : Bytes) (p : SizeT) (m' : Bytes) (q : SizeT) : Prop where
  same : SameWindow len m p.toNat m' q.toNat
  left : p.toNat + len ≤ 2 ^ 63
  right : q.toNat + len ≤ 2 ^ 63
  desc : 72 ≤ len

namespace Twin

variable {len : ℕ} {m m' : Bytes} {p q : SizeT}

theorem store (h : Twin len m p m' q) {a a' : SizeT} {o : ℕ} (ha : a.toNat = p.toNat + o)
    (ha' : a'.toNat = q.toNat + o) (v : SizeT) :
    Twin len (store64 m a v) p (store64 m' a' v) q := by
  refine ⟨?_, h.left, h.right, h.desc⟩
  unfold store64
  rw [ha, ha']
  exact h.same.storeLE o 8 v.toNat

theorem load (h : Twin len m p m' q) {a a' : SizeT} {o : ℕ} (ha : a.toNat = p.toNat + o)
    (ha' : a'.toNat = q.toNat + o) (ho : o + 8 ≤ len) : load64 m a = load64 m' a' := by
  unfold load64
  rw [ha, ha', h.same.loadLE ho]

theorem fieldAddr (h : Twin len m p m' q) (f : DescField) :
    (p + f.offset).toNat = p.toNat + f.offset.toNat ∧
      (q + f.offset).toNat = q.toNat + f.offset.toNat := by
  have hleft := h.left
  have hright := h.right
  have hdesc := h.desc
  exact ⟨fieldAddr_toNat (by omega) f, fieldAddr_toNat (by omega) f⟩

theorem getField_eq (h : Twin len m p m' q) (f : DescField) : getField m p f = getField m' q f := by
  have hdesc := h.desc
  have hoffset := f.offset_le
  exact h.load (h.fieldAddr f).1 (h.fieldAddr f).2 (by omega)

theorem setField (h : Twin len m p m' q) (f : DescField) (v : SizeT) :
    Twin len (setField m p f v) p (setField m' q f v) q :=
  h.store (h.fieldAddr f).1 (h.fieldAddr f).2 v

theorem nbFree_eq (h : Twin len m p m' q) : heapPoolNbFree m p = heapPoolNbFree m' q := by
  unfold heapPoolNbFree
  rw [h.getField_eq, h.getField_eq]

theorem nthChunk_eq (h : Twin len m p m' q) (i : SizeT) :
    nthChunk m p i - p = nthChunk m' q i - q := by
  have hcancel : ∀ b x : SizeT, b + x - b = x := by
    intro b x
    rw [UInt64.add_comm, UInt64.add_sub_cancel]
  unfold nthChunk
  rw [h.getField_eq, h.getField_eq, UInt64.add_assoc, hcancel, UInt64.add_assoc, hcancel]

/-- The index words inside the pool. -/
theorem indexAddr (h : Twin len m p m' q) {i : SizeT} (hi : 72 + 8 * i.toNat + 8 ≤ len) :
    (arrayIndexAddr p i).toNat = p.toNat + (72 + 8 * i.toNat) ∧
      (arrayIndexAddr q i).toNat = q.toNat + (72 + 8 * i.toNat) := by
  have hleft := h.left
  have hright := h.right
  have hmul : (sizeofSizeT * i).toNat = 8 * i.toNat :=
    toNat_mul_of_lt (by rw [sizeofSizeT_toNat]; omega)
  have haddr : ∀ {b : SizeT}, b.toNat + len ≤ 2 ^ 63 →
      (arrayIndexAddr b i).toNat = b.toNat + (72 + 8 * i.toNat) := by
    intro b hb
    have hraw : (hpdRaw b).toNat = b.toNat + 72 :=
      toNat_add_of_lt (by rw [sizeofDesc_toNat]; omega)
    rw [arrayIndexAddr, toNat_add_of_lt (by omega), hmul, hraw, Nat.add_assoc]
  exact ⟨haddr hleft, haddr hright⟩

/-- `heap_pool_alloc` does the same in both, provided the head of the free list is an index of the
array. -/
theorem alloc (h : Twin len m p m' q)
    (hhead : heapPoolNbFree m p ≠ 0 → 72 + 8 * (getField m p .hpdFirstfree).toNat + 8 ≤ len) :
    Twin len (heapPoolAlloc m p).2 p (heapPoolAlloc m' q).2 q ∧
      (((heapPoolAlloc m p).1 = errNoMem ∧ (heapPoolAlloc m' q).1 = errNoMem) ∨
        (heapPoolAlloc m p).1 - p = (heapPoolAlloc m' q).1 - q) := by
  unfold heapPoolAlloc
  rw [← h.nbFree_eq]
  split
  next => exact ⟨h, Or.inl ⟨rfl, rfl⟩⟩
  next hfree =>
    have hindex := h.indexAddr (hhead hfree)
    have hnext : arrayIndex m p (getField m p .hpdFirstfree) =
        arrayIndex m' q (getField m p .hpdFirstfree) :=
      h.load hindex.1 hindex.2 (hhead hfree)
    have hfirst := h.setField .hpdFirstfree (arrayIndex m p (getField m p .hpdFirstfree))
    dsimp only
    rw [← h.getField_eq .hpdFirstfree, ← hnext, ← hfirst.getField_eq .hpdNralloc]
    have hcount := hfirst.setField .hpdNralloc
      (getField (HeapPool.setField m p .hpdFirstfree (arrayIndex m p (getField m p .hpdFirstfree)))
        p .hpdNralloc + 1)
    exact ⟨hcount, Or.inr (hcount.nthChunk_eq _)⟩

/-- `heap_pool_free` of the chunk at one offset does the same in both, provided its header is in the
pool and holds an index of the array. -/
theorem free (h : Twin len m p m' q) {a a' : SizeT} {o : ℕ} (ha : a.toNat = p.toNat + (o + 8))
    (ha' : a'.toNat = q.toNat + (o + 8)) (ho : o + 8 ≤ len)
    (hindex : 72 + 8 * (chunkHeader m a).toNat + 8 ≤ len) :
    Twin len (heapPoolFree m p a) p (heapPoolFree m' q a') q := by
  have hheader : ∀ {b c : SizeT}, b.toNat = c.toNat + (o + 8) →
      (b - sizeofSizeT).toNat = c.toNat + o := by
    intro b c hb
    rw [toNat_sub_of_le (by rw [sizeofSizeT_toNat]; omega), hb, sizeofSizeT_toNat]
    omega
  have hsame : chunkHeader m a = chunkHeader m' a' := h.load (hheader ha) (hheader ha') ho
  have haddr := h.indexAddr hindex
  have hslot := h.store haddr.1 haddr.2 (getField m p .hpdFirstfree)
  have hfirst := hslot.setField .hpdFirstfree (chunkHeader m a)
  unfold heapPoolFree
  dsimp only
  rw [← hsame, ← h.getField_eq .hpdFirstfree, ← hfirst.getField_eq .hpdNralloc]
  exact hfirst.setField .hpdNralloc _

end Twin

end Divers.HeapPool
