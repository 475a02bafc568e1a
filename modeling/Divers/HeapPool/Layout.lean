import Divers.HeapPool.Model

/-!
# The byte ranges of a pool

A `Layout` is the geometry of a pool whose addresses do not wrap: descriptor, index array, then
chunks a fixed stride apart, each with its header word in front.  Its regions are pairwise
disjoint, so a write to one of them leaves the others alone.
-/

open Divers.Library

namespace Divers.HeapPool

/-! ## Words and descriptor fields -/

theorem load64_toNat (m : Bytes) (a : SizeT) : (load64 m a).toNat = loadLE m a.toNat 8 := by
  have hlt := loadLE_lt m a.toNat 8
  rw [load64, UInt64.toNat_ofNat', Nat.mod_eq_of_lt (by omega)]

theorem load64_congr {m m' : Bytes} {a : SizeT}
    (h : ∀ x, a.toNat ≤ x → x < a.toNat + 8 → m x = m' x) : load64 m a = load64 m' a := by
  rw [load64, load64, loadLE_congr h]

theorem load64_store64_same (m : Bytes) (a v : SizeT) : load64 (store64 m a v) a = v := by
  have hlt := v.toNat_lt
  rw [load64, store64, loadLE_storeLE_same m (by omega), UInt64.ofNat_toNat]

theorem load64_store64_disjoint (m : Bytes) {a b v : SizeT}
    (h : a.toNat + 8 ≤ b.toNat ∨ b.toNat + 8 ≤ a.toNat) :
    load64 (store64 m b v) a = load64 m a := by
  rw [load64, store64, loadLE_storeLE_disjoint m h, load64]

theorem store64_outside (m : Bytes) {a v : SizeT} {x : ℕ} (h : x < a.toNat ∨ a.toNat + 8 ≤ x) :
    store64 m a v x = m x :=
  storeLE_outside m h

/-- Storing the word that is there changes nothing. -/
theorem store64_load64_self (m : Bytes) (a : SizeT) : store64 m a (load64 m a) = m := by
  rw [store64, load64_toNat, storeLE_loadLE_self]

theorem DescField.offset_le (f : DescField) : f.offset.toNat ≤ 64 := by
  cases f <;> decide

theorem DescField.offset_disjoint {f g : DescField} (h : f ≠ g) :
    f.offset.toNat + 8 ≤ g.offset.toNat ∨ g.offset.toNat + 8 ≤ f.offset.toNat := by
  revert h
  cases f <;> cases g <;> decide

section Fields

variable {p : SizeT} (hp : p.toNat + 72 ≤ 2 ^ 64) (m : Bytes)
include hp

theorem fieldAddr_toNat (f : DescField) : (p + f.offset).toNat = p.toNat + f.offset.toNat := by
  have := f.offset_le
  rw [UInt64.toNat_add, Nat.mod_eq_of_lt (by omega)]

theorem getField_setField (f g : DescField) (v : SizeT) :
    getField (setField m p g v) p f = if f = g then v else getField m p f := by
  split
  next h => rw [h, getField, setField, load64_store64_same]
  next h =>
    have := DescField.offset_disjoint h
    rw [getField, setField, load64_store64_disjoint, getField]
    rw [fieldAddr_toNat hp, fieldAddr_toNat hp]
    omega

theorem setField_outside {f : DescField} {v : SizeT} {x : ℕ}
    (h : x < p.toNat ∨ p.toNat + 72 ≤ x) : setField m p f v x = m x := by
  have := f.offset_le
  exact store64_outside m (by rw [fieldAddr_toNat hp]; omega)

theorem load64_setField {f : DescField} {v a : SizeT} (h : p.toNat + 72 ≤ a.toNat) :
    load64 (setField m p f v) a = load64 m a :=
  load64_congr fun _ hlo _ ↦ setField_outside hp m (by omega)

omit hp in
theorem setField_setField_same (f : DescField) (v w : SizeT) :
    setField (setField m p f v) p f w = setField m p f w :=
  storeLE_storeLE_same m _ 8 _ _

theorem setField_comm {f g : DescField} (h : f ≠ g) (v w : SizeT) :
    setField (setField m p f v) p g w = setField (setField m p g w) p f v := by
  have hoffset := DescField.offset_disjoint h
  apply storeLE_comm
  rw [fieldAddr_toNat hp, fieldAddr_toNat hp]
  omega

omit hp in
theorem setField_getField_self (f : DescField) : setField m p f (getField m p f) = m :=
  store64_load64_self m _

theorem getField_congr {m m' : Bytes} (h : ∀ x, x < p.toNat + 72 → m x = m' x) (f : DescField) :
    getField m p f = getField m' p f := by
  have := f.offset_le
  exact load64_congr fun x _ hhi ↦ h x (by rw [fieldAddr_toNat hp] at hhi; omega)

theorem getField_store64 {f : DescField} {a v : SizeT} (h : p.toNat + 72 ≤ a.toNat) :
    getField (store64 m a v) p f = getField m p f :=
  getField_congr hp (fun _ hx ↦ store64_outside m (by omega)) f

end Fields

/-! ## Geometry -/

structure Layout where
  base : ℕ
  nrel : ℕ
  size : ℕ
  stride : ℕ
  first : ℕ
  index_le : base + 72 + 8 * nrel + 8 ≤ first
  size_le : size + 8 ≤ stride
  fits : first + nrel * stride < 2 ^ 64

/-- The parts of a pool: what the library writes, and what a client may touch. -/
inductive Region where
  | desc
  | index (i : SizeT)
  | header (i : SizeT)
  | payload (i : SizeT)
  deriving DecidableEq, Repr

/-- Where a part of the pool at `p` starts, as the code computes it. -/
def regionStart (m : Bytes) (p : SizeT) : Region → SizeT
  | .desc => p
  | .index i => arrayIndexAddr p i
  | .header i => nthChunk m p i - sizeofSizeT
  | .payload i => nthChunk m p i

def regionLength (m : Bytes) (p : SizeT) : Region → SizeT
  | .desc => sizeofDesc
  | .index _ => sizeofSizeT
  | .header _ => sizeofSizeT
  | .payload _ => getField m p .hpdSzel

/-- The parts a pool of `hpd_nrel` chunks has. -/
def HasRegion (m : Bytes) (p : SizeT) : Region → Prop
  | .desc => True
  | .index i => i < getField m p .hpdNrel
  | .header i => i < getField m p .hpdNrel
  | .payload i => i < getField m p .hpdNrel

namespace Layout

variable (L : Layout)

/-- The address of chunk `i`. -/
def chunk (i : ℕ) : ℕ := L.first + i * L.stride

/-- The address of `array_index[i]`. -/
def slot (i : ℕ) : ℕ := L.base + 72 + 8 * i

def start : Region → ℕ
  | .desc => L.base
  | .index i => L.slot i.toNat
  | .header i => L.chunk i.toNat - 8
  | .payload i => L.chunk i.toNat

def length : Region → ℕ
  | .desc => 72
  | .index _ => 8
  | .header _ => 8
  | .payload _ => L.size

def Has : Region → Prop
  | .desc => True
  | .index i => i.toNat < L.nrel
  | .header i => i.toNat < L.nrel
  | .payload i => i.toNat < L.nrel

theorem chunk_add_le {i j : ℕ} (h : i < j) : L.chunk i + L.stride ≤ L.chunk j := by
  have := Nat.mul_le_mul_right L.stride (Nat.succ_le_of_lt h)
  rw [Nat.succ_mul] at this
  rw [chunk, chunk]
  omega

theorem first_le_chunk (i : ℕ) : L.first ≤ L.chunk i := Nat.le_add_right _ _

theorem chunk_add_lt {i : ℕ} (h : i < L.nrel) : L.chunk i + L.stride < 2 ^ 64 :=
  Nat.lt_of_le_of_lt (L.chunk_add_le h) L.fits

theorem chunk_inj {i j : ℕ} (h : L.chunk i = L.chunk j) : i = j := by
  have hsize := L.size_le
  rcases Nat.lt_trichotomy i j with hlt | heq | hlt
  · have := L.chunk_add_le hlt; omega
  · exact heq
  · have := L.chunk_add_le hlt; omega

theorem slot_add_le {i : ℕ} (h : i < L.nrel) : L.slot i + 16 ≤ L.first := by
  have := L.index_le
  rw [slot]
  omega

theorem chunk_apart {i j : SizeT} (hne : i ≠ j) :
    L.chunk i.toNat + L.stride ≤ L.chunk j.toNat ∨
      L.chunk j.toNat + L.stride ≤ L.chunk i.toNat := by
  rcases Nat.lt_or_gt_of_ne (mt UInt64.toNat_inj.mp hne) with h | h
  · exact Or.inl (L.chunk_add_le h)
  · exact Or.inr (L.chunk_add_le h)

/-- Two different regions of a pool share no byte. -/
theorem region_disjoint {a b : Region} (ha : L.Has a) (hb : L.Has b) (hne : a ≠ b) :
    L.start a + L.length a ≤ L.start b ∨ L.start b + L.length b ≤ L.start a := by
  have hindex := L.index_le
  have hsize := L.size_le
  -- everything but the descriptor and the index array lies from `first - 8` on
  have hfirst := L.first_le_chunk
  have hslot : ∀ {i : SizeT}, i.toNat < L.nrel →
      L.base + 72 ≤ L.slot i.toNat ∧ L.slot i.toNat + 16 ≤ L.first :=
    fun hi ↦ ⟨Nat.le_add_right _ _, L.slot_add_le hi⟩
  cases a with
  | desc =>
      cases b with
      | desc => exact absurd rfl hne
      | index j => have := hslot hb; simp only [start, length]; omega
      | header j => have := hfirst j.toNat; simp only [start, length]; omega
      | payload j => have := hfirst j.toNat; simp only [start, length]; omega
  | index i =>
      have hi := hslot ha
      cases b with
      | desc => simp only [start, length]; omega
      | index j =>
          have hij : i.toNat ≠ j.toNat :=
            fun h ↦ hne (congrArg Region.index (UInt64.toNat_inj.mp h))
          simp only [start, length, slot]
          omega
      | header j => have := hfirst j.toNat; simp only [start, length]; omega
      | payload j => have := hfirst j.toNat; simp only [start, length]; omega
  | header i =>
      have hi := hfirst i.toNat
      cases b with
      | desc => simp only [start, length]; omega
      | index j => have := hslot hb; simp only [start, length]; omega
      | header j =>
          have := L.chunk_apart fun h ↦ hne (congrArg Region.header h)
          have := hfirst j.toNat
          simp only [start, length]
          omega
      | payload j =>
          simp only [start, length]
          by_cases hij : i = j
          · subst hij; omega
          · have := L.chunk_apart hij; omega
  | payload i =>
      have hi := hfirst i.toNat
      cases b with
      | desc => simp only [start, length]; omega
      | index j => have := hslot hb; simp only [start, length]; omega
      | header j =>
          simp only [start, length]
          by_cases hij : i = j
          · subst hij; omega
          · have := L.chunk_apart hij; have := hfirst j.toNat; omega
      | payload j =>
          have := L.chunk_apart fun h ↦ hne (congrArg Region.payload h)
          simp only [start, length]
          omega

/-- The descriptor at `p` describes this geometry. -/
structure Describes (m : Bytes) (p : SizeT) : Prop where
  base : p.toNat = L.base
  nrel : (getField m p .hpdNrel).toNat = L.nrel
  szel : (getField m p .hpdSzel).toNat = L.size
  szck : (getField m p .hpdSzck).toNat = L.stride
  offfirstelem : (getField m p .hpdOfffirstelem).toNat = L.first - L.base

/-- The header word in front of chunk `i` holds `i`. -/
def Headed (m : Bytes) (i : ℕ) : Prop := loadLE m (L.chunk i - 8) 8 = i

variable {L} {m m' : Bytes} {p : SizeT}

namespace Describes

theorem desc_le (h : L.Describes m p) : p.toNat + 72 ≤ 2 ^ 64 := by
  have := L.index_le
  have := L.fits
  rw [h.base]
  omega

/-- A change behind the descriptor keeps the description. -/
theorem congr (h : L.Describes m p) (hsame : ∀ x, x < L.base + 72 → m' x = m x) :
    L.Describes m' p := by
  have hfield : ∀ f, getField m' p f = getField m p f :=
    getField_congr h.desc_le fun x hx ↦ hsame x (h.base ▸ hx)
  exact ⟨h.base, by rw [hfield, h.nrel], by rw [hfield, h.szel], by rw [hfield, h.szck],
    by rw [hfield, h.offfirstelem]⟩

theorem setField (h : L.Describes m p) {f : DescField} {v : SizeT}
    (hf : f = .hpdFirstfree ∨ f = .hpdNralloc) : L.Describes (setField m p f v) p := by
  have hfield : ∀ g, g ≠ .hpdFirstfree → g ≠ .hpdNralloc →
      getField (HeapPool.setField m p f v) p g = getField m p g := by
    intro g hfirst hnr
    rw [getField_setField h.desc_le, if_neg]
    rcases hf with rfl | rfl
    · exact hfirst
    · exact hnr
  exact ⟨h.base, by rw [hfield _ (by decide) (by decide), h.nrel],
    by rw [hfield _ (by decide) (by decide), h.szel],
    by rw [hfield _ (by decide) (by decide), h.szck],
    by rw [hfield _ (by decide) (by decide), h.offfirstelem]⟩

theorem slotAddr_toNat (h : L.Describes m p) {i : SizeT} (hi : i.toNat ≤ L.nrel) :
    (arrayIndexAddr p i).toNat = L.slot i.toNat := by
  have := L.index_le
  have := L.fits
  have hbase := h.base
  have hmul : (sizeofSizeT * i).toNat = 8 * i.toNat :=
    toNat_mul_of_lt (by rw [sizeofSizeT_toNat]; omega)
  have hraw : (hpdRaw p).toNat = p.toNat + 72 :=
    toNat_add_of_lt (by rw [sizeofDesc_toNat]; omega)
  rw [arrayIndexAddr, toNat_add_of_lt (by omega), hmul, hraw, hbase, slot]

/-- The accessor macro gives the chunk's address. -/
theorem nthChunk_toNat (h : L.Describes m p) {i : SizeT} (hi : i.toNat < L.nrel) :
    (nthChunk m p i).toNat = L.chunk i.toNat := by
  have hindex := L.index_le
  have hlt := L.chunk_add_lt hi
  rw [chunk] at hlt
  have hbase := h.base
  have hoff := h.offfirstelem
  have hfirst : (p + getField m p .hpdOfffirstelem).toNat = L.first := by
    rw [toNat_add_of_lt (by omega), hbase, hoff]
    omega
  have hmul : (i * getField m p .hpdSzck).toNat = i.toNat * L.stride := by
    rw [toNat_mul_of_lt (by rw [h.szck]; omega), h.szck]
  rw [nthChunk, toNat_add_of_lt (by omega), hfirst, hmul, chunk]

theorem has_iff (h : L.Describes m p) {a : Region} : HasRegion m p a ↔ L.Has a := by
  have htest : ∀ {i : SizeT}, i < getField m p .hpdNrel ↔ i.toNat < L.nrel := by
    intro i
    rw [UInt64.lt_iff_toNat_lt, h.nrel]
  cases a with
  | desc => exact Iff.rfl
  | index i => exact htest
  | header i => exact htest
  | payload i => exact htest

theorem regionStart_toNat (h : L.Describes m p) {a : Region} (ha : L.Has a) :
    (regionStart m p a).toNat = L.start a := by
  cases a with
  | desc => exact h.base
  | index i => exact h.slotAddr_toNat (Nat.le_of_lt ha)
  | header i =>
      have := L.index_le
      have := L.first_le_chunk i.toNat
      rw [regionStart, toNat_sub_of_le (by rw [h.nthChunk_toNat ha, sizeofSizeT_toNat]; omega),
        h.nthChunk_toNat ha, start, sizeofSizeT_toNat]
  | payload i => exact h.nthChunk_toNat ha

theorem regionLength_toNat (h : L.Describes m p) (a : Region) :
    (regionLength m p a).toNat = L.length a := by
  cases a with
  | desc => rfl
  | index i => rfl
  | header i => rfl
  | payload i => exact h.szel

end Describes

/-- The header `heap_pool_free` reads in front of a chunk is the chunk's own index. -/
theorem Headed.chunkHeader_toNat {addr : SizeT} {i : ℕ} (hhead : L.Headed m i)
    (haddr : addr.toNat = L.chunk i) :
    (chunkHeader m addr).toNat = i := by
  have := L.first_le_chunk i
  have := L.index_le
  have hsub : (addr - sizeofSizeT).toNat = L.chunk i - 8 := by
    rw [toNat_sub_of_le (by rw [sizeofSizeT_toNat]; omega), haddr, sizeofSizeT_toNat]
  rw [chunkHeader, load64_toNat, hsub, hhead]

/-- A change outside the header words keeps the headers. -/
theorem Headed.congr {i : ℕ} (h : L.Headed m i)
    (hsame : ∀ x, L.chunk i - 8 ≤ x → x < L.chunk i → m' x = m x) : L.Headed m' i := by
  have := L.first_le_chunk i
  have := L.index_le
  rw [Headed, loadLE_congr fun x hlo hhi ↦ hsame x hlo (by omega)]
  exact h

end Layout

end Divers.HeapPool
