import Divers.Library.ByteMemory

/-!
# heap_pool

The fixed-size chunk allocator of `heap_pool.c` and `heap_pool.h` on an LP64 target, built without
`HEAP_POOL_OVERFLOW_DBG`, `HEAP_POOL_DBHOOK` and `HP_HAVE_SHM`.  Every size and every address is a
64-bit word and wraps as in the source; the descriptor, the index array and the chunks all live in
one byte memory, so a stray write can hit any of them.
-/

open Divers.Library

namespace Divers.HeapPool

abbrev SizeT := UInt64

def sizeofSizeT : SizeT := 8

/-- `sizeof(struct heap_pool_desc)`: nine words, `hpd_raw` starts right after them. -/
def sizeofDesc : SizeT := 72

def chunkExtraSize : SizeT := 0

/-- `(void*)(unsigned long)-ENOMEM`. -/
def errNoMem : SizeT := -12

/-- `IS_ERR_VALUE(x)`: one of the last `MAX_ERRNO` words. -/
def isErrValue (x : SizeT) : Bool := x ≥ -4095

/-! ## Alignment arithmetic -/

/-- `__ALIGN(x, y)`. -/
def align (x y : SizeT) : SizeT := (x + y - 1) &&& ~~~(y - 1)

def isPowerOfTwo (val : SizeT) : Bool := val == 1 || (val &&& (val - 1)) == 0

def computeNewAlignment (currAlign : SizeT) : SizeT :=
  let tailleIndex := sizeofSizeT
  if tailleIndex > currAlign then align (currAlign + (tailleIndex - currAlign)) currAlign
  else currAlign

/-! ## The descriptor in memory -/

def load64 (m : Bytes) (a : SizeT) : SizeT := UInt64.ofNat (loadLE m a.toNat 8)

def store64 (m : Bytes) (a v : SizeT) : Bytes := storeLE m a.toNat 8 v.toNat

inductive DescField where
  | hpdNext
  | hpdSzel
  | hpdNrel
  | hpdNralloc
  | hpdFirstfree
  | hpdSzck
  | hpdHolesize
  | hpdAllocsize
  | hpdOfffirstelem
  deriving DecidableEq, Repr

def DescField.offset : DescField → SizeT
  | .hpdNext => 0
  | .hpdSzel => 8
  | .hpdNrel => 16
  | .hpdNralloc => 24
  | .hpdFirstfree => 32
  | .hpdSzck => 40
  | .hpdHolesize => 48
  | .hpdAllocsize => 56
  | .hpdOfffirstelem => 64

def getField (m : Bytes) (p : SizeT) (f : DescField) : SizeT := load64 m (p + f.offset)

def setField (m : Bytes) (p : SizeT) (f : DescField) (v : SizeT) : Bytes :=
  store64 m (p + f.offset) v

def hpdRaw (p : SizeT) : SizeT := p + sizeofDesc

/-- `&array_index[i]`. -/
def arrayIndexAddr (p i : SizeT) : SizeT := hpdRaw p + sizeofSizeT * i

/-- `array_index[i]`. -/
def arrayIndex (m : Bytes) (p i : SizeT) : SizeT := load64 m (arrayIndexAddr p i)

/-- `HEAP_POOL_GET_NTH_CHUNK(p, nth)`. -/
def nthChunk (m : Bytes) (p nth : SizeT) : SizeT :=
  p + getField m p .hpdOfffirstelem + nth * getField m p .hpdSzck

/-! ## Allocation and release -/

def heapPoolNbFree (m : Bytes) (p : SizeT) : SizeT :=
  getField m p .hpdNrel - getField m p .hpdNralloc

/-- `heap_pool_alloc`: the address handed out (or `-ENOMEM`) and the memory left behind. -/
def heapPoolAlloc (m : Bytes) (p : SizeT) : SizeT × Bytes :=
  if heapPoolNbFree m p = 0 then (errNoMem, m)
  else
    let oldFf := getField m p .hpdFirstfree
    let m := setField m p .hpdFirstfree (arrayIndex m p oldFf)
    let m := setField m p .hpdNralloc (getField m p .hpdNralloc + 1)
    (nthChunk m p oldFf, m)

/-- The word `heap_pool_free` reads in front of the chunk. -/
def chunkHeader (m : Bytes) (addr : SizeT) : SizeT := load64 m (addr - sizeofSizeT)

def heapPoolFree (m : Bytes) (p addr : SizeT) : Bytes :=
  let indexIndex := chunkHeader m addr
  let m := store64 m (arrayIndexAddr p indexIndex) (getField m p .hpdFirstfree)
  let m := setField m p .hpdFirstfree indexIndex
  setField m p .hpdNralloc (getField m p .hpdNralloc - 1)

/-! ## Creation -/

inductive CreateError where
  | einval          -- `ERR_PTR(-EINVAL)`: the alignment is refused
  | mapFailed       -- `MAP_FAILED` is returned as it is
  | divideError     -- the division for `hpd_nrel` is by 0: SIGFPE
  | assertFailed    -- the `assert` of the layout loop aborts
  | loopLimit       -- the loop did not end within the bound given to it
  deriving DecidableEq, Repr

/-- The alignment of the first chunk. -/
def poolAlignment (_align : SizeT) : SizeT :=
  if _align == 0 then sizeofSizeT else computeNewAlignment _align

def poolHolesize (chunksize _align : SizeT) : SizeT :=
  let holesize := sizeofSizeT
  if _align > 1 then
    let nextVal := chunksize + holesize
    let diff := align nextVal _align - nextVal
    holesize + diff
  else holesize

def poolAllocsize (pagesize nb chunksize holesize alignment : SizeT) : SizeT :=
  let allocsize :=
    sizeofDesc + alignment - holesize + nb * (sizeofSizeT + chunksize + holesize)
  align allocsize pagesize

/-- The unsigned `/` of C. -/
def divide (a b : SizeT) : Except CreateError SizeT :=
  if b = 0 then .error .divideError else .ok (a / b)

/-- The descriptor fields `heap_pool_create` fills before it lays the chunks out. -/
def writeDesc (m : Bytes) (ret size allocsize alignment chunksize holesize : SizeT) :
    Except CreateError Bytes := do
  let m := setField m ret .hpdNext 0
  let m := setField m ret .hpdSzel size
  let nrel ← divide (allocsize - alignment - sizeofDesc) (sizeofSizeT + holesize + chunksize)
  let m := setField m ret .hpdNrel nrel
  let m := setField m ret .hpdNralloc 0
  let m := setField m ret .hpdFirstfree 0
  let m := setField m ret .hpdSzck (holesize + getField m ret .hpdSzel + chunkExtraSize)
  let m := setField m ret .hpdHolesize holesize
  return setField m ret .hpdAllocsize allocsize

/-- `__ALIGN_PTR(ptr + align, align)` for the `ptr` just behind the index array. -/
def firstChunk (m : Bytes) (ret alignment : SizeT) : SizeT :=
  align (arrayIndexAddr ret (getField m ret .hpdNrel) + alignment) alignment

/-- The two stores of the layout loop for chunk `i`: its index slot and its header word. -/
def layoutChunk (m : Bytes) (walker ptr i : SizeT) : Bytes :=
  let m := store64 m walker (i + 1)
  store64 m (ptr - sizeofSizeT) i

/-- The layout loop.  The bound only makes the recursion structural: `hpd_nrel` is read again from
memory at each test, as in the source. -/
def layoutLoop (_align stride ret : SizeT) :
    ℕ → SizeT → SizeT → SizeT → Bytes → Except CreateError Bytes
  | 0, _, _, _, _ => .error .loopLimit
  | bound + 1, i, walker, ptr, m =>
      if i < getField m ret .hpdNrel then
        let m := layoutChunk m walker ptr i
        if _align ≠ 0 ∧ ptr % _align ≠ 0 then .error .assertFailed
        else layoutLoop _align stride ret bound (i + 1) (walker + sizeofSizeT) (ptr + stride) m
      else .ok m

/-- `ptr` at iteration `i` of the layout loop. -/
def layoutPtr (stride ptr : SizeT) : ℕ → SizeT
  | 0 => ptr
  | i + 1 => layoutPtr stride ptr i + stride

/-- `heap_pool_create`.  `mmap` stands for the kernel: the base it maps a length at, if it does. -/
def heapPoolCreate (pagesize : SizeT) (mmap : SizeT → Option SizeT) (m : Bytes)
    (nb size _align : SizeT) : Except CreateError (SizeT × Bytes) :=
  if _align ≠ 0 ∧ ¬ isPowerOfTwo _align then .error .einval
  else
    let alignment := poolAlignment _align
    let chunksize := size + chunkExtraSize
    let holesize := poolHolesize chunksize _align
    let allocsize := poolAllocsize pagesize nb chunksize holesize alignment
    match mmap allocsize with
    | none => .error .mapFailed
    | some ret => do
        let m ← writeDesc m ret size allocsize alignment chunksize holesize
        let ptr := firstChunk m ret alignment
        let m := setField m ret .hpdOfffirstelem (ptr - ret)
        let bound := (getField m ret .hpdNrel).toNat + 1
        (layoutLoop _align (chunksize + holesize) ret bound 0 (hpdRaw ret) ptr m).map
          fun m ↦ (ret, m)

/-! ## Words that do not wrap -/

theorem toNat_sub_of_le {a b : SizeT} (h : b.toNat ≤ a.toNat) :
    (a - b).toNat = a.toNat - b.toNat :=
  UInt64.toNat_sub_of_le a b (UInt64.le_iff_toNat_le.mpr h)

theorem toNat_sub_one {a : SizeT} (h : 0 < a.toNat) : (a - 1).toNat = a.toNat - 1 :=
  toNat_sub_of_le (b := 1) h

theorem toNat_add_of_lt {a b : SizeT} (h : a.toNat + b.toNat < 2 ^ 64) :
    (a + b).toNat = a.toNat + b.toNat := by
  rw [UInt64.toNat_add, Nat.mod_eq_of_lt h]

theorem toNat_mul_of_lt {a b : SizeT} (h : a.toNat * b.toNat < 2 ^ 64) :
    (a * b).toNat = a.toNat * b.toNat := by
  rw [UInt64.toNat_mul, Nat.mod_eq_of_lt h]

@[simp] theorem sizeofSizeT_toNat : sizeofSizeT.toNat = 8 := rfl

@[simp] theorem sizeofDesc_toNat : sizeofDesc.toNat = 72 := rfl

@[simp] theorem chunkExtraSize_toNat : chunkExtraSize.toNat = 0 := rfl

end Divers.HeapPool
