import Divers.Library.CString
import Divers.Library.Elf
import Divers.Library.Loop
import Divers.Library.TableSearch

/-!
# linux_obj_parser

The reader of 32-bit ELF images of `linux_obj_parser.c`.  `m` is the memory, in which an image is
mapped at `base`; a pointer is an address, and `none` where the source returns NULL.
-/

open Divers.Library Divers.Library.Elf32

namespace Divers.GotModifier

structure LopDynsym where
  lopSym : ℕ
  lopRel : Option ℕ
  lopSymname : ℕ
  deriving DecidableEq, Repr

def lopMaxDynsym : ℕ := 128

structure LopInfo where
  lopEhdr : ℕ
  lopPhdr : ℕ
  lopShdr : ℕ
  lopTextvaddr : ℕ
  lopDatavaddr : ℕ
  lopPlt : List LopDynsym       -- the entries that are filled in
  lopDynsymCount : UInt8
  deriving DecidableEq, Repr

/-! ## Segments -/

structure SegmentLoop where
  i : UInt8
  nbAffect : ℕ
  current : ℕ
  lopTextvaddr : ℕ
  lopDatavaddr : ℕ
  deriving DecidableEq, Repr

namespace SegmentLoop

def start (ptr : LopInfo) : SegmentLoop :=
  ⟨0, 0, ptr.lopPhdr, ptr.lopTextvaddr, ptr.lopDatavaddr⟩

def guard (ePhnum : ℕ) (s : SegmentLoop) : Bool := s.i.toNat < ePhnum && s.nbAffect < 2

/-- The `if`s of the loop. -/
def affect (m : Bytes) (s : SegmentLoop) (current : ℕ) : SegmentLoop :=
  if pType m current = ptLoad then
    if pFlags m current &&& pfX ≠ 0 then
      { s with nbAffect := s.nbAffect + 1, lopTextvaddr := pVaddr m current }
    else if pFlags m current &&& pfW ≠ 0 then
      { s with nbAffect := s.nbAffect + 1, lopDatavaddr := pVaddr m current }
    else s
  else s

def body (m : Bytes) (s : SegmentLoop) : SegmentLoop :=
  { affect m s s.current with i := s.i + 1, current := s.current + sizeofPhdr }

/-- What `lop_read_segment_info` leaves. -/
def result (ptr : LopInfo) (s : SegmentLoop) : ℕ × LopInfo :=
  (if s.nbAffect = 2 then 0 else 1,
    { ptr with lopTextvaddr := s.lopTextvaddr, lopDatavaddr := s.lopDatavaddr })

end SegmentLoop

/-- `lop_read_segment_info`, of whose loop at most `fuel` rounds are run. -/
def lopReadSegmentInfo (m : Bytes) (fuel : ℕ) (ptr : LopInfo) : Option (ℕ × LopInfo) :=
  (whileLoop (SegmentLoop.guard (ePhnum m ptr.lopEhdr)) (SegmentLoop.body m) fuel
    (SegmentLoop.start ptr)).map (SegmentLoop.result ptr)

/-! ## Sections -/

def lopGetSectionByType (m : Bytes) (base type : ℕ) : Option ℕ :=
  (scanRecords (fun current ↦ type == shType m current) sizeofShdr (eShnum m base)
    (base + eShoff m base)).1

def lopGetSectionDynstrTab (m : Bytes) (base dyn : ℕ) : ℕ :=
  base + eShoff m base + sizeofShdr * shLink m dyn

/-! ## Relocations -/

/-- The sections that the loop of `lop_find_rel_by_sym` enters, and its `numrel`. -/
def relTables (m : Bytes) (ptr : LopInfo) (sind : UInt32) : Tables ℕ where
  wanted iter := shType m iter == shtRel && sind.toNat == shLink m iter
  start iter := ptr.lopEhdr + shOffset m iter
  size iter := shSize m iter
  count iter := shOffset m iter / sizeofRel
  stride := sizeofRel
  -- `r_info`
  field := 4
  width := 4
  stride_pos := by decide
  field_le := by decide

def relOfSym (m : Bytes) (ind : UInt32) (current : ℕ) : Bool :=
  rSym (rInfo m current) == ind.toNat

/-- `lop_find_rel_by_sym`, with the entries that it looks at.  The `int` arguments are only compared
with unsigned words. -/
def lopFindRelBySym (m : Bytes) (ptr : LopInfo) (sind ind : UInt32) : Option ℕ × List ℕ :=
  searchTables (relTables m ptr sind) (relOfSym m ind)
    (records sizeofShdr (eShnum m ptr.lopEhdr) ptr.lopShdr)

/-! ## Dynamic symbols -/

def lopBuildPltTable (m : Bytes) (ptr : LopInfo) (dyn str : ℕ) : ℕ × LopInfo :=
  let sind := UInt32.ofNat ((dyn - ptr.lopShdr) / sizeofShdr)
  let numSym := shSize m dyn / sizeofSym
  let symbol := ptr.lopEhdr + shOffset m dyn
  let name := ptr.lopEhdr + shOffset m str
  let count := min numSym lopMaxDynsym
  let plt := (List.range count).map fun i ↦
    { lopSym := symbol + sizeofSym * i
      lopSymname := name + stName m (symbol + sizeofSym * i)
      lopRel := (lopFindRelBySym m ptr sind (UInt32.ofNat i)).1 }
  (if count = 0 then 1 else 0, { ptr with lopPlt := plt, lopDynsymCount := UInt8.ofNat count })

/-- An error is the text of `die_now`, which ends the program. -/
def lopReadDynsymSection (m : Bytes) (ptr : LopInfo) : Except String (ℕ × LopInfo) :=
  match lopGetSectionByType m ptr.lopEhdr shtDynsym with
  | none => .error "no dynamic symbol section found"
  | some dyn =>
      let str := lopGetSectionDynstrTab m ptr.lopEhdr dyn
      if str = 0 then .error "no string table for symbol found"
      else .ok (lopBuildPltTable m ptr dyn str)

def lopInitInfo (m : Bytes) (fuel base : ℕ) : Option (Except String LopInfo) :=
  let ptr : LopInfo :=
    { lopEhdr := base
      lopPhdr := base + ePhoff m base
      lopShdr := base + eShoff m base
      lopTextvaddr := 0
      lopDatavaddr := 0
      lopPlt := []
      lopDynsymCount := 0 }
  (lopReadSegmentInfo m fuel ptr).map fun (ret, ptr) ↦
    if ret ≠ 0 then .error "unable to read process segment"
    else
      match lopReadDynsymSection m ptr with
      | .error str => .error str
      | .ok (ret, ptr) =>
          if ret ≠ 0 then .error "unable to read plt information" else .ok ptr

/-- The name of the symbol at `currsym` is `name`. -/
def symNamed (m : Bytes) (base str : ℕ) (name : List UInt8) (currsym : ℕ) : Bool :=
  holdsString m (base + shOffset m str + stName m currsym) name

def lopGetDynsymByName (m : Bytes) (base : ℕ) (name : List UInt8) : Option ℕ :=
  match lopGetSectionByType m base shtDynsym with
  | none => none
  | some dyn =>
      let str := lopGetSectionDynstrTab m base dyn
      if str = 0 then none
      else
        -- the cast binds tighter than the sum
        (scanRecords (symNamed m base str name) sizeofSym (shSize m dyn / sizeofSym)
          (base + sizeofSym * shOffset m dyn)).1

end Divers.GotModifier
