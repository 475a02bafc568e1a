import Divers.Library.CString
import Divers.Library.Elf
import Divers.Library.TableSearch

/-!
# dsl_elf: sections and symbols

The reader of 64-bit ELF images of `dsl_elf.c`.  `m` is the memory, in which an image is mapped at
`base`; a pointer is an address, and `none` where the source returns NULL.
-/

open Divers.Library Divers.Library.Elf64

namespace Divers.DslElf

def dlsFileGetSectionStrings (m : Bytes) (f : ℕ) : ℕ :=
  let sec := f + eShoff m f
  f + shOffset m (sec + sizeofShdr * eShstrndx m f)

def dlsGetShdrByName (m : Bytes) (base : ℕ) (name : List UInt8) : Option ℕ :=
  let sectionName := dlsFileGetSectionStrings m base
  (scanRecords (fun shdr ↦ holdsString m (sectionName + shName m shdr) name) sizeofShdr
    (eShnum m base) (base + eShoff m base)).1

/-! ## Relocations -/

/-- The sections that the loop of `dls_get_rel_sym` enters, and its `numrel`: an `unsigned int`, and
the size is that of `Elf64_Rel`. -/
def relaTables (m : Bytes) (base sectionInd : ℕ) : Tables ℕ where
  wanted walker := shType m walker == shtRela && sectionInd == shLink m walker
  start walker := base + shOffset m walker
  size walker := shSize m walker
  count walker := shSize m walker / sizeofRel % 2 ^ 32
  stride := sizeofRela
  -- `r_info`
  field := 8
  width := 8
  stride_pos := by decide
  field_le := by decide

def relaOfSym (m : Bytes) (symInd curr : ℕ) : Bool := rSym (rInfo m curr) == symInd

def sectionHeaders (m : Bytes) (base : ℕ) : List ℕ :=
  records sizeofShdr (eShnum m base) (base + eShoff m base)

/-- `dls_get_rel_sym`, with the entries that it looks at. -/
def dlsGetRelSym (m : Bytes) (base sectionInd symInd : ℕ) : Option ℕ × List ℕ :=
  searchTables (relaTables m base sectionInd) (relaOfSym m symInd) (sectionHeaders m base)

/-! ## External symbols -/

structure DlsExternalSym where
  deRel : Option ℕ
  deName : ℕ
  deSym : ℕ
  deriving DecidableEq, Repr

def stbGlobal : ℕ := 1
def sttNotype : ℕ := 0

/-- `STB_GLOBAL` and `STT_NOTYPE`. -/
def isExternal (m : Bytes) (sym : ℕ) : Bool :=
  stBind (stInfo m sym) == stbGlobal && stType (stInfo m sym) == sttNotype

/-- The rounds of the loop up to `nr_sym`, an `int`. -/
def nrSym (m : Bytes) (s4 : ℕ) : ℕ :=
  let n := shSize m s4 / sizeofSym % 2 ^ 32
  if n < 2 ^ 31 then n else 0

def dynsymName : List UInt8 := ascii ['.', 'd', 'y', 'n', 's', 'y', 'm']

def dynstrName : List UInt8 := ascii ['.', 'd', 'y', 'n', 's', 't', 'r']

/-- `dls_get_external_syms`: the array that it fills, with what `dls_get_rel_sym` looks at for each
entry.  There is none where a section is missing, as the source uses its header all the same. -/
def dlsGetExternalSyms (m : Bytes) (base : ℕ) :
    Option (List (DlsExternalSym × List ℕ)) := do
  let s4 ← dlsGetShdrByName m base dynsymName
  let s5 ← dlsGetShdrByName m base dynstrName
  let firstSection := base + eShoff m base
  let u := base + shOffset m s5
  let sym := base + shOffset m s4
  return ((List.range (nrSym m s4)).filter fun i ↦ isExternal m (sym + sizeofSym * i)).map fun i ↦
    let rel := dlsGetRelSym m base ((s4 - firstSection) / sizeofShdr) i
    ({ deSym := sym + sizeofSym * i
       deName := u + stName m (sym + sizeofSym * i)
       deRel := rel.1 }, rel.2)

end Divers.DslElf
