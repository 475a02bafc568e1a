import Divers.Library.Reading
import Divers.SymResolver.Model

/-! The functions of the resolver with the bytes of the mapped file that they read. -/

open Divers.Library Divers.Library.Elf32

namespace Divers.SymResolver

def symResolvSectionhdrToSectionReads (m : Bytes) (srMem shdr : ℕ) : Reading ℕ := do
  return srMem + (← .load m (shdr + 16) 4)              -- `sh_offset`

def symResolvGetSectionhdrByNameReads (m : Bytes) (desc : SymResolvDesc) (ehdr : ℕ)
    (secname : List UInt8) : Reading (Option ℕ) := do
  let nbsec ← .load m (ehdr + 48) 2                     -- `e_shnum`
  .scanRecords (fun ptr ↦ do
      .holdsString m (desc.srSectionstr + (← .load m ptr 4)) secname)
    sizeofShdr nbsec desc.srShdr

/-- The searches of `symResolvOpenReads`. -/
def symResolvOpenTabsReads (m : Bytes) (desc : SymResolvDesc) (ehdr : ℕ) :
    Reading (Option SymResolvDesc) := do
  match ← symResolvGetSectionhdrByNameReads m desc ehdr symtabName with
  | none => return none
  | some symtab =>
      match ← symResolvGetSectionhdrByNameReads m desc ehdr strtabName with
      | none => return none
      | some strtab =>
          return some { desc with srShdrsymtab := some symtab, srShdrstrsymtab := some strtab }

def symResolvOpenReads (m : Bytes) (sys : SysOpen) : Reading (Option SymResolvDesc) :=
  if sys.fd ≤ 0 then return none
  else
    match sys.stSize, sys.mapped with
    | some len, some mem => do
        let shdr := mem + (← .load m (mem + 32) 4)      -- `e_shoff`
        let shstrndx ← .load m (mem + 50) 2             -- `e_shstrndx`
        if shstrndx = 0 then return none
        else
          let shdrstrsectab := shdr + sizeofShdr * shstrndx
          let sectionstr ← symResolvSectionhdrToSectionReads m mem shdrstrsectab
          symResolvOpenTabsReads m
            { srMem := mem
              srMemlen := len
              srEhdr := some mem
              srShdr := shdr
              srShdrstrsectab := some shdrstrsectab
              srShdrsymtab := none
              srShdrstrsymtab := none
              srSectionstr := sectionstr } mem
    | _, _ => return none

def holdsAddrReads (m : Bytes) (addr : UInt32) (walker : ℕ) : Reading Bool := do
  let start := UInt32.ofNat (← .load m (walker + 4) 4)
  let stop := start + UInt32.ofNat (← .load m (walker + 8) 4)
  return decide (start ≤ addr) && decide (stop > addr)

/-- What the loop of `symResolvGetFuncnameByAddrReads` does with the symbol that it finds. -/
def symResolvFillReads (m : Bytes) (symnamelist : ℕ) (res : SymResolv) :
    Option ℕ → Reading (Bool × SymResolv)
  | none => return (false, res)
  | some sym => do
      let srSymname ← .strncpy m sizeofSymname (symnamelist + (← .load m sym 4))
      let srSymaddr := UInt32.ofNat (← .load m (sym + 4) 4)
      return (true, ⟨srSymaddr, srSymname.val, srSymname.property⟩)

def symResolvGetFuncnameByAddrReads (m : Bytes) (desc : SymResolvDesc) (addr : UInt32)
    (res : SymResolv) : Reading (Bool × SymResolv) :=
  match desc.srShdrsymtab, desc.srShdrstrsymtab with
  | some shdrsymtab, some shdrstrsymtab => do
      let walker ← symResolvSectionhdrToSectionReads m desc.srMem shdrsymtab
      let symnamelist ← symResolvSectionhdrToSectionReads m desc.srMem shdrstrsymtab
      let nbSym := (← .load m (shdrsymtab + 20) 4) / sizeofSym
      let sym ← .scanRecords (holdsAddrReads m addr) sizeofSym nbSym walker
      symResolvFillReads m symnamelist res sym
  | _, _ => return (false, res)

def symResolvSymbolReads (m : Bytes) (desc : SymResolvDesc) (name : List UInt8) :
    Reading (Option ℕ) :=
  match desc.srShdrsymtab, desc.srShdrstrsymtab with
  | some shdrsymtab, some shdrstrsymtab => do
      let walker ← symResolvSectionhdrToSectionReads m desc.srMem shdrsymtab
      let symnamelist ← symResolvSectionhdrToSectionReads m desc.srMem shdrstrsymtab
      let nbSym := (← .load m (shdrsymtab + 20) 4) / sizeofSym
      .scanRecords (fun sym ↦ do
          .holdsString m (symnamelist + (← .load m sym 4)) name)
        sizeofSym nbSym walker
  | _, _ => return none

/-! ## They compute what the functions compute -/

theorem value_symResolvGetSectionhdrByNameReads {desc : SymResolvDesc} {ehdr : ℕ}
    (h : desc.srEhdr = some ehdr) (m : Bytes) (secname : List UInt8) :
    (symResolvGetSectionhdrByNameReads m desc ehdr secname).value =
      symResolvGetSectionhdrByName m (some desc) secname := by
  have hsearch : symResolvGetSectionhdrByName m (some desc) secname =
      desc.srEhdr.bind fun ehdr ↦
        (scanRecords (fun ptr ↦ holdsString m (desc.srSectionstr + shName m ptr) secname)
          sizeofShdr (eShnum m ehdr) desc.srShdr).1 := rfl
  rw [hsearch, h, Option.bind_some, symResolvGetSectionhdrByNameReads, Reading.value_bind,
    Reading.value_scanRecords]
  simp only [Reading.value_bind, Reading.value_holdsString]
  rfl

theorem value_symResolvOpenTabsReads {desc : SymResolvDesc} {ehdr : ℕ}
    (h : desc.srEhdr = some ehdr) (m : Bytes) :
    (symResolvOpenTabsReads m desc ehdr).value = do
      let symtab ← symResolvGetSectionhdrByName m (some desc) symtabName
      let strtab ← symResolvGetSectionhdrByName m (some desc) strtabName
      return { desc with srShdrsymtab := some symtab, srShdrstrsymtab := some strtab } := by
  rw [symResolvOpenTabsReads, Reading.value_bind, value_symResolvGetSectionhdrByNameReads h]
  cases symResolvGetSectionhdrByName m (some desc) symtabName with
  | none => rfl
  | some symtab =>
      dsimp only
      rw [Reading.value_bind, value_symResolvGetSectionhdrByNameReads h]
      cases symResolvGetSectionhdrByName m (some desc) strtabName with
      | none => rfl
      | some strtab => rfl

theorem value_symResolvOpenReads (m : Bytes) (sys : SysOpen) :
    (symResolvOpenReads m sys).value = symResolvOpen m sys := by
  obtain ⟨fd, stSize, mapped⟩ := sys
  unfold symResolvOpenReads symResolvOpen
  split
  next => rfl
  next =>
    cases stSize with
    | none => rfl
    | some len =>
        cases mapped with
        | none => rfl
        | some mem =>
            show Reading.value (if eShstrndx m mem = 0 then _ else _) =
              if eShstrndx m mem = 0 then _ else _
            split
            next => rfl
            next => exact value_symResolvOpenTabsReads rfl m

theorem value_symResolvFillReads (m : Bytes) (symnamelist : ℕ) (res : SymResolv) (sym : ℕ) :
    (symResolvFillReads m symnamelist res (some sym)).value =
      (true,
        { srSymname := strncpy m sizeofSymname (symnamelist + stName m sym)
          srSymaddr := UInt32.ofNat (stValue m sym)
          size := strncpy_length m _ _ }) := by
  simp only [symResolvFillReads, Reading.value_bind, Reading.value_strncpy, Reading.value_load,
    Reading.value_pure, stName, stValue]

theorem value_symResolvGetFuncnameByAddrReads (m : Bytes) (desc : SymResolvDesc) (addr : UInt32)
    (res : SymResolv) :
    (symResolvGetFuncnameByAddrReads m desc addr res).value =
      symResolvGetFuncnameByAddr m (some desc) addr res := by
  obtain ⟨mem, memlen, ehdr, shdr, strsectab, symtab, strtab, sectionstr⟩ := desc
  cases symtab with
  | none => rfl
  | some symtab =>
      cases strtab with
      | none => rfl
      | some strtab =>
          unfold symResolvGetFuncnameByAddr symResolvGetFuncnameByAddrReads
          simp only [symResolvSectionhdrToSection, Option.pure_def, Option.bind_eq_bind,
            Option.bind_some, Reading.value_bind, Reading.value_scanRecords]
          show (symResolvFillReads m (mem + shOffset m strtab) res
            (scanRecords (holdsAddr m addr) sizeofSym (shSize m symtab / sizeofSym)
              (mem + shOffset m symtab)).1).value = _
          cases (scanRecords _ _ _ _).1 with
          | none => rfl
          | some sym => exact value_symResolvFillReads m _ res sym

theorem value_symResolvSymbolReads (m : Bytes) (desc : SymResolvDesc) (name : List UInt8) :
    (symResolvSymbolReads m desc name).value = symResolvSymbol m desc name := by
  obtain ⟨mem, memlen, ehdr, shdr, strsectab, symtab, strtab, sectionstr⟩ := desc
  cases symtab with
  | none => rfl
  | some symtab =>
      cases strtab with
      | none => rfl
      | some strtab =>
          unfold symResolvSymbolReads
          simp only [Reading.value_bind, Reading.value_scanRecords, Reading.value_holdsString]
          rfl

end Divers.SymResolver
