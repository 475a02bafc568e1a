import Divers.Library.CString
import Divers.Library.Elf
import Divers.Library.TableSearch

/-!
# sym_resolver

The resolver of `sym_resolver.c`.  `m` is the memory, in which an executable with 32-bit ELF headers
is mapped; a pointer into it is an address, and `none` where the source has NULL.  The addresses
that are resolved, and the starts and ends of symbols, are words of 32 bits.
-/

open Divers.Library Divers.Library.Elf32

namespace Divers.SymResolver

structure SymResolvDesc where
  srMem : ℕ
  srMemlen : ℕ
  srEhdr : Option ℕ
  srShdr : ℕ
  srShdrstrsectab : Option ℕ
  srShdrsymtab : Option ℕ
  srShdrstrsymtab : Option ℕ
  srSectionstr : ℕ
  deriving DecidableEq, Repr

def sizeofSymname : ℕ := 512

structure SymResolv where
  srSymaddr : UInt32
  srSymname : List UInt8
  size : srSymname.length = sizeofSymname
  deriving DecidableEq, Repr

instance : Inhabited SymResolv := ⟨0, List.replicate sizeofSymname 0, List.length_replicate⟩

/-! ## Sections -/

def symResolvSectionhdrToSection (m : Bytes) (desc : Option SymResolvDesc) (shdr : Option ℕ) :
    Option ℕ := do
  let desc ← desc
  let shdr ← shdr
  return desc.srMem + shOffset m shdr

def symResolvGetSectionhdrByName (m : Bytes) (desc : Option SymResolvDesc) (secname : List UInt8) :
    Option ℕ := do
  let desc ← desc
  let ehdr ← desc.srEhdr
  (scanRecords (fun ptr ↦ holdsString m (desc.srSectionstr + shName m ptr) secname) sizeofShdr
    (eShnum m ehdr) desc.srShdr).1

/-! ## Opening -/

/-- What the system answers: the file descriptor, the size of the file unless `fstat` fails, and
where the file is mapped unless `mmap` fails. -/
structure SysOpen where
  fd : ℤ
  stSize : Option ℕ
  mapped : Option ℕ

def symtabName : List UInt8 := ascii ['.', 's', 'y', 'm', 't', 'a', 'b']

def strtabName : List UInt8 := ascii ['.', 's', 't', 'r', 't', 'a', 'b']

/-- `__sym_resolv_open`, with `none` for the result -1: its callers use no descriptor then. -/
def symResolvOpen (m : Bytes) (sys : SysOpen) : Option SymResolvDesc :=
  if sys.fd ≤ 0 then none
  else do
    let len ← sys.stSize
    let mem ← sys.mapped
    let shdr := mem + eShoff m mem
    if eShstrndx m mem = 0 then none        -- `SHN_UNDEF`
    else
      let shdrstrsectab := shdr + sizeofShdr * eShstrndx m mem
      let desc : SymResolvDesc :=
        { srMem := mem
          srMemlen := len
          srEhdr := some mem
          srShdr := shdr
          srShdrstrsectab := some shdrstrsectab
          srShdrsymtab := none
          srShdrstrsymtab := none
          srSectionstr := mem + shOffset m shdrstrsectab }
      let symtab ← symResolvGetSectionhdrByName m (some desc) symtabName
      let strtab ← symResolvGetSectionhdrByName m (some desc) strtabName
      return { desc with srShdrsymtab := some symtab, srShdrstrsymtab := some strtab }

/-! ## Lookups -/

/-- The test of the loop over the symbols: `start <= addr && end > addr`. -/
def holdsAddr (m : Bytes) (addr : UInt32) (walker : ℕ) : Bool :=
  let start := UInt32.ofNat (stValue m walker)
  let stop := UInt32.ofNat (stValue m walker) + UInt32.ofNat (stSize m walker)
  decide (start ≤ addr) && decide (stop > addr)

/-- `__sym_resolv_get_funcname_by_addr`: what it returns, and `*res`. -/
def symResolvGetFuncnameByAddr (m : Bytes) (desc : Option SymResolvDesc) (addr : UInt32)
    (res : SymResolv) : Bool × SymResolv :=
  let found : Option SymResolv := do
    let desc ← desc
    let shdrsymtab ← desc.srShdrsymtab
    let shdrstrsymtab ← desc.srShdrstrsymtab
    let walker ← symResolvSectionhdrToSection m (some desc) (some shdrsymtab)
    let symnamelist ← symResolvSectionhdrToSection m (some desc) (some shdrstrsymtab)
    let nbSym := shSize m shdrsymtab / sizeofSym
    let sym ← (scanRecords (holdsAddr m addr) sizeofSym nbSym walker).1
    return { srSymname := strncpy m sizeofSymname (symnamelist + stName m sym)
             srSymaddr := UInt32.ofNat (stValue m sym)
             size := strncpy_length m _ _ }
  match found with
  | some res => (true, res)
  | none => (false, res)

def symResolvSymbol (m : Bytes) (desc : SymResolvDesc) (name : List UInt8) : Option ℕ := do
  let walker ← symResolvSectionhdrToSection m (some desc) desc.srShdrsymtab
  let symnamelist ← symResolvSectionhdrToSection m (some desc) desc.srShdrstrsymtab
  let shdrsymtab ← desc.srShdrsymtab
  let nbSym := shSize m shdrsymtab / sizeofSym
  (scanRecords (fun sym ↦ holdsString m (symnamelist + stName m sym) name) sizeofSym nbSym
    walker).1

/-! ## Arrays of addresses -/

/-- What `dladdr` fills in.  Where it answers 0 or less there is none: `info` is not read then. -/
structure DlInfo where
  dliSname : Option ℕ
  dliSaddr : UInt32

section

variable (m : Bytes) (desc : Option SymResolvDesc) (dladdr : UInt32 → Option DlInfo)

/-- One pass of the loop of `sym_resolv_addr`: what `res[i]` becomes. -/
def symResolvAddrPass (addr : UInt32) (res : SymResolv) : SymResolv :=
  match symResolvGetFuncnameByAddr m desc addr res with
  | (true, res) => res
  | (false, res) =>
      match dladdr addr with
      | some ⟨some dliSname, dliSaddr⟩ =>
          { srSymname := strncpy m sizeofSymname dliSname
            srSymaddr := dliSaddr
            size := strncpy_length m _ _ }
      | _ =>
          { res with
            srSymname := res.srSymname.set 0 0
            size := List.length_set.trans res.size }

/-- `sym_resolv_addr`: the array `res` after the call, for arrays of one length. -/
def symResolvAddr : List UInt32 → List SymResolv → List SymResolv
  | addr :: addrs, res :: rest =>
      symResolvAddrPass m desc dladdr addr res :: symResolvAddr addrs rest
  | _, rest => rest

end

end Divers.SymResolver
