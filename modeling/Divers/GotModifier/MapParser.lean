import Divers.GotModifier.ObjParser

/-!
# map_parser

The patching of a process by `map_parser.c`.  `m` is the memory of the program, with the images of
the task and of the library mapped; the words of the process are `long`s of 32 bits.
-/

open Divers.Library Divers.Library.Elf32

namespace Divers.GotModifier

/-! ## The names in /proc -/

/-- `map_parser_build_procfs_filename`: what it returns, and `buff`.  `%hu` takes the last 16
bits. -/
def mapParserBuildProcfsFilename (numpid : Int32) (whatfile : List UInt8) (maxLen : ℕ) :
    ℕ × List UInt8 :=
  snprintf maxLen (ascii ['/', 'p', 'r', 'o', 'c', '/'] ++
    decimal (numpid.toInt % 2 ^ 16).toNat ++ ascii ['/'] ++ whatfile)

def mapsFile : List UInt8 := ascii ['m', 'a', 'p', 's']

def exeFile : List UInt8 := ascii ['e', 'x', 'e']

/-- What the system answers: whether `fopen` opens its file, the file descriptor, the size of the
file unless `fstat` fails, and where the file is mapped unless `mmap` fails. -/
structure SysInit where
  memOpens : Bool
  fd : ℤ
  stSize : Option ℕ
  mapped : Option ℕ

structure TaskDesc where
  tdMap : ℕ
  tdLen : ℕ
  tdInfo : LopInfo
  deriving DecidableEq, Repr

/-- The files that `map_parser_init` opens, and how it ends: `none` where the fuel does not suffice
for `lop_init_info`, and an error where the program ends with a message. -/
structure InitRun where
  opened : List (List UInt8)
  ends : Option (Except String TaskDesc)

def InitRun.failed (opened : List (List UInt8)) : InitRun := ⟨opened, some (.error "init : ")⟩

def sizeofBuff : ℕ := 17        -- `strlen("/proc/XXXXX/maps") + 1`
def sizeofBuff2 : ℕ := 16

def mapParserInit (m : Bytes) (fuel : ℕ) (sys : SysInit) (numpid : Int32) : InitRun :=
  let (ret, buff) := mapParserBuildProcfsFilename numpid mapsFile sizeofBuff
  if ret > sizeofBuff then .failed []
  else
    let (ret, buff2) := mapParserBuildProcfsFilename numpid exeFile sizeofBuff2
    if ret > sizeofBuff2 then .failed []
    else if sys.memOpens = false then .failed []
    else if sys.fd < 0 then .failed [buff]
    else
      match sys.stSize, sys.mapped with
      | some tdLen, some tdMap =>
          { opened := [buff, buff2]
            ends := (lopInitInfo m fuel tdMap).map fun info ↦ info.map fun tdInfo ↦
              { tdMap, tdLen, tdInfo } }
      | _, _ => .failed [buff, buff2]

/-! ## Patching -/

inductive PtraceRequest
  | attach
  | peekText (addr : ℕ)
  | pokeText (addr : ℕ) (val : UInt32)
  | detach
  deriving DecidableEq, Repr

/-- `lop_plt[i].lop_symname && !strcmp(lop_plt[i].lop_symname, fname)`. -/
def pltNamed (m : Bytes) (fname : List UInt8) (e : LopDynsym) : Bool :=
  e.lopSymname != 0 && holdsString m e.lopSymname fname

def pltEntries (info : LopInfo) : List LopDynsym := info.lopPlt.take info.lopDynsymCount.toNat

/-- The first loop: `sym1`. -/
def findTaskRel (m : Bytes) (fname1 : List UInt8) : List LopDynsym → Option ℕ
  | [] => none
  | e :: plt => if pltNamed m fname1 e then e.lopRel else findTaskRel m fname1 plt

/-- The second loop, which goes on behind a match. -/
def findLibSym (m : Bytes) (fname2 : List UInt8) (sym2 : Option ℕ) : List LopDynsym → Option ℕ
  | [] => sym2
  | e :: plt =>
      findLibSym m fname2 (if pltNamed m fname2 e then some e.lopSym else sym2) plt

/-- The requests of `map_parser_replace_virtual_addrfunc`, where `attached` says whether the first
one succeeds. -/
def mapParserReplaceVirtualAddrfunc (m : Bytes) (fname1 fname2 : List UInt8) (attached : Bool)
    (task lib : LopInfo) (libVaddr : UInt32) : List PtraceRequest :=
  match findTaskRel m fname1 (pltEntries task) with
  | none => []
  | some sym1 =>
      match findLibSym m fname2 none (pltEntries lib) with
      | none => []
      | some sym2 =>
          let newVal := libVaddr + UInt32.ofNat (stValue m sym2)
          if attached then
            [.attach, .peekText (rOffset m sym1), .pokeText (rOffset m sym1) newVal, .detach]
          else [.attach]

end Divers.GotModifier
