import Divers.DslElf.ExternalSyms
import Divers.DslElf.SearchDso
import Divers.Library.HandleLog

/-!
# dsl_elf: the program

`main` of `dsl_elf.c`: it loads `liblib.so`, finds where it is mapped, maps its file, lets the words
that the loader filled in for `funky` point to its own function, and calls the library.  The file is
mapped for reading only, so it is an image of its own beside the memory that is written.
-/

open Divers.Library Divers.Library.Elf64

namespace Divers.DslElf

/-! ## Files -/

structure DlsFile where
  dfFd : ℤ
  dfMap : ℕ
  dfSize : ℕ
  deriving DecidableEq, Repr

/-- What the system answers: the file descriptor, the size of the file unless `fstat` fails, where
the file is mapped unless `mmap` fails, and `errno` behind the calls that failed. -/
structure SysFile where
  fd : ℤ
  stSize : Option ℕ
  mapped : Option ℕ
  errno : ℤ

abbrev Log := List (HandleEvent Resource)

/-- `dls_file_open`: what it returns, `*f` if it is filled, and the log. -/
def dlsFileOpen (sys : SysFile) (log : Log) : ℤ × Option DlsFile × Log :=
  if sys.fd < 0 then (-sys.errno, none, log)
  else
    let log := .opened (.fd sys.fd) :: log
    match sys.stSize with
    | none => (-sys.errno, none, .closed (.fd sys.fd) :: log)
    | some stSize =>
        match sys.mapped with
        | none => (-sys.errno, none, .closed (.fd sys.fd) :: log)
        | some map =>
            (0, some { dfFd := sys.fd, dfMap := map, dfSize := stSize },
              .opened (.mapping map stSize) :: log)

def dlsFileClose (f : DlsFile) (log : Log) : Log :=
  let log := .closed (.mapping f.dfMap f.dfSize) :: log
  .closed (.fd f.dfFd) :: log

/-! ## The loop -/

def funkyName : List UInt8 := ascii ['f', 'u', 'n', 'k', 'y']

def liblibName : List UInt8 := ascii ['l', 'i', 'b', 'l', 'i', 'b', '.', 's', 'o']

/-- `vec2.iov_base + de_rel->r_offset`. -/
def hookedWord (image : Bytes) (iovBase : UInt64) (rel : ℕ) : ℕ :=
  (iovBase + UInt64.ofNat (rOffset image rel)).toNat

/-- A round of the loop over `out`; it crashes where `de_rel` is NULL. -/
def hookRound (image : Bytes) (iovBase funky : UInt64) (m : Bytes) (sym : DlsExternalSym) :
    Option Bytes :=
  if holdsString image sym.deName funkyName then
    sym.deRel.map fun rel ↦ storeLE m (hookedWord image iovBase rel) 8 funky.toNat
  else some m

/-! ## The program -/

/-- What the loader answers: the handle unless `dlopen` fails, and what a call of `hello_world`
makes of the memory unless `dlsym` does not find it. -/
structure SysLoader where
  handle : Option ℕ
  helloWorld : Option (Bytes → Bytes)

/-- What `main` leaves behind, with the memory that `ptr` was called on, if it was. -/
structure MainRun where
  called : Option Bytes
  mem : Bytes
  log : Log

/-- `none` if `main` crashes, overruns an array or uses what was not set.  `sys` and `images` are
what the system makes of a path, `funky` is the address of the function. -/
def dslElfMain (dl : SysLoader) (fopen : List UInt8 → Option (List UInt8)) (getpid : UInt32)
    (stack : Vars) (sys : List UInt8 → SysFile) (images : List UInt8 → Bytes) (funky : UInt64)
    (m : Bytes) : Option MainRun :=
  match dl.handle with
  | none => some { called := none, mem := m, log := [] }
  | some handle => do
      let found ← dlsSearchDso liblibName fopen getpid stack
      -- `f` and `vec2` stay unset where nothing is found, and `f` where it cannot be opened
      let path ← found.opened
      let vec2 ← found.vector
      let (_, f, log) := dlsFileOpen (sys path) [.opened (.library handle)]
      let f ← f
      let out ← dlsGetExternalSyms (images path) f.dfMap
      let m ← (out.map Prod.fst).foldlM (hookRound (images path) vec2.1 funky) m
      let ptr ← dl.helloWorld
      let log := .closed (.library handle) :: log
      return { called := some m, mem := ptr m, log := dlsFileClose f log }

/-! ## What the loop writes -/

section Loop

variable {image : Bytes} {iovBase funky : UInt64} {syms : List DlsExternalSym} {m m' : Bytes}

/-- The words of the symbols that are called `funky`. -/
def hookedWords (image : Bytes) (iovBase : UInt64) (syms : List DlsExternalSym) : List ℕ :=
  syms.filterMap fun sym ↦
    if holdsString image sym.deName funkyName then sym.deRel.map (hookedWord image iovBase)
    else none

theorem mem_hookedWords {w : ℕ} : w ∈ hookedWords image iovBase syms ↔
    ∃ sym ∈ syms, holdsString image sym.deName funkyName = true ∧
      ∃ rel, sym.deRel = some rel ∧ hookedWord image iovBase rel = w := by
  simp [hookedWords, List.mem_filterMap, ite_eq_iff]

theorem hookRound_eq_none {sym : DlsExternalSym} :
    hookRound image iovBase funky m sym = none ↔
      holdsString image sym.deName funkyName = true ∧ sym.deRel = none := by
  unfold hookRound
  split
  next hname => simp [hname]
  next hname => simp [hname]

/-- What a round stores. -/
theorem storeEach_hookRound {sym : DlsExternalSym} {m₁ : Bytes}
    (hround : hookRound image iovBase funky m sym = some m₁) :
    storeEach m 8 funky.toNat (hookedWords image iovBase (sym :: syms)) =
      storeEach m₁ 8 funky.toNat (hookedWords image iovBase syms) := by
  unfold hookRound at hround
  by_cases hname : holdsString image sym.deName funkyName = true
  · rw [if_pos hname] at hround
    obtain ⟨rel, hrel, rfl⟩ := Option.map_eq_some_iff.mp hround
    rw [hookedWords, List.filterMap_cons_some (b := hookedWord image iovBase rel)
      (by rw [if_pos hname, hrel, Option.map_some]), storeEach, List.foldl_cons, ← storeEach,
      ← hookedWords]
  · rw [if_neg hname, Option.some.injEq] at hround
    rw [hookedWords, List.filterMap_cons_none (by rw [if_neg hname]), hround, ← hookedWords]

/-- The loop crashes at a symbol without relocation, or stores the address in each of the words. -/
theorem foldlM_hookRound (image : Bytes) (iovBase funky : UInt64) (syms : List DlsExternalSym)
    (m : Bytes) :
    ((∃ sym ∈ syms, holdsString image sym.deName funkyName = true ∧ sym.deRel = none) ∧
      syms.foldlM (hookRound image iovBase funky) m = none) ∨
    ((∀ sym ∈ syms, holdsString image sym.deName funkyName = true → sym.deRel ≠ none) ∧
      syms.foldlM (hookRound image iovBase funky) m =
        some (storeEach m 8 funky.toNat (hookedWords image iovBase syms))) := by
  induction syms generalizing m with
  | nil => exact Or.inr ⟨fun _ hmem ↦ absurd hmem List.not_mem_nil, rfl⟩
  | cons sym syms ih =>
      rw [List.foldlM_cons]
      cases hround : hookRound image iovBase funky m sym with
      | none =>
          refine Or.inl ⟨⟨sym, List.mem_cons_self, hookRound_eq_none.mp hround⟩, ?_⟩
          rw [Option.bind_eq_bind, Option.bind_none]
      | some m₁ =>
          rw [Option.bind_eq_bind, Option.bind_some, storeEach_hookRound hround]
          obtain ⟨⟨sym', hmem, hbad⟩, hrun⟩ | ⟨hgood, hrun⟩ := ih m₁
          · exact Or.inl ⟨⟨sym', List.mem_cons_of_mem sym hmem, hbad⟩, hrun⟩
          · refine Or.inr ⟨fun sym' hmem hname ↦ ?_, hrun⟩
            obtain rfl | hmem := List.mem_cons.mp hmem
            · intro hrel
              rw [hookRound_eq_none.mpr ⟨hname, hrel⟩] at hround
              cases hround
            · exact hgood sym' hmem hname

end Loop

/-! ## What the program does -/

section Program

variable (image : Bytes) (base s4 s5 : ℕ)

/-- Symbol `i` is external and called `funky`. -/
def IsFunky (i : ℕ) : Prop :=
  i < shSize image s4 / sizeofSym ∧ isExternal image (symAt image base s4 i) = true ∧
    holdsString image (base + shOffset image s5 + stName image (symAt image base s4 i)) funkyName =
      true

/-- Its first relocation entry in the sections for these. -/
def relocation (i : ℕ) : Option ℕ :=
  (relasInside image base (sectionIndex image base s4)).find? (relaOfSym image i)

/-- The word at `w` is that of a symbol called `funky`. -/
def IsHooked (iovBase : UInt64) (w : ℕ) : Prop :=
  ∃ i rel, IsFunky image base s4 s5 i ∧ relocation image base s4 i = some rel ∧
    w = hookedWord image iovBase rel

/-- `m'` is `m` with `v` in the words of the symbols called `funky`. -/
structure Hooks (iovBase v : UInt64) (m m' : Bytes) : Prop where
  words : ∀ w, IsHooked image base s4 s5 iovBase w → loadLE m' w 8 = v.toNat
  rest : ∀ x, (∀ w, IsHooked image base s4 s5 iovBase w → x < w ∨ w + 8 ≤ x) → m' x = m x

variable {image base s4 s5}

/-- The array that `dls_get_external_syms` fills. -/
def listedSyms (image : Bytes) (base s4 s5 : ℕ) : List DlsExternalSym :=
  (((List.range (nrSym image s4)).filter fun i ↦ isExternal image (symAt image base s4 i)).map
    (listedSym image base s4 s5)).map Prod.fst

/-- On an image with exact tables it has the external symbols. -/
theorem mem_listedSyms (hexact : ExternalsExact image base s4) {sym : DlsExternalSym} :
    sym ∈ listedSyms image base s4 s5 ↔
      ∃ i < shSize image s4 / sizeofSym, isExternal image (symAt image base s4 i) = true ∧
        sym = externalSym image base s4 s5 i := by
  have hle := nrSym_le image s4
  simp only [listedSyms, List.map_map, List.mem_map, List.mem_filter, List.mem_range,
    Function.comp_apply]
  constructor
  · rintro ⟨i, ⟨hlt, hext⟩, rfl⟩
    have hi := hexact i (by omega) hext
    exact ⟨i, by omega, hext, ((listedSym_iff image base s4 s5 i).mpr hi.2).1⟩
  · rintro ⟨i, hlt, hext, rfl⟩
    have hi := hexact i hlt hext
    exact ⟨i, ⟨hi.1, hext⟩, ((listedSym_iff image base s4 s5 i).mpr hi.2).1⟩

theorem mem_hookedWords_listedSyms (hexact : ExternalsExact image base s4) (s5 : ℕ)
    (iovBase : UInt64) (w : ℕ) : w ∈ hookedWords image iovBase (listedSyms image base s4 s5) ↔
      IsHooked image base s4 s5 iovBase w := by
  rw [mem_hookedWords]
  constructor
  · rintro ⟨sym, hsym, hname, rel, hrel, rfl⟩
    obtain ⟨i, hlt, hext, rfl⟩ := (mem_listedSyms hexact).mp hsym
    exact ⟨i, rel, ⟨hlt, hext, hname⟩, hrel, rfl⟩
  · rintro ⟨i, rel, ⟨hlt, hext, hname⟩, hrel, rfl⟩
    exact ⟨_, (mem_listedSyms hexact).mpr ⟨i, hlt, hext, rfl⟩, hname, rel, hrel, rfl⟩

variable {dl : SysLoader} {fopen : List UInt8 → Option (List UInt8)} {pid : UInt32}
  {path : List UInt8} {lines : List MapsLine} {l : MapsLine} {stack : Vars}
  {sys : List UInt8 → SysFile} {images : List UInt8 → Bytes} {handle len : ℕ}

theorem dlsFileOpen_eq {sys : SysFile} (hfd : 0 ≤ sys.fd) (hsize : sys.stSize = some len)
    (hmap : sys.mapped = some base) (log : Log) :
    dlsFileOpen sys log =
      (0, some { dfFd := sys.fd, dfMap := base, dfSize := len },
        .opened (.mapping base len) :: .opened (.fd sys.fd) :: log) := by
  rw [dlsFileOpen, if_neg (by omega), hsize, hmap]

/-- What a run that loads, opens and maps leaves in the log: all of it closed. -/
def closedAll (handle : ℕ) (fd : ℤ) (base len : ℕ) : Log :=
  [.closed (.fd fd), .closed (.mapping base len), .closed (.library handle),
    .opened (.mapping base len), .opened (.fd fd), .opened (.library handle)]

section Found

variable (hhandle : dl.handle = some handle) (hproc : Procfs fopen pid lines)
  (hpid : pid.toNat < 100000) (hfirst : TakenFirst liblibName stack.lib lines l path)
  (hfd : 0 ≤ (sys path).fd) (hsize : (sys path).stSize = some len)
  (hmap : (sys path).mapped = some base)
  (hdynsym : dlsGetShdrByName (images path) base dynsymName = some s4)
  (hdynstr : dlsGetShdrByName (images path) base dynstrName = some s5)
include hhandle hproc hpid hfirst hfd hsize hmap hdynsym hdynstr

/-- What comes before the loop, and behind it. -/
theorem dslElfMain_eq (funky : UInt64) (m : Bytes) :
    dslElfMain dl fopen pid stack sys images funky m =
      ((listedSyms (images path) base s4 s5).foldlM
        (hookRound (images path) l.range.1 funky) m).bind fun m' ↦ dl.helloWorld.bind fun ptr ↦
          some { called := some m', mem := ptr m',
                 log := closedAll handle (sys path).fd base len } := by
  have hsearch : dlsSearchDso liblibName fopen pid stack =
      some { ret := 1, opened := some path, vector := some l.range } := by
    rw [dlsSearchDso_lines hproc hpid, takenOutcome_eq_iff.mpr ⟨l, hfirst, rfl⟩]
  unfold dslElfMain
  rw [hhandle]
  dsimp only
  rw [hsearch, Option.bind_eq_bind, Option.bind_some]
  simp only [dlsFileOpen_eq hfd hsize hmap, dlsGetExternalSyms_eq hdynsym hdynstr,
    Option.bind_eq_bind, Option.bind_some, listedSyms]
  rfl

end Found

end Program

/-- The text of `liblib.so`. -/
def liblibLine : MapsLine :=
  { libraryLine with
    perms := ascii ['r', '-', 'x', 'p']
    offset := anonymousLine.offset
    name := slash :: liblibName
    offset_hex := anonymousLine.offset_hex
    perms_field := by decide +kernel
    perms_length := by decide +kernel
    name_line := by decide +kernel
    fits_line := by decide +kernel
    fits_lib := by decide +kernel }

def opensAt (_ : List UInt8) : SysFile :=
  { fd := 3, stSize := some 528, mapped := some 0x1000, errno := 0 }

def funkyImage (_ : List UInt8) : Bytes := symMemory (2 ^ 32 + 7)

-- The relocation of `funky` is the first of the section.
theorem relocation_funky :
    relocation (symMemory (2 ^ 32 + 7)) 0x1000 0x1080 1 = some 0x1180 := by decide +kernel

def liblibLoader : SysLoader := { handle := some 5, helloWorld := some id }

end Divers.DslElf
