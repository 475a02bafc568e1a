import Divers.GotModifier.Patching
import Divers.GotModifier.Shellcode
import Divers.GotModifier.WordRounds

/-!
# The injection as a whole

`main` of `map_parser.c` with a process that runs the shell code: what `process_injector_inject`
does to the process, and what is left of it when the word of the function has been replaced.
-/

open Divers.Library Divers.Library.I386

namespace Divers.GotModifier

/-! ## The process -/

/-- The other registers of `struct user_regs_struct`; the place of `eax` is not looked at. -/
abbrev Others := Reg → Word

def machineOf (t : Target Others) : Machine where
  regs := Function.update t.regs.others .eax (BitVec.ofInt 32 t.regs.eax)
  eip := BitVec.ofNat 32 t.regs.eip
  mem := t.mem

def targetOf (m : Machine) : Target Others where
  mem := m.mem
  regs := { eip := m.eip.toNat, eax := (m.regs .eax).toInt, others := m.regs }

/-- The process had been stopped in the system call `number`, which the kernel restarts: it puts the
number back and goes back by the two bytes of `int 0x80`. -/
def restarted (number : Word) (m : Machine) : Machine :=
  { m.setReg .eax number with eip := m.eip - 2 }

/-- The process between PTRACE_CONT and the end of `wait`. -/
def shellRun (kernel : Machine → Machine) (fuel : ℕ) (number : Word) (t : Target Others) :
    Target Others :=
  match run kernel fuel (restarted number (machineOf t)) with
  | some (_, stopped) => targetOf stopped
  | none => t

/-! ## process_injector_inject and main -/

/-- An error is the text of the message with which the program ends. -/
def processInjectorInject {ρ : Type} (abi : Abi) (fuel : ℕ) (attached : Bool)
    (run : Target ρ → Target ρ) (target : Target ρ) (text : ℕ) (sh : Bytes)
    (shlen : BitVec abi.bits) (stack : Bytes) : Option (Except String (Injection ρ)) :=
  if attached then
    (processInjectorLoadDso abi fuel run target text sh shlen stack).map Except.ok
  else some (.error "ptrace")

/-- The array `sh`, with what is behind it in the memory of the program. -/
def shBytes (behind : Bytes) : Bytes := fun k ↦ (sh[k]?).getD (behind k)

def PtraceRequest.apply (mem : Bytes) : PtraceRequest → Bytes
  | .pokeText addr val => storeLE mem addr 4 val.toNat
  | _ => mem

def printfName : List UInt8 := ascii ['p', 'r', 'i', 'n', 't', 'f']

def evilprintName : List UInt8 := ascii ['e', 'v', 'i', 'l', 'p', 'r', 'i', 'n', 't']

/-- What the system answers to `main`: the library is not mapped where
`map_parser_init_lib_hooker` fails. -/
structure SysMain where
  init : SysInit
  libBase : Option ℕ
  attached : Bool
  attachedAgain : Bool

/-- What `main` leaves of the process. -/
structure Hooking (ρ : Type) where
  injection : Injection ρ
  mem : Bytes

/-- `main` with a pid and the name of a file.  `m` is the memory of the program itself, `lib` what
the variable of that name holds to begin with: that the library could not be mapped is not noticed.
`meanwhile` is what the process does to its memory between the two attachings. -/
def mapParserMain {ρ : Type} (m : Bytes) (fuel : ℕ) (sys : SysMain) (numpid : Int32)
    (lib : LopInfo) (stack behind : Bytes) (run : Target ρ → Target ρ) (meanwhile : Bytes → Bytes)
    (target : Target ρ) : Option (Except String (Hooking ρ)) := do
  match ← (mapParserInit m fuel sys.init numpid).ends with
  | .error message => return .error message
  | .ok td =>
      match ← sys.libBase.elim (some (.ok lib)) (lopInitInfo m fuel) with
      | .error message => return .error message
      | .ok lib =>
          match ← processInjectorInject i386 fuel sys.attached run target td.tdInfo.lopTextvaddr
            (shBytes behind) 90 stack with
          | .error message => return .error message
          | .ok injection =>
              let requests := mapParserReplaceVirtualAddrfunc m printfName evilprintName
                sys.attachedAgain td.tdInfo lib (UInt32.ofInt injection.ret)
              return .ok {
                injection
                mem := requests.foldl PtraceRequest.apply (meanwhile injection.final.mem) }

/-! ## What the injection leaves -/

/-- The text is in memory that system calls leave alone, and the stack below it or above. -/
structure Injectable (keep : ℕ → Prop) (text : ℕ) (esp : Word) : Prop where
  wrap : text + 90 ≤ 2 ^ 32
  kept : ∀ k < 90, keep (text + k)
  stack : 0x18 ≤ esp.toNat
  off : ∀ k < 90, OffStack esp (text + k)

section Injection

variable {kernel : Machine → Machine} {keep : ℕ → Prop} {text fuel steps : ℕ} {number : Word}
  {target : Target Others} {stack behind : Bytes}

theorem processInjectorLoadDso_eq {ρ : Type} {abi : Abi} {shlen : BitVec abi.bits}
    (run : Target ρ → Target ρ) (target : Target ρ) (text : ℕ) (sh stack : Bytes)
    (hfits : roundUp shlen.toNat abi.word < 2 ^ abi.bits) (hfuel : shlen.toNat ≤ fuel) :
    let n := roundUp shlen.toNat abi.word
    let resumed : Target ρ :=
      { mem := copied target.mem text sh 0 n, regs := { target.regs with eip := text + 2 } }
    processInjectorLoadDso abi fuel run target text sh shlen stack = some {
      ret := (run resumed).regs.eax
      resumed
      stopped := run resumed
      final := {
        mem := copied (run resumed).mem text (copied stack 0 target.mem text n) 0 n
        regs := target.regs } } := by
  simp only [processInjectorLoadDso, processInjectorReadAt_eq _ _ hfits hfuel,
    processInjectorWriteAt_eq _ _ hfits hfuel, Option.bind_eq_bind, Option.bind_some]
  rfl

/-- The process with the shell code in it, as it is resumed. -/
def withShell (behind : Bytes) (target : Target Others) (text : ℕ) : Target Others where
  mem := copied target.mem text (shBytes behind) 0 92
  regs := { target.regs with eip := text + 2 }

theorem shBytes_eq (behind : Bytes) {k : ℕ} (hk : k < sh.length) : shBytes behind k = sh[k] := by
  rw [shBytes, List.getElem?_eq_getElem hk, Option.getD_some]

theorem withShell_shell (behind : Bytes) (target : Target Others) {k : ℕ} (hk : k < sh.length) :
    (withShell behind target text).mem (text + k) = sh[k] := by
  have hlt : k < 90 := sh_length ▸ hk
  have hbyte := shBytes_eq behind hk
  show copied target.mem text (shBytes behind) 0 92 (text + k) = _
  rw [copied, if_pos (by omega), Nat.add_sub_cancel_left, Nat.zero_add, hbyte]

/-- The process that is resumed behind the first two bytes restarts at the first. -/
theorem restarted_eip : (restarted number (machineOf (withShell behind target text))).eip =
    BitVec.ofNat 32 text := by
  show BitVec.ofNat 32 (text + 2) - 2#32 = BitVec.ofNat 32 text
  rw [BitVec.ofNat_add, BitVec.add_sub_cancel]

theorem restarted_esp : (restarted number (machineOf (withShell behind target text))).regs .esp =
    target.regs.others .esp := by
  simp [restarted, machineOf, withShell]

theorem restarted_eax : (restarted number (machineOf (withShell behind target text))).regs .eax =
    number := by
  simp [restarted]

theorem Injectable.toNat_text (h : Injectable keep text (target.regs.others .esp)) :
    (BitVec.ofNat 32 text).toNat = text := by
  have hwrap := h.wrap
  rw [BitVec.toNat_ofNat, Nat.mod_eq_of_lt (by omega)]

theorem Injectable.loaded (h : Injectable keep text (target.regs.others .esp)) :
    Loaded keep (BitVec.ofNat 32 text)
      (restarted number (machineOf (withShell behind target text))) := by
  have hwrap := h.wrap
  have htext := h.toNat_text
  constructor
  case code =>
    intro k hk
    have hlt := hk
    rw [sh_length] at hlt
    rw [toNat_add_ofNat (by omega), htext]
    exact withShell_shell behind target hk
  case wrap => rwa [htext]
  case kept => rw [htext]; exact h.kept
  case stack => rw [restarted_esp]; exact h.stack
  case off => rw [restarted_esp, htext]; exact h.off

/-- What `process_injector_inject` comes to: the process makes two calls, `opened` and `mapped`, and
is as it was, but for the 24 bytes under its stack pointer and what the kernel wrote elsewhere. -/
structure Injects (kernel : Machine → Machine) (keep : ℕ → Prop) (number : Word)
    (target : Target Others) (text : ℕ) (injection : Injection Others) (opened mapped : Machine) :
    Prop where
  calls : ∃ stopped, run kernel 19 (restarted number (machineOf injection.resumed)) =
    some ([opened, mapped], stopped)
  opens : opened.regs .eax = 5 ∧ opened.regs .ecx = 0
  path : (opened.regs .ebx).toNat = text + 0x45 ∧ IsString opened.mem (text + 0x45) libPath
  maps : Maps (kernel opened) mapped
  ret : injection.ret = ((kernel mapped).regs .eax).toInt
  mem : ∀ x, keep x → OffStack (target.regs.others .esp) x → injection.final.mem x = target.mem x
  regs : injection.final.regs = target.regs

theorem processInjectorInject_injects (behind stack : Bytes) (hfuel : 90 ≤ fuel)
    (hsteps : 19 ≤ steps) (h : Injectable keep text (target.regs.others .esp))
    (hnumber : number.toNat < 2 ^ 8)
    (hkernel : ∀ called, called.regs .eax = 5 ∨ called.regs .eax = 90 →
      Returns keep called (kernel called)) :
    ∃ injection opened mapped,
      processInjectorInject i386 fuel true (shellRun kernel steps number) target text
        (shBytes behind) 90 stack = some (.ok injection) ∧
      Injects kernel keep number target text injection opened mapped := by
  have heip : (restarted number (machineOf (withShell behind target text))).eip =
      BitVec.ofNat 32 text := restarted_eip
  obtain ⟨opened, hopens, hopenEip, hopenRun⟩ := h.loaded.opens kernel heip
  have hopen : opened.regs .eax = 5 := by
    rw [hopens.isOpen_iff, restarted_eax]
    exact hnumber
  obtain ⟨mapped, stopped, hmaps, hrun, hret, hmem⟩ :=
    h.loaded.ends hopens hopenEip hopenRun hkernel hopen
  have hstopped : shellRun kernel steps number (withShell behind target text) =
      targetOf stopped := by
    obtain ⟨n, rfl⟩ := Nat.exists_eq_add_of_le hsteps
    rw [shellRun, run_mono hrun n]
  have hround : roundUp (90 : BitVec i386.bits).toNat i386.word = 92 := by decide
  rw [processInjectorInject, if_pos rfl,
    processInjectorLoadDso_eq _ _ _ _ _ (by decide) hfuel, hround]
  refine ⟨_, opened, mapped, rfl, ⟨⟨stopped, hrun⟩, ⟨hopen, hopens.flags⟩, ⟨?_, ?_⟩, hmaps,
    ?_, ?_, rfl⟩⟩
  · have hwrap := h.wrap
    have hplace : (BitVec.ofNat 32 text + 0x45#32).toNat = text + 0x45 := by
      rw [toNat_add_ofNat, h.toNat_text]
      rw [h.toNat_text]
      omega
    exact (congrArg BitVec.toNat hopens.path).trans hplace
  · have hpath := h.loaded.path hopens.mem
    rwa [h.toNat_text] at hpath
  · show (shellRun kernel steps number (withShell behind target text)).regs.eax = _
    rw [hstopped, targetOf, hret]
  · -- the text is written back, and off the text is what the shell code left
    intro x hx hoff
    show copied (shellRun kernel steps number (withShell behind target text)).mem text
      (copied stack 0 target.mem text 92) 0 92 x = target.mem x
    rw [hstopped, copied]
    split
    next hin =>
      rw [copied, if_pos (by omega)]
      congr 1
      omega
    next hout =>
      have hkeep := hmem x hx (by rwa [restarted_esp])
      refine hkeep.trans ?_
      show copied target.mem text (shBytes behind) 0 92 x = target.mem x
      rw [copied, if_neg hout]

end Injection

/-! ## What main leaves -/

section Main

variable {m : Bytes} {task lib : LopInfo}

theorem foldl_apply (requests : List PtraceRequest) (mem : Bytes) :
    requests.foldl PtraceRequest.apply mem =
      (pokes requests).foldl (fun mem poke ↦ storeLE mem poke.1 4 poke.2.toNat) mem := by
  induction requests generalizing mem with
  | nil => rfl
  | cons request requests ih =>
      rw [List.foldl_cons, ih]
      cases request <;> rfl

/-- The result of the injection is signed, and is taken for an address again. -/
theorem ofInt_toInt (address : Word) :
    UInt32.ofInt address.toInt = UInt32.ofNat address.toNat := by
  have hback := congrArg BitVec.toNat (BitVec.ofInt_toInt (x := address))
  rw [BitVec.toNat_ofInt] at hback
  rw [← hback]
  rfl

/-- The memory of the process once `main` is done with it: the word of the first entry with the one
name has become the address of the last with the other. -/
structure Hooks (m : Bytes) (task lib : LopInfo) (address : Word) (before after : Bytes) :
    Prop where
  found : ∀ e rel e', (pltEntries task).find? (pltNamed m printfName) = some e →
    e.lopRel = some rel → (pltEntries lib).reverse.find? (pltNamed m evilprintName) = some e' →
      loadLE after (Elf32.rOffset m rel) 4 = (address.toNat + Elf32.stValue m e'.lopSym) % 2 ^ 32 ∧
        ∀ x, x < Elf32.rOffset m rel ∨ Elf32.rOffset m rel + 4 ≤ x → after x = before x
  notFound : ((pltEntries task).find? (pltNamed m printfName)).bind LopDynsym.lopRel = none ∨
    (pltEntries lib).reverse.find? (pltNamed m evilprintName) = none → after = before

theorem mapParserReplaceVirtualAddrfunc_hooks (m : Bytes) (task lib : LopInfo) (address : Word)
    (before : Bytes) :
    Hooks m task lib address before
      ((mapParserReplaceVirtualAddrfunc m printfName evilprintName true task lib
        (UInt32.ofInt address.toInt)).foldl PtraceRequest.apply before) := by
  rw [foldl_apply, pokes_eq]
  constructor
  · intro e rel e' he hrel he'
    have hfirst : ((pltEntries task).find? (pltNamed m printfName)).bind LopDynsym.lopRel =
        some rel := by
      rw [he, Option.bind_some, hrel]
    have hvalue : (UInt32.ofInt address.toInt + UInt32.ofNat (Elf32.stValue m e'.lopSym)).toNat =
        (address.toNat + Elf32.stValue m e'.lopSym) % 2 ^ 32 := by
      rw [ofInt_toInt, UInt32.toNat_add, UInt32.toNat_ofNat', UInt32.toNat_ofNat', Nat.add_mod_mod,
        Nat.mod_add_mod]
    rw [hfirst, he']
    simp only [List.foldl_cons, List.foldl_nil, hvalue]
    exact ⟨loadLE_storeLE_same _ (Nat.mod_lt _ (by decide)), fun x hx ↦ storeLE_outside _ hx⟩
  · intro hnone
    cases hrel : ((pltEntries task).find? (pltNamed m printfName)).bind LopDynsym.lopRel with
    | none => rfl
    | some rel =>
        rw [hnone.resolve_left (hrel ▸ Option.some_ne_none rel)]
        rfl

/-- The process is hooked where everything that `main` asks for succeeds, be it that the library was
opened and mapped by the process or not: its result is taken for an address. -/
theorem mapParserMain_hooks {kernel : Machine → Machine} {keep : ℕ → Prop} {fuel steps base : ℕ}
    {number : Word} {target : Target Others} {sys : SysMain} {numpid : Int32} {td : TaskDesc}
    (m stack behind : Bytes) (meanwhile : Bytes → Bytes) (libStart : LopInfo)
    (hinit : (mapParserInit m fuel sys.init numpid).ends = some (.ok td))
    (hbase : sys.libBase = some base) (hlib : lopInitInfo m fuel base = some (.ok lib))
    (hattached : sys.attached = true) (hagain : sys.attachedAgain = true) (hfuel : 90 ≤ fuel)
    (hsteps : 19 ≤ steps) (h : Injectable keep td.tdInfo.lopTextvaddr (target.regs.others .esp))
    (hnumber : number.toNat < 2 ^ 8)
    (hkernel : ∀ called, called.regs .eax = 5 ∨ called.regs .eax = 90 →
      Returns keep called (kernel called)) :
    ∃ hooking opened mapped,
      mapParserMain m fuel sys numpid libStart stack behind (shellRun kernel steps number) meanwhile
        target = some (.ok hooking) ∧
      Injects kernel keep number target td.tdInfo.lopTextvaddr hooking.injection opened mapped ∧
      Hooks m td.tdInfo lib ((kernel mapped).regs .eax) (meanwhile hooking.injection.final.mem)
        hooking.mem := by
  obtain ⟨injection, opened, mapped, hinject, hinjects⟩ :=
    processInjectorInject_injects behind stack hfuel hsteps h hnumber hkernel
  have hhooks := mapParserReplaceVirtualAddrfunc_hooks m td.tdInfo lib ((kernel mapped).regs .eax)
    (meanwhile injection.final.mem)
  rw [← hinjects.ret] at hhooks
  refine ⟨⟨injection, _⟩, opened, mapped, ?_, hinjects, hhooks⟩
  simp only [mapParserMain, hinit, hbase, Option.elim, hlib, hattached, hinject, hagain,
    Option.bind_eq_bind, Option.bind_some]
  rfl

end Main

/-- An image with the undefined symbol `printf`, for which there is a relocation, and with
`evilprint`. -/
def hookImage : List (ℕ × List UInt8) :=
  [(28, bytesLE 4 52), (32, bytesLE 4 116), (44, bytesLE 2 2), (48, bytesLE 2 4),
    -- `r-x` and `rw-`
    (52, bytesLE 4 ptLoad), (60, bytesLE 4 0x8048000), (76, bytesLE 4 5),
    (84, bytesLE 4 ptLoad), (92, bytesLE 4 0x8049000), (108, bytesLE 4 6),
    -- `.dynsym`, `.dynstr` and `.rel.plt`
    (160, bytesLE 4 shtDynsym), (172, bytesLE 4 276), (176, bytesLE 4 48), (180, bytesLE 4 2),
    (200, bytesLE 4 3), (212, bytesLE 4 324), (216, bytesLE 4 18),
    (240, bytesLE 4 shtRel), (252, bytesLE 4 342), (256, bytesLE 4 8), (260, bytesLE 4 1),
    (292, bytesLE 4 1),
    (308, bytesLE 4 8), (312, bytesLE 4 0x460), (322, bytesLE 2 5),
    (325, printfName), (332, evilprintName),
    (342, bytesLE 4 0x8049010), (346, bytesLE 4 (2 ^ 8 * 1 + 7))]

def hookMemory : Bytes := placed 0x1000 hookImage

def hookInfo : LopInfo :=
  { lopEhdr := 0x1000, lopPhdr := 0x1000 + 52, lopShdr := 0x1000 + 116
    lopTextvaddr := 0x8048000, lopDatavaddr := 0x8049000
    lopPlt := [⟨0x1000 + 276, some (0x1000 + 350), 0x1000 + 324⟩,
      ⟨0x1000 + 292, some (0x1000 + 342), 0x1000 + 325⟩, ⟨0x1000 + 308, none, 0x1000 + 332⟩]
    lopDynsymCount := 3 }

def hookTarget : Target Others where
  mem := fun _ ↦ 0x90
  regs := { eip := 0x8048100, eax := 3, others := fun _ ↦ 0xbfff0000 }

def hookSys : SysMain where
  init := { memOpens := true, fd := 3, stSize := some 360, mapped := some 0x1000 }
  libBase := some 0x1000
  attached := true
  attachedAgain := true

theorem mapParserMain_hooks_read :
    ∃ hooking opened mapped,
      mapParserMain hookMemory 90 hookSys 7 hookInfo (fun _ ↦ 0) (fun _ ↦ 0)
        (shellRun answer 19 3) id hookTarget = some (.ok hooking) ∧
      Injects answer (fun _ ↦ True) 3 hookTarget 0x8048000 hooking.injection opened mapped ∧
      Hooks hookMemory hookInfo hookInfo ((answer mapped).regs .eax) hooking.injection.final.mem
        hooking.mem :=
  mapParserMain_hooks hookMemory (fun _ ↦ 0) (fun _ ↦ 0) id hookInfo
    (show (mapParserInit hookMemory 90 hookSys.init 7).ends = some (.ok ⟨0x1000, 360, hookInfo⟩) by
      decide +kernel) rfl (by decide +kernel) rfl rfl (by decide) (by decide)
    { wrap := by decide
      kept := fun _ _ ↦ trivial
      stack := by decide
      off := fun k hk ↦ .inl (Nat.lt_of_lt_of_le (Nat.add_lt_add_left hk _) (by decide)) }
    (by decide) fun called _ ↦ answer_returns called

end Divers.GotModifier
