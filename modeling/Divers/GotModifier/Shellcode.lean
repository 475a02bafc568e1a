import Divers.GotModifier.Injector
import Divers.Library.I386
import Divers.Library.CString

/-!
# The shell code

The bytes `sh` of `map_parser.c`, as the processor runs them: from their own code to the two system
calls that they make.  They jump to their end and call back, so that the address of the path of the
library is on the stack, and open it; then they map it with the arguments in a record under the
stack pointer, and stop.
-/

open Divers.Library Divers.Library.I386

namespace Divers.GotModifier

def shCode : List UInt8 :=
  [0xe9, 0x3b, 0x00, 0x00, 0x00, 0x31, 0xc9, 0xb0, 0x05, 0x5b, 0x31, 0xc9, 0xcd, 0x80, 0x83, 0xec,
    0x18, 0x31, 0xd2, 0x89, 0x14, 0x24, 0xc7, 0x44, 0x24, 0x04, 0x00, 0x20, 0x00, 0x00, 0xc7, 0x44,
    0x24, 0x08, 0x07, 0x00, 0x00, 0x00, 0xc7, 0x44, 0x24, 0x0c, 0x02, 0x00, 0x00, 0x00, 0x89, 0x44,
    0x24, 0x10, 0x89, 0x54, 0x24, 0x14, 0xb8, 0x5a, 0x00, 0x00, 0x00, 0x89, 0xe3, 0xcd, 0x80, 0xcc,
    0xe8, 0xc0, 0xff, 0xff, 0xff]

def libPath : List UInt8 :=
  ascii ['/', 'l', 'i', 'b', '/', 'l', 'i', 'b', 't', 'e', 's', 't', '.', 's', 'o', '.', '1', '.',
    '0']

/-- `sh`, with the NUL that the string literal adds to its own. -/
def sh : List UInt8 := shCode ++ libPath ++ [0, 0]

/-! ## The two blocks -/

def openBlock : List (Op × ℕ) :=
  [(.jmp 0x3b, 5), (.call 0xffffffc0, 5), (.xor (.reg .ecx) .ecx, 2), (.movLow .eax 5, 2),
    (.pop .ebx, 1), (.xor (.reg .ecx) .ecx, 2)]

def mapBlock : List (Op × ℕ) :=
  [(.sub (.reg .esp) 0x18, 3), (.xor (.reg .edx) .edx, 2), (.mov (.mem .esp 0) .edx, 3),
    (.movImm (.mem .esp 4) 0x2000, 8), (.movImm (.mem .esp 8) 7, 8), (.movImm (.mem .esp 12) 2, 8),
    (.mov (.mem .esp 16) .eax, 4), (.mov (.mem .esp 20) .edx, 4), (.movImm (.reg .eax) 90, 5),
    (.mov (.reg .ebx) .esp, 2)]

theorem follow_open : follow sh 6 0 = some (openBlock, 0x0c) := by decide +kernel

theorem follow_map : follow sh 10 0x0e = some (mapBlock, 0x3d) := by decide +kernel

theorem decodeAt_open : decodeAt sh 0x0c = some (.int 0x80, 2) := by decide +kernel

theorem decodeAt_map : decodeAt sh 0x3d = some (.int 0x80, 2) := by decide +kernel

theorem decodeAt_int3 : decodeAt sh 0x3f = some (.int3, 1) := by decide +kernel

/-! ## What the blocks do -/

/-- All but the 24 bytes under the stack pointer. -/
def OffStack (esp : Word) (x : ℕ) : Prop := x < esp.toNat - 0x18 ∨ esp.toNat ≤ x

/-- The system call is `open(libPath, O_RDONLY)`, with a number of which the last byte is set. -/
structure Opens (text : Word) (m called : Machine) : Prop where
  number : called.regs .eax = m.regs .eax &&& 0xffffff00 ||| 5
  path : called.regs .ebx = text + 0x45
  flags : called.regs .ecx = 0
  esp : called.regs .esp = m.regs .esp
  mem : ∀ x, OffStack (m.regs .esp) x → called.mem x = m.mem x

/-- The system call is `mmap(NULL, 0x2000, PROT_READ | PROT_WRITE | PROT_EXEC, MAP_PRIVATE, eax,
0)`, the old one, for which `ebx` points to the arguments. -/
structure Maps (m called : Machine) : Prop where
  number : called.regs .eax = 90
  record : called.regs .ebx = m.regs .esp - 0x18
  arguments : [0, 4, 8, 12, 16, 20].map
      (fun i ↦ called.load (called.regs .ebx + BitVec.ofNat 32 i)) =
    [0, 0x2000, 7, 2, m.regs .eax, 0]
  mem : ∀ x, OffStack (m.regs .esp) x → called.mem x = m.mem x

section Blocks

variable {m : Machine} {text : Word}

theorem OffStack.outside {esp : Word} {x i : ℕ} (h : OffStack esp x) (hstack : 0x18 ≤ esp.toNat)
    (hi : i ≤ 20) : x < (esp - 24#32 + BitVec.ofNat 32 i).toNat ∨
      (esp - 24#32 + BitVec.ofNat 32 i).toNat + 4 ≤ x := by
  have hbase : (esp - 24#32).toNat = esp.toNat - 24 := BitVec.toNat_sub_of_le hstack
  have hlt := esp.isLt
  rw [toNat_add_ofNat (by omega), hbase]
  rw [OffStack] at h
  omega

theorem openBlock_fits (hstack : 0x18 ≤ (m.regs .esp).toNat) :
    Fits (OffStack (m.regs .esp)) m openBlock := by
  have hpushed : m.regs .esp - 4#32 = m.regs .esp - 24#32 + 20#32 := by bv_omega
  simp only [Fits, openBlock, Op.stores, Operand.stores, Op.exec, advance_regs, jump_regs,
    Option.mem_def, Option.some.injEq, forall_eq', BitVec.ofNat_eq_ofNat, reduceCtorEq,
    false_imp_iff, implies_true, true_and, and_true, hpushed]
  exact fun x hx ↦ hx.outside hstack (by decide)

theorem mapBlock_fits (hstack : 0x18 ≤ (m.regs .esp).toNat) :
    Fits (OffStack (m.regs .esp)) m mapBlock := by
  simp only [Fits, mapBlock, Op.stores, Operand.stores, Op.exec, Machine.read, Machine.write,
    Machine.address, advance_regs, store_regs, setReg_regs, reduceIte, reduceCtorEq, Option.mem_def,
    Option.some.injEq, forall_eq', BitVec.ofNat_eq_ofNat, false_imp_iff, implies_true, true_and,
    and_true]
  refine ⟨?_, ?_, ?_, ?_, ?_, ?_⟩
  all_goals exact fun x hx ↦ hx.outside hstack (by decide)

theorem openBlock_exec (hstack : 0x18 ≤ (m.regs .esp).toNat) :
    Opens m.eip m ((execAll m openBlock).advance 2) := by
  constructor
  case mem =>
    intro x hx
    rw [advance_mem]
    exact (openBlock_fits hstack).mem_eq hx
  all_goals simp only [openBlock, execAll_cons, execAll_nil, advance_regs]
  case esp =>
    simp only [Op.exec, Machine.write, advance_regs, jump_regs, store_regs, setReg_regs,
      reduceIte, reduceCtorEq, BitVec.sub_add_cancel]
  all_goals simp [Op.exec, Machine.write, Machine.read, BitVec.add_assoc]

theorem mapBlock_exec (hstack : 0x18 ≤ (m.regs .esp).toNat) :
    Maps m ((execAll m mapBlock).advance 2) := by
  have hbase : (m.regs .esp - 24#32).toNat = (m.regs .esp).toNat - 24 :=
    BitVec.toNat_sub_of_le hstack
  have hlt := (m.regs .esp).isLt
  constructor
  case mem =>
    intro x hx
    rw [advance_mem]
    exact (mapBlock_fits hstack).mem_eq hx
  all_goals
    simp only [mapBlock, execAll_cons, execAll_nil, Op.exec, Machine.write, Machine.read,
      Machine.address, advance_regs, store_regs, setReg_regs, reduceIte, reduceCtorEq]
  case arguments =>
    simp only [List.map_cons, List.map_nil, advance_load, setReg_load, BitVec.xor_self,
      BitVec.ofNat_eq_ofNat]
    simp (disch := omega) only [load_store_field, load_store_same, advance_load]

end Blocks

/-! ## The run -/

theorem sh_length : sh.length = 90 := by decide

/-- The bits of the number, whose last byte is that of `open`. -/
theorem number_bit (eax : Word) {i : ℕ} (hi : i < 32) :
    (eax &&& 0xffffff00#32 ||| 5#32).getLsbD i =
      if i < 8 then (5#32).getLsbD i else eax.getLsbD i := by
  have hmask : ∀ i < 32, (0xffffff00#32).getLsbD i = decide (8 ≤ i) := by decide
  have hfive : ∀ i < 32, 8 ≤ i → (5#32).getLsbD i = false := by decide
  rw [BitVec.getLsbD_or, BitVec.getLsbD_and, hmask i hi]
  by_cases hlow : i < 8
  · simp [hlow, Nat.not_le.mpr hlow]
  · simp [hlow, Nat.not_lt.mp hlow, hfive i hi]

theorem number_eq_five_iff (eax : Word) :
    eax &&& 0xffffff00#32 ||| 5#32 = 5#32 ↔ eax.toNat < 2 ^ 8 := by
  constructor
  · intro h
    apply Nat.lt_pow_two_of_testBit
    intro i hi
    by_cases hlt : i < 32
    · have hbit := number_bit eax hlt
      rw [h, if_neg (by omega)] at hbit
      have hfive : ∀ i < 32, 8 ≤ i → (5#32).getLsbD i = false := by decide
      exact hbit.symm.trans (hfive i hlt hi)
    · exact BitVec.getLsbD_of_ge eax i (by omega)
  · intro h
    apply BitVec.eq_of_getLsbD_eq
    intro i hi
    rw [number_bit eax hi]
    split
    next => rfl
    next hlow =>
      have hclear : eax.getLsbD i = false := Nat.testBit_lt_two_pow
        (Nat.lt_of_lt_of_le h (Nat.pow_le_pow_right (by decide) (by omega)))
      have hfive : ∀ i < 32, 8 ≤ i → (5#32).getLsbD i = false := by decide
      rw [hclear, hfive i hi (by omega)]

theorem path_byte {k : ℕ} (hk : k < 20) :
    sh[69 + k]? = (libPath ++ [0])[k]? := by
  revert k
  decide

/-- The code is in memory that system calls leave alone, and so that the stack does not meet it. -/
structure Loaded (keep : ℕ → Prop) (text : Word) (m : Machine) : Prop where
  code : CodeAt m.mem text sh
  wrap : text.toNat + 90 ≤ 2 ^ 32
  kept : ∀ k < 90, keep (text.toNat + k)
  stack : 0x18 ≤ (m.regs .esp).toNat
  off : ∀ k < 90, OffStack (m.regs .esp) (text.toNat + k)

section Run

variable {kernel : Machine → Machine} {keep : ℕ → Prop} {text : Word} {m m' : Machine} {k : ℕ}

namespace Loaded

theorem place (h : Loaded keep text m) (hk : k < sh.length) :
    (text + BitVec.ofNat 32 k).toNat = text.toNat + k := by
  have hwrap := h.wrap
  rw [sh_length] at hk
  exact toNat_add_ofNat (by omega)

theorem codeOff (h : Loaded keep text m) :
    ∀ k < sh.length, OffStack (m.regs .esp) (text + BitVec.ofNat 32 k).toNat := by
  intro k hk
  rw [h.place hk]
  exact h.off k hk

theorem codeAt (h : Loaded keep text m)
    (hmem : ∀ x, keep x → OffStack (m.regs .esp) x → m'.mem x = m.mem x) :
    CodeAt m'.mem text sh := by
  intro k hk
  rw [h.place hk, hmem _ (h.kept k hk) (h.off k hk), ← h.place hk]
  exact h.code k hk

theorem congr (h : Loaded keep text m) (hesp : m'.regs .esp = m.regs .esp)
    (hmem : ∀ x, keep x → OffStack (m.regs .esp) x → m'.mem x = m.mem x) :
    Loaded keep text m' :=
  ⟨h.codeAt hmem, h.wrap, h.kept, hesp ▸ h.stack, hesp ▸ h.off⟩

/-- The path is behind the instructions, and has its NUL. -/
theorem path (h : Loaded keep text m)
    (hmem : ∀ x, OffStack (m.regs .esp) x → m'.mem x = m.mem x) :
    IsString m'.mem (text.toNat + 0x45) libPath := by
  refine ⟨by decide, holdsString_of_bytes fun k hk ↦ ?_⟩
  have hlt : 69 + k < sh.length := by
    have hlength : libPath.length = 19 := rfl
    rw [sh_length]
    omega
  have hbyte := h.code (69 + k) hlt
  rw [h.place hlt, ← hmem _ (h.off _ hlt)] at hbyte
  rw [← path_byte (Nat.lt_succ_of_le hk), List.getElem?_eq_getElem hlt, ← hbyte, Nat.add_assoc]

theorem opens (kernel : Machine → Machine) (h : Loaded keep text m) (heip : m.eip = text) :
    ∃ opened, Opens text m opened ∧ opened.eip = text + 0x0e ∧
      ∀ fuel, run kernel (fuel + 7) m = (run kernel fuel (kernel opened)).map
        fun (calls, stopped) ↦ (opened :: calls, stopped) := by
  have hrun := fun fuel ↦ run_call kernel fuel h.code h.codeOff follow_open
    (openBlock_fits h.stack) (heip.trans (BitVec.add_zero _).symm) decodeAt_open
  have hopens := openBlock_exec h.stack
  rw [heip] at hopens
  exact ⟨_, hopens, (hrun 0).2, fun fuel ↦ (hrun fuel).1⟩

theorem maps (kernel : Machine → Machine) (h : Loaded keep text m) (heip : m.eip = text + 0x0e) :
    ∃ mapped, Maps m mapped ∧ mapped.eip = text + 0x3f ∧
      ∀ fuel, run kernel (fuel + 11) m = (run kernel fuel (kernel mapped)).map
        fun (calls, stopped) ↦ (mapped :: calls, stopped) := by
  have hrun := fun fuel ↦ run_call kernel fuel h.code h.codeOff follow_map
    (mapBlock_fits h.stack) heip decodeAt_map
  exact ⟨_, mapBlock_exec h.stack, (hrun 0).2, fun fuel ↦ (hrun fuel).1⟩

end Loaded

theorem stops (kernel : Machine → Machine) (hcode : CodeAt m.mem text sh)
    (heip : m.eip = text + 0x3f) : run kernel 1 m = some ([], m.advance 1) := by
  apply run_int3
  rw [heip]
  exact hcode.decode_fetch decodeAt_int3

theorem Opens.isOpen_iff {opened : Machine} (h : Opens text m opened) :
    opened.regs .eax = 5 ↔ (m.regs .eax).toNat < 2 ^ 8 := by
  rw [h.number]
  exact number_eq_five_iff _

/-- Where the first call is `open`, both calls come back with the code and the stack pointer as they
were. -/
theorem Loaded.ends {opened : Machine} (h : Loaded keep text m) (hopens : Opens text m opened)
    (hopenEip : opened.eip = text + 0x0e)
    (hopenRun : ∀ fuel, run kernel (fuel + 7) m = (run kernel fuel (kernel opened)).map
      fun (calls, stopped) ↦ (opened :: calls, stopped))
    (hkernel : ∀ called, called.regs .eax = 5 ∨ called.regs .eax = 90 →
      Returns keep called (kernel called))
    (hopen : opened.regs .eax = 5) :
    ∃ mapped stopped, Maps (kernel opened) mapped ∧
      run kernel 19 m = some ([opened, mapped], stopped) ∧
      stopped.regs .eax = (kernel mapped).regs .eax ∧
      ∀ x, keep x → OffStack (m.regs .esp) x → stopped.mem x = m.mem x := by
  have hback := hkernel opened (.inl hopen)
  have hesp : (kernel opened).regs .esp = m.regs .esp :=
    (hback.regs .esp (by decide)).trans hopens.esp
  have hmem : ∀ x, keep x → OffStack (m.regs .esp) x → (kernel opened).mem x = m.mem x :=
    fun x hx hoff ↦ (hback.mem x hx).trans (hopens.mem x hoff)
  have h' := h.congr hesp hmem
  obtain ⟨mapped, hmaps, hmapEip, hmapRun⟩ := h'.maps kernel (hback.eip.trans hopenEip)
  have hback' := hkernel mapped (.inr hmaps.number)
  have hmem' : ∀ x, keep x → OffStack (m.regs .esp) x → (kernel mapped).mem x = m.mem x := by
    intro x hx hoff
    rw [hback'.mem x hx, hmaps.mem x (hesp ▸ hoff), hmem x hx hoff]
  have hstop := stops kernel (h.codeAt hmem') (hback'.eip.trans hmapEip)
  refine ⟨mapped, (kernel mapped).advance 1, hmaps, ?_, rfl, hmem'⟩
  rw [hopenRun 12, hmapRun 1, hstop]
  rfl

/-- What comes of the shell code at `text`.  Its first call is `open` only where the three upper
bytes of `eax` are clear, since it sets the last one alone. -/
structure ShRun (kernel : Machine → Machine) (keep : ℕ → Prop) (text : Word) (m opened : Machine) :
    Prop where
  opens : Opens text m opened
  path : IsString opened.mem (text.toNat + 0x45) libPath
  first : ∀ fuel calls stopped, run kernel fuel m = some (calls, stopped) →
    calls.head? = some opened
  isOpen : opened.regs .eax = 5 ↔ (m.regs .eax).toNat < 2 ^ 8
  ends : (m.regs .eax).toNat < 2 ^ 8 → ∃ mapped stopped, Maps (kernel opened) mapped ∧
    run kernel 19 m = some ([opened, mapped], stopped) ∧
    stopped.regs .eax = (kernel mapped).regs .eax ∧
    ∀ x, keep x → OffStack (m.regs .esp) x → stopped.mem x = m.mem x

theorem sh_runs (kernel : Machine → Machine) (keep : ℕ → Prop) (text : Word) (m : Machine)
    (h : Loaded keep text m) (heip : m.eip = text)
    (hkernel : ∀ called, called.regs .eax = 5 ∨ called.regs .eax = 90 →
      Returns keep called (kernel called)) :
    ∃ opened, ShRun kernel keep text m opened := by
  obtain ⟨opened, hopens, hopenEip, hopenRun⟩ := h.opens kernel heip
  refine ⟨opened, hopens, h.path hopens.mem, fun fuel calls stopped hrun ↦ ?_, hopens.isOpen_iff,
    fun hlt ↦ h.ends hopens hopenEip hopenRun hkernel (hopens.isOpen_iff.mpr hlt)⟩
  -- the first call does not depend on what the kernel makes of it
  have hmore := (hopenRun fuel).symm.trans (run_mono hrun 7)
  obtain ⟨rest, -, hcalls⟩ := Option.map_eq_some_iff.mp hmore
  have hfirst : opened :: rest.1 = calls := congrArg Prod.fst hcalls
  rw [← hfirst, List.head?_cons]

end Run

def shMachine : Machine where
  regs := fun r ↦ if r = .esp then 0xbfff0000 else 3
  eip := 0x8048000
  mem := placed 0x8048000 [(0, sh)]

/-- A file descriptor, and an address. -/
def answer (m : Machine) : Machine := m.setReg .eax (if m.regs .eax = 5 then 3 else 0x40000000)

theorem answer_returns (called : Machine) : Returns (fun _ ↦ True) called (answer called) where
  eip := rfl
  regs _ hr := (setReg_regs ..).trans (if_neg hr)
  mem _ _ := rfl

/-- The process was stopped in `read`. -/
theorem sh_runs_read :
    ∃ opened, ShRun answer (fun _ ↦ True) 0x8048000 shMachine opened :=
  sh_runs answer (fun _ ↦ True) 0x8048000 shMachine
    { code := by
        show ∀ k (hk : k < sh.length), shMachine.mem (0x8048000 + BitVec.ofNat 32 k).toNat = sh[k]
        decide +kernel
      wrap := by decide
      kept := fun _ _ ↦ trivial
      stack := by decide
      off := fun k hk ↦ .inl (Nat.lt_of_lt_of_le (Nat.add_lt_add_left hk _) (by decide)) }
    rfl fun called _ ↦ answer_returns called

end Divers.GotModifier
