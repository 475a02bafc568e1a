import Divers.Library.ByteMemory
import Mathlib.Data.Nat.Init

/-!
# i386 machine code

The registers, the memory and the instructions that position-independent code of system calls needs,
from their bytes.  No instruction here reads the flags, so there are none.  `int 0x80` is the
kernel's, which is a parameter, and `int3` stops the machine.

Code is decoded where it is written (`follow`) and runs where it is loaded (`run_follow`): decoding
reads the bytes of the code alone, and a straight block does not write on itself (`Fits`).
-/

namespace Divers.Library.I386

abbrev Word := BitVec 32

inductive Reg
  | eax | ecx | edx | ebx | esp | ebp | esi | edi
  deriving DecidableEq, Repr

structure Machine where
  regs : Reg → Word
  eip : Word
  mem : Bytes

/-! ## Instructions -/

inductive Operand
  | reg (r : Reg)
  | mem (base : Reg) (disp : Word)
  deriving DecidableEq, Repr

inductive Op
  | jmp (disp : Word)
  | call (disp : Word)
  | pop (r : Reg)
  | xor (dst : Operand) (src : Reg)
  | sub (dst : Operand) (imm : Word)
  | mov (dst : Operand) (src : Reg)
  | movImm (dst : Operand) (imm : Word)
  | movLow (r : Reg) (imm : UInt8)         -- into the low byte of the register
  deriving DecidableEq, Repr

inductive Instr
  | op (o : Op)
  | int (vector : UInt8)
  | int3
  deriving DecidableEq, Repr

/-! ## Decoding -/

/-- The registers as three bits of an instruction number them. -/
def regOf (b : UInt8) : Reg :=
  match b.toNat % 8 with
  | 0 => .eax
  | 1 => .ecx
  | 2 => .edx
  | 3 => .ebx
  | 4 => .esp
  | 5 => .ebp
  | 6 => .esi
  | _ => .edi

def leNat : List UInt8 → ℕ
  | [] => 0
  | b :: l => b.toNat + 256 * leNat l

def imm32 (l : List UInt8) : Word := BitVec.ofNat 32 (leNat (l.take 4))

def imm8 (l : List UInt8) : Word := (l.headD 0).toBitVec.signExtend 32

/-- The register field, the operand and the length of what begins with a ModRM byte.  There is no
index register, and no address without a base. -/
def modRM : List UInt8 → Option (UInt8 × Operand × ℕ)
  | [] => none
  | b :: rest =>
      let field := b / 8 % 8
      if b / 64 = 3 then some (field, .reg (regOf b), 1)
      else
        -- a SIB byte follows in place of `esp`, with `esp` for no index
        let (base, len) := if b % 8 = 4 then (rest.headD 0, 2) else (b, 1)
        let tail := (b :: rest).drop len
        if b % 8 = 4 ∧ base / 8 % 8 ≠ 4 then none
        else if b / 64 = 1 then some (field, .mem (regOf base) (imm8 tail), len + 1)
        else if b / 64 = 2 then some (field, .mem (regOf base) (imm32 tail), len + 4)
        else if base % 8 = 5 then none
        else some (field, .mem (regOf base) 0, len)

/-- The instruction at the head of the bytes, with its length. -/
def decode : List UInt8 → Option (Instr × ℕ)
  | [] => none
  | b :: rest =>
      if b = 0xe9 then some (.op (.jmp (imm32 rest)), 5)
      else if b = 0xe8 then some (.op (.call (imm32 rest)), 5)
      else if b = 0xcd then some (.int (rest.headD 0), 2)
      else if b = 0xcc then some (.int3, 1)
      else if b = 0x31 then
        (modRM rest).map fun (field, dst, len) ↦ (.op (.xor dst (regOf field)), 1 + len)
      else if b = 0x89 then
        (modRM rest).map fun (field, dst, len) ↦ (.op (.mov dst (regOf field)), 1 + len)
      else if b = 0x83 then
        (modRM rest).bind fun (field, dst, len) ↦
          if field = 5 then some (.op (.sub dst (imm8 (rest.drop len))), 2 + len) else none
      else if b = 0xc7 then
        (modRM rest).bind fun (field, dst, len) ↦
          if field = 0 then some (.op (.movImm dst (imm32 (rest.drop len))), 5 + len) else none
      else if b / 8 = 0xb then some (.op (.pop (regOf b)), 1)
      else if b / 4 = 0x2c then some (.op (.movLow (regOf b) (rest.headD 0)), 2)
      else if b / 8 = 0x17 then some (.op (.movImm (.reg (regOf b)) (imm32 rest)), 5)
      else none

/-- No instruction is longer. -/
def maxLength : ℕ := 15

def fetch (mem : Bytes) (eip : Word) : List UInt8 :=
  (List.range maxLength).map fun k ↦ mem (eip + BitVec.ofNat 32 k).toNat

/-! ## Execution -/

namespace Machine

def setReg (m : Machine) (r : Reg) (v : Word) : Machine :=
  { m with regs := Function.update m.regs r v }

def store (m : Machine) (a : Word) (v : Word) : Machine :=
  { m with mem := storeLE m.mem a.toNat 4 v.toNat }

def load (m : Machine) (a : Word) : Word := BitVec.ofNat 32 (loadLE m.mem a.toNat 4)

def address (m : Machine) (base : Reg) (disp : Word) : Word := m.regs base + disp

def read (m : Machine) : Operand → Word
  | .reg r => m.regs r
  | .mem base disp => m.load (m.address base disp)

def write (m : Machine) (v : Word) : Operand → Machine
  | .reg r => m.setReg r v
  | .mem base disp => m.store (m.address base disp) v

def jump (m : Machine) (disp : Word) : Machine := { m with eip := m.eip + disp }

/-- The instruction has been fetched. -/
def advance (m : Machine) (len : ℕ) : Machine := m.jump (BitVec.ofNat 32 len)

end Machine

open Machine

/-- What an instruction does behind its fetch. -/
def Op.exec (m : Machine) : Op → Machine
  | .jmp disp => m.jump disp
  | .call disp => ((m.setReg .esp (m.regs .esp - 4)).store (m.regs .esp - 4) m.eip).jump disp
  | .pop r =>
      let v := m.load (m.regs .esp)
      (m.setReg .esp (m.regs .esp + 4)).setReg r v
  | .xor dst src => m.write (m.read dst ^^^ m.regs src) dst
  | .sub dst imm => m.write (m.read dst - imm) dst
  | .mov dst src => m.write (m.regs src) dst
  | .movImm dst imm => m.write imm dst
  | .movLow r imm => m.setReg r (m.regs r &&& 0xffffff00 ||| imm.toBitVec.zeroExtend 32)

/-- The machines at the system calls, and the one that has stopped; `none` where the fuel does not
suffice or an instruction is not known. -/
def run (kernel : Machine → Machine) : ℕ → Machine → Option (List Machine × Machine)
  | 0, _ => none
  | fuel + 1, m =>
      match decode (fetch m.mem m.eip) with
      | none => none
      | some (.int3, len) => some ([], m.advance len)
      | some (.int vector, len) =>
          if vector = 0x80 then
            (run kernel fuel (kernel (m.advance len))).map fun (calls, stopped) ↦
              (m.advance len :: calls, stopped)
          else none
      | some (.op o, len) => run kernel fuel (o.exec (m.advance len))

section Updates

variable (m : Machine) (r r' : Reg) (a v disp : Word) (len : ℕ)

@[simp] theorem setReg_regs :
    (m.setReg r v).regs r' = if r' = r then v else m.regs r' := Function.update_apply ..

@[simp] theorem setReg_eip : (m.setReg r v).eip = m.eip := rfl

@[simp] theorem setReg_load : (m.setReg r v).load a = m.load a := rfl

@[simp] theorem store_regs : (m.store a v).regs = m.regs := rfl

@[simp] theorem store_eip : (m.store a v).eip = m.eip := rfl

@[simp] theorem jump_regs : (m.jump disp).regs = m.regs := rfl

@[simp] theorem jump_eip : (m.jump disp).eip = m.eip + disp := rfl

@[simp] theorem jump_load : (m.jump disp).load a = m.load a := rfl

@[simp] theorem advance_regs : (m.advance len).regs = m.regs := rfl

@[simp] theorem advance_eip : (m.advance len).eip = m.eip + BitVec.ofNat 32 len := rfl

@[simp] theorem advance_mem : (m.advance len).mem = m.mem := rfl

@[simp] theorem advance_load : (m.advance len).load a = m.load a := rfl

@[simp] theorem load_store_same : (m.store a v).load a = v := by
  rw [load, store, loadLE_storeLE_same _ v.isLt, BitVec.ofNat_toNat, BitVec.setWidth_eq]

theorem load_store_of_disjoint {m : Machine} {a b : Word}
    (h : a.toNat + 4 ≤ b.toNat ∨ b.toNat + 4 ≤ a.toNat) (v : Word) :
    (m.store b v).load a = m.load a := by
  rw [load, store, loadLE_storeLE_disjoint _ h, load]

theorem toNat_add_ofNat {base : Word} {i : ℕ} (h : base.toNat + i < 2 ^ 32) :
    (base + BitVec.ofNat 32 i).toNat = base.toNat + i := by
  rw [BitVec.toNat_add, BitVec.toNat_ofNat, Nat.add_mod_mod, Nat.mod_eq_of_lt h]

/-- Words at different places of a record that does not wrap. -/
theorem load_store_field {m : Machine} {base : Word} {i j : ℕ} (hi : base.toNat + i < 2 ^ 32)
    (hj : base.toNat + j < 2 ^ 32) (h : i + 4 ≤ j ∨ j + 4 ≤ i) (v : Word) :
    (m.store (base + BitVec.ofNat 32 j) v).load (base + BitVec.ofNat 32 i) =
      m.load (base + BitVec.ofNat 32 i) := by
  apply load_store_of_disjoint
  rw [toNat_add_ofNat hi, toNat_add_ofNat hj]
  omega

end Updates

/-! ## Code and where it is loaded -/

def CodeAt (mem : Bytes) (base : Word) (code : List UInt8) : Prop :=
  ∀ k (h : k < code.length), mem (base + BitVec.ofNat 32 k).toNat = code[k]

/-- The instruction at an offset, as long as all the bytes that it might have are code. -/
def decodeAt (code : List UInt8) (k : Word) : Option (Instr × ℕ) :=
  if k.toNat + maxLength ≤ code.length then decode ((code.drop k.toNat).take maxLength) else none

/-- How far the instruction jumps from its end. -/
def Op.jump : Op → Word
  | .jmp disp => disp
  | .call disp => disp
  | _ => 0

/-- The next `n` instructions from the offset `k` on, and the offset behind them. -/
def follow (code : List UInt8) : ℕ → Word → Option (List (Op × ℕ) × Word)
  | 0, k => some ([], k)
  | n + 1, k =>
      match decodeAt code k with
      | some (.op o, len) =>
          (follow code n (k + BitVec.ofNat 32 len + o.jump)).map fun (os, k') ↦
            ((o, len) :: os, k')
      | _ => none

def execAll (m : Machine) (os : List (Op × ℕ)) : Machine :=
  os.foldl (fun m o ↦ o.1.exec (m.advance o.2)) m

def Operand.stores (m : Machine) : Operand → Option Word
  | .reg _ => none
  | .mem base disp => some (m.address base disp)

/-- Where the instruction stores a word. -/
def Op.stores (m : Machine) : Op → Option Word
  | .call _ => some (m.regs .esp - 4)
  | .xor dst _ => dst.stores m
  | .sub dst _ => dst.stores m
  | .mov dst _ => dst.stores m
  | .movImm dst _ => dst.stores m
  | _ => none

/-- The instructions store to no address of `keep`. -/
def Fits (keep : ℕ → Prop) : Machine → List (Op × ℕ) → Prop
  | _, [] => True
  | m, (o, len) :: os =>
      (∀ a ∈ o.stores (m.advance len), ∀ x, keep x → x < a.toNat ∨ a.toNat + 4 ≤ x) ∧
        Fits keep (o.exec (m.advance len)) os

section Lemmas

variable {kernel : Machine → Machine} {m : Machine} {o : Op} {os : List (Op × ℕ)} {mem : Bytes}
  {base k k' : Word} {code : List UInt8} {keep : ℕ → Prop} {fuel len n x : ℕ}

theorem CodeAt.congr {mem' : Bytes} (h : CodeAt mem base code)
    (hkeep : ∀ k < code.length, keep (base + BitVec.ofNat 32 k).toNat)
    (hmem : ∀ x, keep x → mem' x = mem x) : CodeAt mem' base code :=
  fun k hk ↦ (hmem _ (hkeep k hk)).trans (h k hk)

theorem CodeAt.fetch_eq (h : CodeAt mem base code) (hk : k.toNat + maxLength ≤ code.length) :
    fetch mem (base + k) = (code.drop k.toNat).take maxLength := by
  apply List.ext_getElem
  · rw [fetch, List.length_map, List.length_range, List.length_take, List.length_drop]
    omega
  · intro i hi _
    have hi' : i < maxLength := by
      rwa [fetch, List.length_map, List.length_range] at hi
    have hbyte := h (k.toNat + i) (by omega)
    rw [BitVec.ofNat_add, BitVec.ofNat_toNat, BitVec.setWidth_eq, ← BitVec.add_assoc] at hbyte
    simp only [fetch, List.getElem_map, List.getElem_range, List.getElem_take, List.getElem_drop]
    exact hbyte

/-- What is decoded on the code is what the machine fetches. -/
theorem CodeAt.decode_fetch {i : Instr} (h : CodeAt mem base code)
    (hdecode : decodeAt code k = some (i, len)) :
    decode (fetch mem (base + k)) = some (i, len) := by
  unfold decodeAt at hdecode
  split at hdecode
  next hk => rw [h.fetch_eq hk, hdecode]
  next => cases hdecode

theorem run_op (hdecode : decode (fetch m.mem m.eip) = some (.op o, len)) :
    run kernel (fuel + 1) m = run kernel fuel (o.exec (m.advance len)) := by
  rw [run, hdecode]

theorem run_int (hdecode : decode (fetch m.mem m.eip) = some (.int 0x80, len)) :
    run kernel (fuel + 1) m = (run kernel fuel (kernel (m.advance len))).map
      fun (calls, stopped) ↦ (m.advance len :: calls, stopped) := by
  rw [run, hdecode]
  exact if_pos rfl

theorem run_int3 (hdecode : decode (fetch m.mem m.eip) = some (.int3, len)) :
    run kernel (fuel + 1) m = some ([], m.advance len) := by
  rw [run, hdecode]

/-- More fuel does not change a run that ends. -/
theorem run_mono {result : List Machine × Machine} (h : run kernel fuel m = some result) (n : ℕ) :
    run kernel (fuel + n) m = some result := by
  induction fuel generalizing m result with
  | zero => cases h
  | succ fuel ih =>
      rw [run] at h
      rw [Nat.succ_add, run]
      cases hdecode : decode (fetch m.mem m.eip) with
      | none =>
          rw [hdecode] at h
          cases h
      | some decoded =>
          obtain ⟨i, len⟩ := decoded
          rw [hdecode] at h
          cases i with
          | int3 => exact h
          | op o => exact ih h
          | int vector =>
              by_cases hvector : vector = 0x80
              · simp only [if_pos hvector] at h ⊢
                obtain ⟨rest, hrest, hresult⟩ := Option.map_eq_some_iff.mp h
                rw [ih hrest, Option.map_some, hresult]
              · simp only [if_neg hvector] at h
                cases h

theorem write_eip (m : Machine) (v : Word) (dst : Operand) : (m.write v dst).eip = m.eip := by
  cases dst <;> rfl

theorem Op.exec_eip (m : Machine) (o : Op) : (o.exec m).eip = m.eip + o.jump := by
  cases o with
  | jmp disp => rfl
  | call disp => rfl
  | pop r => exact (BitVec.add_zero _).symm
  | movLow r imm => exact (BitVec.add_zero _).symm
  | xor dst src => exact (write_eip ..).trans (BitVec.add_zero _).symm
  | sub dst imm => exact (write_eip ..).trans (BitVec.add_zero _).symm
  | mov dst src => exact (write_eip ..).trans (BitVec.add_zero _).symm
  | movImm dst imm => exact (write_eip ..).trans (BitVec.add_zero _).symm

theorem write_mem (v : Word) {dst : Operand}
    (h : ∀ a ∈ dst.stores m, x < a.toNat ∨ a.toNat + 4 ≤ x) : (m.write v dst).mem x = m.mem x := by
  cases dst with
  | reg r => rfl
  | mem base disp => exact storeLE_outside _ (h _ rfl)

/-- An instruction changes the word that it stores, and no other memory. -/
theorem Op.exec_mem (h : ∀ a ∈ o.stores m, x < a.toNat ∨ a.toNat + 4 ≤ x) :
    (o.exec m).mem x = m.mem x := by
  cases o with
  | jmp disp => rfl
  | call disp => exact storeLE_outside _ (h _ rfl)
  | pop r => rfl
  | movLow r imm => rfl
  | xor dst src => exact write_mem _ h
  | sub dst imm => exact write_mem _ h
  | mov dst src => exact write_mem _ h
  | movImm dst imm => exact write_mem _ h

theorem execAll_nil (m : Machine) : execAll m [] = m := rfl

theorem execAll_cons (m : Machine) (o : Op) (len : ℕ) (os : List (Op × ℕ)) :
    execAll m ((o, len) :: os) = execAll (o.exec (m.advance len)) os := rfl

theorem Fits.mem_eq (h : Fits keep m os) (hx : keep x) : (execAll m os).mem x = m.mem x := by
  induction os generalizing m with
  | nil => rfl
  | cons o os ih =>
      have hfirst := Op.exec_mem fun a ha ↦ h.1 a ha x hx
      exact (ih h.2).trans hfirst

/-- Straight code that does not write on itself runs as it was decoded. -/
theorem run_follow (kernel : Machine → Machine) (fuel : ℕ) (hcode : CodeAt m.mem base code)
    (hkeep : ∀ k < code.length, keep (base + BitVec.ofNat 32 k).toNat)
    (hfollow : follow code n k = some (os, k')) (hfits : Fits keep m os) (heip : m.eip = base + k) :
    run kernel (fuel + n) m = run kernel fuel (execAll m os) ∧
      (execAll m os).eip = base + k' := by
  induction n generalizing m k os with
  | zero =>
      cases hfollow
      exact ⟨rfl, heip⟩
  | succ n ih =>
      rw [follow] at hfollow
      split at hfollow
      next o len hdecode =>
        obtain ⟨⟨os', k''⟩, hrest, heq⟩ := Option.map_eq_some_iff.mp hfollow
        cases heq
        have hmem : ∀ x, keep x → (o.exec (m.advance len)).mem x = m.mem x :=
          fun x hx ↦ Op.exec_mem fun a ha ↦ hfits.1 a ha x hx
        have hnext : (o.exec (m.advance len)).eip = base + (k + BitVec.ofNat 32 len + o.jump) := by
          rw [Op.exec_eip, advance_eip, heip]
          simp only [BitVec.add_assoc]
        have hfetch : decode (fetch m.mem m.eip) = some (.op o, len) := by
          rw [heip]
          exact hcode.decode_fetch hdecode
        have hrun := ih (hcode.congr hkeep hmem) hrest hfits.2 hnext
        exact ⟨(run_op hfetch).trans hrun.1, hrun.2⟩
      next => cases hfollow

/-- A straight block up to a system call. -/
theorem run_call (kernel : Machine → Machine) (fuel : ℕ) (hcode : CodeAt m.mem base code)
    (hkeep : ∀ k < code.length, keep (base + BitVec.ofNat 32 k).toNat)
    (hfollow : follow code n k = some (os, k')) (hfits : Fits keep m os) (heip : m.eip = base + k)
    (hint : decodeAt code k' = some (.int 0x80, len)) :
    run kernel (fuel + 1 + n) m = (run kernel fuel (kernel ((execAll m os).advance len))).map
        (fun (calls, stopped) ↦ ((execAll m os).advance len :: calls, stopped)) ∧
      ((execAll m os).advance len).eip = base + (k' + BitVec.ofNat 32 len) := by
  obtain ⟨hrun, hend⟩ := run_follow kernel (fuel + 1) hcode hkeep hfollow hfits heip
  constructor
  · rw [hrun, run_int]
    rw [hend]
    exact (hcode.congr hkeep fun x hx ↦ hfits.mem_eq hx).decode_fetch hint
  · rw [advance_eip, hend, BitVec.add_assoc]

end Lemmas

/-! ## The kernel -/

/-- A system call returns in `eax`, and leaves alone the other registers and the memory of `keep`.
-/
structure Returns (keep : ℕ → Prop) (called returned : Machine) : Prop where
  eip : returned.eip = called.eip
  regs : ∀ r, r ≠ .eax → returned.regs r = called.regs r
  mem : ∀ x, keep x → returned.mem x = called.mem x

end Divers.Library.I386
