import Divers.Library.ByteMemory
import Divers.Library.Loop

/-!
# process_injector

The reader and the writer of `process_injector.c` and what `process_injector_load_dso` does with
them.  A `long` has `word` bytes and a `size_t` has `bits` bits.  The memory of the process is a map
from addresses, that of a local array one from offsets; PTRACE_PEEKTEXT and PTRACE_POKETEXT move
whole words and succeed.
-/

open Divers.Library

namespace Divers.GotModifier

structure Abi where
  bits : ℕ
  word : ℕ               -- `sizeof(long)`
  word_pos : 0 < word

/-! ## The loops -/

/-- The variables of a loop: `ptr` is an offset into the local array, and `mem` is what it stores
to. -/
structure WordLoop (abi : Abi) where
  i : BitVec abi.bits
  ptr : ℕ
  addr : ℕ
  mem : Bytes

namespace WordLoop

variable {abi : Abi}

def start (baseAddr : ℕ) (mem : Bytes) : WordLoop abi := { i := 0, ptr := 0, addr := baseAddr, mem }

def goesOn (l : BitVec abi.bits) (s : WordLoop abi) : Bool := s.i < l

/-- `i = i + sizeof(long), ++ptr, ++addr`, behind the store to `mem`. -/
def next (mem : Bytes) (s : WordLoop abi) : WordLoop abi where
  i := s.i + BitVec.ofNat abi.bits abi.word
  ptr := s.ptr + abi.word
  addr := s.addr + abi.word
  mem := mem

/-- `*ptr = ptrace(PTRACE_PEEKTEXT, pid, addr, NULL)`. -/
def readRound (text : Bytes) (s : WordLoop abi) : WordLoop abi :=
  s.next (storeLE s.mem s.ptr abi.word (loadLE text s.addr abi.word))

/-- `ptrace(PTRACE_POKETEXT, pid, addr, *ptr)`. -/
def writeRound (buffer : Bytes) (s : WordLoop abi) : WordLoop abi :=
  s.next (storeLE s.mem s.addr abi.word (loadLE buffer s.ptr abi.word))

end WordLoop

/-- The local array, `none` where the fuel does not suffice. -/
def processInjectorReadAt (abi : Abi) (fuel : ℕ) (text buff : Bytes) (l : BitVec abi.bits)
    (baseAddr : ℕ) : Option Bytes :=
  (whileLoop (WordLoop.goesOn l) (WordLoop.readRound text) fuel
    (WordLoop.start baseAddr buff)).map WordLoop.mem

/-- The memory of the process. -/
def processInjectorWriteAt (abi : Abi) (fuel : ℕ) (text buffer : Bytes) (l : BitVec abi.bits)
    (baseAddr : ℕ) : Option Bytes :=
  (whileLoop (WordLoop.goesOn l) (WordLoop.writeRound buffer) fuel
    (WordLoop.start baseAddr text)).map WordLoop.mem

/-! ## process_injector_load_dso -/

/-- `struct user_regs_struct`, with the registers that the function names. -/
structure UserRegs (ρ : Type) where
  eip : ℕ
  eax : ℤ
  others : ρ

structure Target (ρ : Type) where
  mem : Bytes
  regs : UserRegs ρ

/-- The process when it is resumed, when it has stopped again, and behind the call. -/
structure Injection (ρ : Type) where
  ret : ℤ
  resumed : Target ρ
  stopped : Target ρ
  final : Target ρ

/-- `run` is what the process does between PTRACE_CONT and the end of `wait`, and `stack` what the
array `buffer` holds to begin with. -/
def processInjectorLoadDso {ρ : Type} (abi : Abi) (fuel : ℕ) (run : Target ρ → Target ρ)
    (target : Target ρ) (text : ℕ) (sh : Bytes) (shlen : BitVec abi.bits) (stack : Bytes) :
    Option (Injection ρ) := do
  let bckreg := target.regs
  let buffer ← processInjectorReadAt abi fuel target.mem stack shlen text
  let mem ← processInjectorWriteAt abi fuel target.mem sh shlen text
  let resumed : Target ρ := { mem, regs := { target.regs with eip := text + 2 } }
  let stopped := run resumed
  let mem ← processInjectorWriteAt abi fuel stopped.mem buffer shlen text
  return { ret := stopped.regs.eax, resumed, stopped, final := { mem, regs := bckreg } }

end Divers.GotModifier
