import Divers.Library.Transition

/-!
# heap_looker

The allocation tracer of `heap_looker.c`, built with `HEAP_LOOKER_TRACEON`.  The wrapped functions
are the allocator's: what they answer is carried by the call, and `Blocks` is what the allocator has
handed out.  A pointer is an address or `none` for NULL.
-/

open Divers.Library

namespace Divers.HeapLooker

abbrev SizeT := UInt64

/-! ## The underlying allocator -/

/-- The live blocks: their sizes by the address where they start. -/
abbrev Blocks := ℕ → Option ℕ

/-- What `realloc` answers: a block, or NULL with the old block kept or released. -/
inductive ReallocAnswer where
  | block (ret : ℕ)
  | failed
  | released
  deriving DecidableEq, Repr

namespace Blocks

/-- The allocator hands out `ret`, which starts at an address that is not live. -/
def handOut (m : Blocks) (size : ℕ) : Option ℕ → Option Blocks
  | none => some m
  | some ret => if m ret = none then some (Function.update m ret (some size)) else none

def malloc (m : Blocks) (len : SizeT) (ret : Option ℕ) : Option Blocks := m.handOut len.toNat ret

/-- `calloc` fails when the product does not fit a `size_t`. -/
def calloc (m : Blocks) (a b : SizeT) (ret : Option ℕ) : Option Blocks :=
  if ret.isSome ∧ UInt64.size ≤ a.toNat * b.toNat then none else m.handOut (a.toNat * b.toNat) ret

/-- The block at `base` is given back: a client only names live blocks. -/
def giveBack (m : Blocks) (base : ℕ) : Option Blocks :=
  if (m base).isSome then some (Function.update m base none) else none

def realloc (m : Blocks) (base : Option ℕ) (a : SizeT) : ReallocAnswer → Option Blocks
  | .block ret =>
      match base with
      | none => m.handOut a.toNat (some ret)
      | some base => (m.giveBack base).bind fun m ↦ m.handOut a.toNat (some ret)
  | .failed =>
      match base with
      | none => some m
      | some base => if (m base).isSome then some m else none
  | .released => base.bind m.giveBack

def free (m : Blocks) : Option ℕ → Option Blocks
  | none => some m
  | some base => m.giveBack base

end Blocks

/-! ## The tracer -/

/-- The address and the length that a trace line gives. -/
inductive TraceRecord where
  | alloc (start : ℕ) (len : SizeT)
  | free (start : Option ℕ)
  deriving DecidableEq, Repr

structure Looker where
  fp : Bool                 -- `_fp` is set
  mallocPtr : Bool          -- the wrapped function has been looked up
  callocPtr : Bool
  reallocPtr : Bool
  freePtr : Bool
  trace : List TraceRecord
  blocks : Blocks

def Looker.init : Looker := ⟨false, false, false, false, false, [], fun _ ↦ none⟩

/-- `__heap_looker_init`: a NULL argument stands for `stdout`. -/
def heapLookerInit (s : Looker) : Looker := { s with fp := true }

def writeAllocbacktrace (s : Looker) (ret : Option ℕ) (len : SizeT) : Looker :=
  match ret with
  | some addr => if s.fp then { s with trace := s.trace ++ [.alloc addr len] } else s
  | none => s

def writeFreebacktrace (s : Looker) (addr : Option ℕ) : Looker :=
  if s.fp then { s with trace := s.trace ++ [.free addr] } else s

/-- `__load_func_if`, `dlsym` answering whether it finds the function. -/
def loadFuncIf (ptr found : Bool) : Bool := ptr || found

def ReallocAnswer.ret : ReallocAnswer → Option ℕ
  | .block ret => some ret
  | .failed => none
  | .released => none

/-- A call and what the wrapped function answers if it is called. -/
inductive HeapCall where
  | malloc (len : SizeT) (ret : Option ℕ)
  | calloc (a b : SizeT) (ret : Option ℕ)
  | realloc (base : Option ℕ) (a : SizeT) (answer : ReallocAnswer)
  | free (base : Option ℕ)
  deriving DecidableEq, Repr

namespace Looker

def malloc (s : Looker) (found : Bool) (len : SizeT) (ret : Option ℕ) : Option Looker :=
  let s := { s with mallocPtr := loadFuncIf s.mallocPtr found }
  if s.mallocPtr then
    (s.blocks.malloc len ret).map fun blocks ↦ writeAllocbacktrace { s with blocks } ret len
  else some s

def calloc (s : Looker) (found : Bool) (a b : SizeT) (ret : Option ℕ) : Option Looker :=
  let s := { s with callocPtr := loadFuncIf s.callocPtr found }
  if s.callocPtr then
    (s.blocks.calloc a b ret).map fun blocks ↦ writeAllocbacktrace { s with blocks } ret (a * b)
  else some s

def realloc (s : Looker) (found : Bool) (base : Option ℕ) (a : SizeT) (answer : ReallocAnswer) :
    Option Looker :=
  let s := { s with reallocPtr := loadFuncIf s.reallocPtr found }
  if s.reallocPtr then
    (s.blocks.realloc base a answer).map fun blocks ↦
      writeAllocbacktrace { s with blocks } answer.ret a
  else some s

def free (s : Looker) (found : Bool) (base : Option ℕ) : Option Looker :=
  let s := { s with freePtr := loadFuncIf s.freePtr found }
  if s.freePtr then
    (s.blocks.free base).map fun blocks ↦ writeFreebacktrace { s with blocks } base
  else some s

/-- One call.  Answers that the allocator cannot give and pointers that a client does not have are
refused. -/
def step (s : Looker) : Bool × HeapCall → Option Looker
  | (found, .malloc len ret) => s.malloc found len ret
  | (found, .calloc a b ret) => s.calloc found a b ret
  | (found, .realloc base a answer) => s.realloc found base a answer
  | (found, .free base) => s.free found base

/-- The wrapped function is called. -/
def reaches (s : Looker) : Bool × HeapCall → Bool
  | (found, .malloc _ _) => loadFuncIf s.mallocPtr found
  | (found, .calloc _ _ _) => loadFuncIf s.callocPtr found
  | (found, .realloc _ _ _) => loadFuncIf s.reallocPtr found
  | (found, .free _) => loadFuncIf s.freePtr found

end Looker

/-! ## Replay -/

/-- Read the trace: an alloc record adds its start with its length, a free record removes it. -/
def replayRecord (m : Blocks) : TraceRecord → Blocks
  | .alloc start len => Function.update m start (some len.toNat)
  | .free (some start) => Function.update m start none
  | .free none => m

def replay (trace : List TraceRecord) : Blocks := trace.foldl replayRecord fun _ ↦ none

end Divers.HeapLooker
