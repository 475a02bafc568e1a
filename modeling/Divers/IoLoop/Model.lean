import Divers.Library.Arena
import Divers.Library.Transition
import Mathlib.Data.List.Nodup

/-!
# ioloop

The event registry and the main loop of `ioloop.c`.  Callbacks and clean-up functions are client
code: they are not modelled as functions, but as whatever calls a run makes while they are on the
stack.  The main loop is not re-entered, so the stack is one position in `iol_main_loop` and, above
it, the removals whose `iol_clean` has not returned.
-/

open Divers.Library

namespace Divers.IoLoop

/-! ## Data -/

structure IoloopEventDesc where
  iolFd : ℤ
  iolEv : UInt32
  iolRev : UInt32
  iolCtx : Option ℕ
  iolFunc : Option ℕ
  iolClean : Option ℕ
  deriving DecidableEq, Repr

/-- `struct epoll_event`, its `data.ptr` the address of a descriptor record. -/
structure EpollEvent where
  events : UInt32
  data : Option ℕ
  deriving DecidableEq, Repr

/-- The position in `iol_main_loop`: the entries of `vec` from index `i` on. -/
inductive MainLoop where
  | outside
  | next (vec : List EpollEvent)
  | inFunc (curr : ℕ) (vec : List EpollEvent)
  deriving DecidableEq, Repr

structure IolState where
  evs : Arena EpollEvent
  descs : Arena IoloopEventDesc
  root : List ℕ                    -- the nodes of the search tree
  epoll : ℤ → Option EpollEvent    -- the interest list of the kernel
  loop : MainLoop
  cleans : List ℕ                  -- the events whose `iol_clean` is running, innermost first

def IolState.init : IolState := ⟨.empty, .empty, [], fun _ ↦ none, .outside, []⟩

/-- The call in `iol_add_event` that fails. -/
inductive AddFault where
  | callocEv
  | callocData
  | epollCtl
  | tsearch
  deriving DecidableEq, Repr

def IOLOOP_MAXEV : ℕ := 1024

/-! ## The search tree -/

namespace IolState

def dataOf (s : IolState) (ev : ℕ) : Option ℕ := (s.evs.cell ev).bind EpollEvent.data

def descOf (s : IolState) (ev : ℕ) : Option IoloopEventDesc := (s.dataOf ev).bind s.descs.cell

/-- The descriptor copy at `desc` belongs to an event of the tree. -/
def Registered (s : IolState) (desc : ℕ) : Prop := ∃ ev ∈ s.root, s.dataOf ev = some desc

/-- The key of a node.  `_iol_cmp` subtracts two keys, which gives 0 for equal keys only. -/
def fdOf (s : IolState) (ev : ℕ) : Option ℤ := (s.descOf ev).map IoloopEventDesc.iolFd

def tfind (s : IolState) (fd : ℤ) : Option ℕ := s.root.find? fun node ↦ s.fdOf node = some fd

def tdelete (s : IolState) (ev : ℕ) : IolState :=
  { s with root := s.root.eraseP fun node ↦ s.fdOf node = s.fdOf ev }

/-! ## The registry -/

def epollCtlDel (s : IolState) (fd : ℤ) : IolState :=
  { s with epoll := Function.update s.epoll fd none }

def freeEv (s : IolState) (ev : ℕ) : IolState := { s with evs := s.evs.free ev }

def freeData (s : IolState) (ev : ℕ) : IolState :=
  match s.dataOf ev with
  | some d => { s with descs := s.descs.free d }
  | none => s

/-- `_iol_del_internal_event` up to the call of `iol_clean`, or to its end if there is none: only
the former goes on to free the descriptor. -/
def iolDelInternalEvent (s : IolState) (fd : ℤ) (ev : ℕ) : IolState :=
  let clean := (s.descOf ev).bind IoloopEventDesc.iolClean
  let s := s.tdelete ev
  let s := s.epollCtlDel fd
  if clean.isSome then { s with cleans := ev :: s.cleans } else s.freeEv ev

/-- `_iol_del_internal_event` from the return of `iol_clean` on. -/
def iolCleanReturn (s : IolState) (ev : ℕ) : IolState := (s.freeData ev).freeEv ev

def iolDelEvent (s : IolState) (fd : ℤ) : IolState × ℤ :=
  match s.tfind fd with
  | some ev => (s.iolDelInternalEvent fd ev, 0)
  | none => (s, -1)

def iolAddEvent (s : IolState) (ref : Option IoloopEventDesc) (fault : Option AddFault) :
    IolState × ℤ :=
  match ref with
  | none => (s, -1)
  | some ref =>
      if ref.iolFd ≤ 0 then (s, -1)
      else if fault = some .callocEv then (s, -1)
      else
        let ev := s.evs.brk
        let s := { s with evs := s.evs.alloc ⟨0, none⟩ }
        if fault = some .callocData then (s.freeEv ev, -1)
        else
          let data := s.descs.brk
          let s := { s with descs := s.descs.alloc ref }
          let event : EpollEvent := ⟨ref.iolEv, some data⟩
          let s := { s with evs := s.evs.store ev event }
          -- a descriptor that is already in the interest list is refused
          if fault = some .epollCtl ∨ (s.epoll ref.iolFd).isSome then
            ((s.freeData ev).freeEv ev, -1)
          else
            let s := { s with epoll := Function.update s.epoll ref.iolFd (some event) }
            match s.tfind ref.iolFd with
            | some _ => (s, 0)    -- `tsearch` returns the node it found
            | none =>
                if fault = some .tsearch then
                  (((s.epollCtlDel ref.iolFd).freeData ev).freeEv ev, -1)
                else ({ s with root := ev :: s.root }, 0)

end IolState

/-! ## The main loop -/

namespace IolState

/-- One entry of the array that `epoll_wait` fills. -/
def ready (s : IolState) (r : ℤ × UInt32) : Option EpollEvent :=
  (s.epoll r.1).map fun event ↦ ⟨r.2, event.data⟩

/-- What reading a descriptor gives; a freed one holds anything. -/
def load (s : IolState) (desc : ℕ) (junk : IoloopEventDesc) : IoloopEventDesc :=
  (s.descs.cell desc).getD junk

/-- `iol_main_loop` up to the loop, `epoll_wait` reporting the given file descriptors. -/
def iolMainLoopWait (s : IolState) (ready : List (ℤ × UInt32)) : Option IolState :=
  (ready.mapM s.ready).map fun vec ↦
    -- `count <= 0`
    if vec = [] then s else { s with loop := .next vec }

/-- The loop of `iol_main_loop` from the test `i < count` to the next such test or to the call of
`iol_func`. -/
def iolMainLoopNext (s : IolState) (junk : IoloopEventDesc) : List EpollEvent → IolState
  | [] => { s with loop := .outside }
  | event :: vec =>
      match event.data with
      | none => { s with loop := .next vec }
      | some curr =>
          let desc := s.load curr junk
          if desc.iolFunc.isSome then
            { s with
              descs := s.descs.store curr { desc with iolRev := event.events }
              loop := .inFunc curr vec }
          else { s with loop := .next vec }

/-- The loop of `iol_main_loop` from the return of `iol_func` on. -/
def iolMainLoopReturn (s : IolState) (ret : ℤ) (junk : IoloopEventDesc) (curr : ℕ)
    (vec : List EpollEvent) : IolState :=
  let s := { s with loop := .next vec }
  if ret ≤ 0 then (s.iolDelEvent (s.load curr junk).iolFd).1 else s

end IolState

/-! ## Runs -/

inductive IolOp where
  | addEvent (ref : Option IoloopEventDesc) (fault : Option AddFault)
  | delEvent (fd : ℤ)
  | write (desc : ℕ) (content : IoloopEventDesc)
  | close (fd : ℤ)
  | wait (ready : List (ℤ × UInt32))
  | next (junk : IoloopEventDesc)
  | funcReturn (ret : ℤ) (junk : IoloopEventDesc)
  | cleanReturn

namespace IolState

/-- Client code is running: a clean-up function, a callback, or whatever calls the library. -/
def clientRuns (s : IolState) : Bool :=
  match s.cleans, s.loop with
  | [], .next _ => false
  | _, _ => true

/-- The next piece of the run.  A client may call the library, write into a descriptor record, and
close file descriptors. -/
def step (s : IolState) : IolOp → Option IolState
  | .addEvent ref fault => if s.clientRuns then some (s.iolAddEvent ref fault).1 else none
  | .delEvent fd => if s.clientRuns then some (s.iolDelEvent fd).1 else none
  | .write desc content =>
      if s.clientRuns ∧ (s.descs.cell desc).isSome then
        some { s with descs := s.descs.store desc content }
      else none
  | .close fd => if s.clientRuns then some (s.epollCtlDel fd) else none
  | .wait ready =>
      if s.cleans = [] ∧ s.loop = .outside ∧ ready.length ≤ IOLOOP_MAXEV ∧
          (ready.map Prod.fst).Nodup then
        s.iolMainLoopWait ready
      else none
  | .next junk =>
      match s.cleans, s.loop with
      | [], .next vec => some (s.iolMainLoopNext junk vec)
      | _, _ => none
  | .funcReturn ret junk =>
      match s.cleans, s.loop with
      | [], .inFunc curr vec => some (s.iolMainLoopReturn ret junk curr vec)
      | _, _ => none
  | .cleanReturn =>
      match s.cleans with
      | ev :: cleans => some ({ s with cleans := cleans }.iolCleanReturn ev)
      | [] => none

/-- What a step of each kind says about its two states; proofs about runs use nothing else of
`step`. -/
theorem step_cases {s t : IolState} {op : IolOp} (h : s.step op = some t) :
    match op with
    | .addEvent ref fault => s.clientRuns ∧ t = (s.iolAddEvent ref fault).1
    | .delEvent fd => s.clientRuns ∧ t = (s.iolDelEvent fd).1
    | .write desc content =>
        (s.clientRuns ∧ (s.descs.cell desc).isSome) ∧
          t = { s with descs := s.descs.store desc content }
    | .close fd => s.clientRuns ∧ t = s.epollCtlDel fd
    | .wait ready =>
        (s.cleans = [] ∧ s.loop = .outside ∧ ready.length ≤ IOLOOP_MAXEV ∧
          (ready.map Prod.fst).Nodup) ∧ s.iolMainLoopWait ready = some t
    | .next junk => s.cleans = [] ∧ ∃ vec, s.loop = .next vec ∧ t = s.iolMainLoopNext junk vec
    | .funcReturn ret junk =>
        s.cleans = [] ∧ ∃ curr vec, s.loop = .inFunc curr vec ∧
          t = s.iolMainLoopReturn ret junk curr vec
    | .cleanReturn =>
        ∃ ev cleans, s.cleans = ev :: cleans ∧
          t = { s with cleans := cleans }.iolCleanReturn ev := by
  cases op with
  | addEvent ref fault | delEvent fd | write desc content | close fd =>
      simp only [step] at h
      split at h
      next hallowed => exact ⟨hallowed, (Option.some.inj h).symm⟩
      next => cases h
  | wait ready =>
      simp only [step] at h
      split at h
      next hallowed => exact ⟨hallowed, h⟩
      next => cases h
  | next junk =>
      simp only [step] at h
      split at h
      next vec hcleans hloop => exact ⟨hcleans, vec, hloop, (Option.some.inj h).symm⟩
      next => cases h
  | funcReturn ret junk =>
      simp only [step] at h
      split at h
      next curr vec hcleans hloop =>
        exact ⟨hcleans, curr, vec, hloop, (Option.some.inj h).symm⟩
      next => cases h
  | cleanReturn =>
      simp only [step] at h
      split at h
      next ev cleans hcleans => exact ⟨ev, cleans, hcleans, (Option.some.inj h).symm⟩
      next => cases h

/-- Client code that keeps the `iol_fd` of the records in the tree. -/
def KeepsFd (s : IolState) : IolOp → Prop
  | .write desc content => s.Registered desc →
      (s.descs.cell desc).map IoloopEventDesc.iolFd = some content.iolFd
  | _ => True

/-- Client code that does not close a registered file descriptor either. -/
def Respects (s : IolState) : IolOp → Prop
  | .close fd => s.epoll fd = none
  | op => s.KeepsFd op

end IolState

end Divers.IoLoop
