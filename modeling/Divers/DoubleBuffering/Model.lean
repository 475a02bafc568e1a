import Divers.Library.Transition
import Divers.Library.Utf8
import Mathlib.Algebra.GroupWithZero.Nat

/-!
# dblbuffering

The double-buffered reader threads of `dblbuffering/src/lib.rs`.  A step is one action of one
thread between two points where threads meet: a message sent or received, a lock taken, a lock
given back.  The scheduler, the result of opening a file and the result of a read are part of the
label.  Counters are natural numbers.
-/

open Divers.Library

namespace Divers.DoubleBuffering

/-! ## Buffers -/

structure EceBuffer where
  buffer : List UInt8
  len : ℕ
  deriving DecidableEq, Repr

def EceBuffer.new (capacity : ℕ) : EceBuffer := ⟨List.replicate capacity 0, 0⟩

/-- `file.read(&mut buffer.buffer[..])` that delivers `bytes`, and `buffer.len = s`. -/
def EceBuffer.fill (b : EceBuffer) (bytes : List UInt8) : EceBuffer :=
  ⟨bytes ++ b.buffer.drop bytes.length, bytes.length⟩

/-- The index `get_bank` computes. -/
def slot (bankId : ℕ) : ℕ := bankId &&& 1

theorem slot_eq (bankId : ℕ) : slot bankId = bankId % 2 := Nat.and_one_is_mod bankId

/-! ## Threads -/

structure EceJob where
  offset : ℕ
  len : ℕ
  finished : Bool
  filename : Option String
  deriving DecidableEq, Repr

/-- What each read of an open file delivered, oldest first; `none` is an error. -/
structure EceFile where
  name : String
  reads : List (Option (List UInt8))
  deriving DecidableEq, Repr

/-- The position of the file: the bytes delivered so far. -/
def EceFile.pos (f : EceFile) : ℕ := (f.reads.map fun res ↦ (res.getD []).length).sum

inductive ReaderPc where
  | recv
  | lock (job : EceJob)
  | read (job : EceJob)    -- holding the lock
  | ack (job : EceJob)
  | exited
  | panicked
  deriving DecidableEq, Repr

structure EceReader where
  queue : List EceJob      -- the channel of the thread
  pc : ReaderPc
  firstBank : ℕ
  file : Option EceFile
  opened : ℕ               -- the files opened so far
  banks : ℕ → EceBuffer

def EceReader.new (capacity : ℕ) : EceReader := ⟨[], .recv, 0, none, 0, fun _ ↦ .new capacity⟩

inductive MainPc where
  | idle
  | openFiles (filenames : List String) (i : ℕ)
  | sendWork (i : ℕ) (inLoop : Bool)
  | waitReaders (jobDone : ℕ)
  | processWriter (i : ℕ) (locked : Bool)
  | dropSend (i : ℕ)
  | dropJoin (i : ℕ)
  | dropped
  | panicked
  deriving DecidableEq, Repr

/-- An acknowledgement, and the reader it came from. -/
structure Ack where
  reader : ℕ
  job : EceJob
  deriving DecidableEq, Repr

/-- One `println!` of `process_writer`: the bank it is made from, and the bytes written. -/
structure Line where
  call : ℕ
  round : ℕ
  reader : ℕ
  buffer : List UInt8
  len : ℕ
  printed : List UInt8
  deriving DecidableEq, Repr

/-- `println!("{}", s)`. -/
def println (s : List UInt8) : List UInt8 := s ++ [10]

/-- The worker, the locals of `work`, and a record of the run: the calls begun, the rounds
completed in this call, the acknowledgements of the last `wait_readers`, and the output. -/
structure EceWorker where
  readers : ℕ → EceReader
  nrsReaders : ℕ
  capacity : ℕ
  listener : List Ack
  main : MainPc
  offset : ℕ
  bankRead : ℕ
  len : ℕ
  calls : ℕ
  round : ℕ
  acked : List Ack
  output : List Line

def EceWorker.new (nr capacity : ℕ) : EceWorker where
  readers _ := .new capacity
  nrsReaders := nr
  capacity := capacity
  listener := []
  main := .idle
  offset := 0
  bankRead := 0
  len := 0
  calls := 0
  round := 0
  acked := []
  output := []

/-! ## The reader threads -/

namespace EceReader

/-- The loop from the `match` on the file name on. -/
def dispatch (r : EceReader) (job : EceJob) : EceReader :=
  if job.len = 0 then { r with pc := .recv }
  else if r.file.isSome then { r with pc := .lock job }
  else { r with pc := .recv }

/-- `j.recv()` and what follows up to the lock; `opened` is the outcome of `File::open`. -/
def recv (r : EceReader) (opened : Bool) : Option EceReader :=
  match r.pc, r.queue with
  | .recv, job :: queue =>
      let r := { r with queue := queue }
      if job.finished then some { r with pc := .exited }
      else
        match job.filename with
        | some name =>
            if opened then
              some ({ r with file := some ⟨name, []⟩, opened := r.opened + 1 }.dispatch job)
            else some { r with pc := .panicked }
        | none => some (r.dispatch job)
  | _, _ => none

def lockBank (r : EceReader) : Option EceReader :=
  match r.pc with
  | .lock job => some { r with pc := .read job }
  | _ => none

/-- The closure under the lock, and `r.len = bytes_read`. -/
def readFile (r : EceReader) (capacity : ℕ) (res : Option (List UInt8)) : Option EceReader :=
  match r.pc, r.file with
  | .read job, some f =>
      let r := { r with file := some { f with reads := f.reads ++ [res] } }
      match res with
      | some bytes =>
          if bytes.length ≤ capacity then
            some { r with
              banks := Function.update r.banks (slot r.firstBank)
                ((r.banks (slot r.firstBank)).fill bytes)
              pc := .ack { job with len := bytes.length } }
          else none
      | none => some { r with pc := .ack { job with len := 0 } }
  | _, _ => none

/-- `worker.ack.send(r)` and `first_bank += 1`, which no other thread sees. -/
def sendAck (r : EceReader) : Option (EceJob × EceReader) :=
  match r.pc with
  | .ack job => some (job, { r with pc := .recv, firstBank := r.firstBank + 1 })
  | _ => none

/-- The bank whose lock the thread holds. -/
def holds (r : EceReader) (s : ℕ) : Bool :=
  match r.pc with
  | .read _ => slot r.firstBank = s
  | _ => false

end EceReader

/-! ## The main thread -/

namespace EceWorker

def setReader (w : EceWorker) (j : ℕ) (r : EceReader) : EceWorker :=
  { w with readers := Function.update w.readers j r }

@[simp] theorem setReader_readers (w : EceWorker) (i j : ℕ) (r : EceReader) :
    (w.setReader j r).readers i = if i = j then r else w.readers i :=
  Function.update_apply ..

/-- `reader.sender.send(ece)`: the receiver lives as long as the worker. -/
def send (w : EceWorker) (i : ℕ) (job : EceJob) : EceWorker :=
  w.setReader i { w.readers i with queue := (w.readers i).queue ++ [job] }

theorem send_readers (w : EceWorker) (i j : ℕ) (job : EceJob) :
    (w.send i job).readers j =
      if j = i then { w.readers j with queue := (w.readers j).queue ++ [job] }
      else w.readers j := by
  unfold send
  rw [setReader_readers]
  split
  next heq => rw [heq]
  next => rfl

def work (w : EceWorker) (filenames : List String) : EceWorker :=
  { w with
    main := .openFiles filenames 0
    offset := 0
    bankRead := 0
    calls := w.calls + 1
    round := 0 }

/-- The loop of `open_files`, which ends with the shorter of the two lists. -/
def openFiles (w : EceWorker) (filenames : List String) (i : ℕ) : EceWorker :=
  match filenames with
  | [] => { w with main := .sendWork 0 false }
  | filename :: filenames =>
      if i < w.nrsReaders then
        { w.send i ⟨0, 0, false, some filename⟩ with main := .openFiles filenames (i + 1) }
      else { w with main := .sendWork 0 false }

/-- The loop of `send_work(&mut offset, self.capacity, false)`. -/
def sendWork (w : EceWorker) (i : ℕ) (inLoop : Bool) : EceWorker :=
  if i < w.nrsReaders then
    { w.send i ⟨w.offset, w.capacity, false, none⟩ with main := .sendWork (i + 1) inLoop }
  else
    { w with
      offset := w.offset + w.capacity
      main := if inLoop then .processWriter 0 false else .waitReaders 0
      len := 0
      acked := if inLoop then w.acked else [] }

/-- The loop of `wait_readers`.  Without readers the channel has no sender and the loop ends. -/
def waitReaders (w : EceWorker) (jobDone : ℕ) : Option EceWorker :=
  if w.nrsReaders = 0 then some { w with main := .sendWork 0 true }
  else
    match w.listener with
    | [] => none
    | ack :: listener =>
        some { w with
          listener := listener
          acked := w.acked ++ [ack]
          main :=
            if jobDone + 1 = w.nrsReaders then .sendWork 0 true else .waitReaders (jobDone + 1) }

/-- The loop of `process_writer`, and the end of the loop of `work`. -/
def processWriter (w : EceWorker) (i : ℕ) (locked : Bool) : Option EceWorker :=
  if locked then
    let b := (w.readers i).banks (slot w.bankRead)
    let s := Utf8.fromUtf8Lossy b.buffer
    some { w with
      len := b.len
      output := w.output ++ [⟨w.calls, w.round, i, b.buffer, b.len, println s⟩]
      main := .processWriter (i + 1) false }
  else if i < w.nrsReaders then
    if (w.readers i).holds (slot w.bankRead) then none
    else some { w with main := .processWriter i true }
  else
    some { w with
      bankRead := (w.bankRead + 1) &&& 1
      round := w.round + 1
      acked := []
      main := if w.len < w.capacity then .idle else .waitReaders 0 }

/-- The loop of `drop` over `send_work(&mut x, 0, true)`. -/
def dropSend (w : EceWorker) (i : ℕ) : EceWorker :=
  if i < w.nrsReaders then
    { w.send i ⟨0, w.capacity, true, none⟩ with main := .dropSend (i + 1) }
  else { w with main := .dropJoin 0 }

def dropJoin (w : EceWorker) (i : ℕ) : Option EceWorker :=
  if i < w.nrsReaders then
    match (w.readers i).pc with
    | .exited => some { w with main := .dropJoin (i + 1) }
    | .panicked => some { w with main := .panicked }    -- `expect("joining thread")`
    | _ => none
  else some { w with main := .dropped }

/-! ## Runs -/

def mainStep (w : EceWorker) : Option EceWorker :=
  match w.main with
  | .openFiles filenames i => some (w.openFiles filenames i)
  | .sendWork i inLoop => some (w.sendWork i inLoop)
  | .waitReaders jobDone => w.waitReaders jobDone
  | .processWriter i locked => w.processWriter i locked
  | .dropSend i => some (w.dropSend i)
  | .dropJoin i => w.dropJoin i
  | .idle | .dropped | .panicked => none

/-- The main thread holds the lock of this bank of reader `j`. -/
def mainHolds (w : EceWorker) (j : ℕ) (s : ℕ) : Bool :=
  w.main = .processWriter j true ∧ slot w.bankRead = s

end EceWorker

inductive Event where
  | work (filenames : List String)
  | drop
  | main
  | recv (j : ℕ) (opened : Bool)
  | lock (j : ℕ)
  | read (j : ℕ) (res : Option (List UInt8))
  | ack (j : ℕ)
  deriving DecidableEq, Repr

namespace EceWorker

def step (w : EceWorker) : Event → Option EceWorker
  | .work filenames => if w.main = .idle then some (w.work filenames) else none
  | .drop => if w.main = .idle then some { w with main := .dropSend 0 } else none
  | .main => w.mainStep
  | .recv j opened =>
      if j < w.nrsReaders then ((w.readers j).recv opened).map (w.setReader j) else none
  | .lock j =>
      if j < w.nrsReaders ∧ w.mainHolds j (slot (w.readers j).firstBank) = false then
        ((w.readers j).lockBank).map (w.setReader j)
      else none
  | .read j res =>
      if j < w.nrsReaders then ((w.readers j).readFile w.capacity res).map (w.setReader j)
      else none
  | .ack j =>
      if j < w.nrsReaders then
        ((w.readers j).sendAck).map fun (job, r) ↦
          { w.setReader j r with listener := w.listener ++ [⟨j, job⟩] }
      else none

end EceWorker

end Divers.DoubleBuffering
