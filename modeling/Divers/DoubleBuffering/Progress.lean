import Divers.DoubleBuffering.Reader

/-! Whether the threads go on: what each reader does with its jobs, and what blocks the main
thread. -/

open Divers.Library

namespace Divers.DoubleBuffering

/-! ## Readers that go on -/

namespace EceReader

/-- Outside `drop` the queue holds jobs of `open_files` and of `send_work`, and the thread runs. -/
structure Running (capacity : ℕ) (r : EceReader) : Prop where
  jobs : ∀ job ∈ r.queue, job.finished = false ∧
    (job.filename = none ∧ job.len = capacity ∨ (∃ name, job.filename = some name) ∧ job.len = 0)
  pc :
    match r.pc with
    | .lock _ | .read _ => r.file ≠ none
    | .exited | .panicked => False
    | _ => True

namespace Running

variable {capacity : ℕ} {r r' : EceReader} {job : EceJob}

theorem new (capacity : ℕ) : (EceReader.new capacity).Running capacity :=
  ⟨fun _ h ↦ absurd h List.not_mem_nil, trivial⟩

theorem send (h : r.Running capacity) (hfinished : job.finished = false)
    (hjob : job.filename = none ∧ job.len = capacity ∨
      (∃ name, job.filename = some name) ∧ job.len = 0) :
    Running capacity { r with queue := r.queue ++ [job] } := by
  refine ⟨fun job' hjob' ↦ ?_, h.pc⟩
  rcases List.mem_append.mp hjob' with hold | hnew
  · exact h.jobs job' hold
  · rw [List.mem_singleton.mp hnew]
    exact ⟨hfinished, hjob⟩

/-- The two kinds of jobs at `recv`: a file is opened, or a read job goes to the lock if there is a
file and is dropped if there is none. -/
theorem recv_cases (h : r.Running capacity) (hrecv : r.recv true = some r') :
    ∃ job queue, r.pc = .recv ∧ r.queue = job :: queue ∧
      ((∃ name, job.filename = some name ∧
          r' = { r with
            queue := queue
            file := some ⟨name, []⟩
            opened := r.opened + 1
            pc := .recv }) ∨
        job.filename = none ∧ job.len = capacity ∧
          r' = if capacity = 0 ∨ r.file = none then { r with queue := queue, pc := .recv }
            else { r with queue := queue, pc := .lock job }) := by
  rcases EceReader.recv_cases hrecv with ⟨job, queue, hpc, hqueue, hr'⟩
  rcases h.jobs job (by simp [hqueue]) with ⟨hfinished, hjob⟩
  refine ⟨job, queue, hpc, hqueue, ?_⟩
  rcases hjob with ⟨hname, hlen⟩ | ⟨⟨name, hname⟩, hlen⟩
  · right
    simp only [hfinished, hname, Bool.false_eq_true, false_and, true_and, reduceCtorEq,
      exists_false, or_false, false_or] at hr'
    refine ⟨hname, hlen, ?_⟩
    rw [hr']
    unfold dispatch
    -- a read job with no length, or without a file, is dropped
    rw [hlen]
    by_cases hzero : capacity = 0
    · rw [if_pos hzero, if_pos (Or.inl hzero)]
    · rw [if_neg hzero]
      cases hfile : r.file with
      | none => simp [hzero]
      | some f => simp [hzero]
  · left
    simp only [hfinished, hname, Bool.false_eq_true, false_and, true_and, reduceCtorEq, and_false,
      or_false, false_or, Option.some.injEq, exists_eq_left'] at hr'
    refine ⟨name, hname, ?_⟩
    rw [hr']
    unfold dispatch
    rw [if_pos hlen]

theorem recv (h : r.Running capacity) (hrecv : r.recv true = some r') : r'.Running capacity := by
  rcases h.recv_cases hrecv with ⟨job, queue, hpc, hqueue, hr'⟩
  have hrest : ∀ job ∈ queue, job.finished = false ∧
      (job.filename = none ∧ job.len = capacity ∨ (∃ name, job.filename = some name) ∧
        job.len = 0) := fun job hjob ↦ h.jobs job (by simp [hqueue, hjob])
  rcases hr' with ⟨name, -, rfl⟩ | ⟨-, -, rfl⟩
  · exact ⟨hrest, trivial⟩
  · split
    next => exact ⟨hrest, trivial⟩
    next hfile => exact ⟨hrest, fun hnone ↦ hfile (Or.inr hnone)⟩

theorem lockBank (h : r.Running capacity) (hlock : r.lockBank = some r') :
    r'.Running capacity := by
  rcases lockBank_cases hlock with ⟨job, hpc, rfl⟩
  have hfile := h.pc
  rw [hpc] at hfile
  exact ⟨h.jobs, hfile⟩

theorem readFile {res : Option (List UInt8)} (h : r.Running capacity)
    (hread : r.readFile capacity res = some r') : r'.Running capacity := by
  rcases readFile_cases hread with ⟨job, f, -, -, ⟨bytes, -, -, rfl⟩ | ⟨-, rfl⟩⟩
  · exact ⟨h.jobs, trivial⟩
  · exact ⟨h.jobs, trivial⟩

theorem sendAck (h : r.Running capacity) (hack : r.sendAck = some (job, r')) :
    r'.Running capacity := by
  rcases sendAck_cases hack with ⟨-, rfl⟩
  exact ⟨h.jobs, trivial⟩

end Running

/-! ### The jobs a reader answers for -/

/-- The read jobs it has acknowledged, and those it still has. -/
def promised (r : EceReader) : ℕ := r.firstBank + r.unfinished

variable {capacity : ℕ} {r r' : EceReader} {job : EceJob}

theorem promised_send (r : EceReader) (job : EceJob) :
    promised { r with queue := r.queue ++ [job] } =
      r.promised + if job.filename = none then 1 else 0 := by
  unfold promised unfinished
  dsimp only
  rw [List.countP_append, List.countP_singleton]
  split <;> split <;> simp_all <;> omega

/-- A reader drops a read job only if it has no file, or no room for a byte. -/
theorem Running.recv_promised (h : r.Running capacity) (hrecv : r.recv true = some r') :
    r'.promised ≤ r.promised ∧
      (0 < capacity →
        (r.file = none → ∃ job queue, r.queue = job :: queue ∧ job.filename ≠ none) →
        r'.promised = r.promised) := by
  rcases h.recv_cases hrecv with ⟨job, queue, hpc, hqueue, hr'⟩
  rcases hr' with ⟨name, hname, rfl⟩ | ⟨hname, hlen, rfl⟩
  · -- a job of `open_files` is not a read job
    have hsame : promised { r with
        queue := queue
        file := some ⟨name, []⟩
        opened := r.opened + 1
        pc := .recv } = r.promised := by
      unfold promised unfinished
      rw [hpc, hqueue, List.countP_cons_of_neg (by simp [hname])]
    exact ⟨Nat.le_of_eq hsame, fun _ _ ↦ hsame⟩
  · have hcount : r.promised =
        r.firstBank + (queue.countP (fun job ↦ job.filename = none) + 1) := by
      unfold promised unfinished
      rw [hpc, hqueue, List.countP_cons_of_pos (by simp [hname])]
      rfl
    split
    next hdrop =>
      constructor
      · rw [hcount]
        unfold promised unfinished
        dsimp only
        omega
      · intro hcapacity hopen
        rcases hdrop with hzero | hnone
        · omega
        · rcases hopen hnone with ⟨job', queue', hqueue', hjob'⟩
          rw [hqueue] at hqueue'
          cases hqueue'
          exact absurd hname hjob'
    next => exact ⟨Nat.le_of_eq hcount.symm, fun _ _ ↦ hcount.symm⟩

theorem lockBank_promised (h : r.lockBank = some r') : r'.promised = r.promised := by
  rcases lockBank_cases h with ⟨job, hpc, rfl⟩
  unfold promised unfinished
  rw [hpc]

theorem readFile_promised {res : Option (List UInt8)} (h : r.readFile capacity res = some r') :
    r'.promised = r.promised := by
  rcases readFile_cases h with ⟨job, f, hpc, -, ⟨bytes, -, -, rfl⟩ | ⟨-, rfl⟩⟩
  all_goals
    unfold promised unfinished
    rw [hpc]

theorem sendAck_promised (h : r.sendAck = some (job, r')) :
    r'.promised = r.promised ∧ r'.firstBank = r.firstBank + 1 := by
  rcases sendAck_cases h with ⟨hpc, rfl⟩
  refine ⟨?_, rfl⟩
  unfold promised unfinished
  rw [hpc]
  dsimp only
  omega

end EceReader

/-! ## Workers that go on -/

namespace EceWorker

/-- The scheduler is free, but the worker is not dropped and the files open. -/
def FilesOpen (_ : EceWorker) : Event → Prop
  | .drop => False
  | .recv _ opened => opened = true
  | _ => True

instance (w : EceWorker) : (e : Event) → Decidable (w.FilesOpen e)
  | .drop => inferInstanceAs (Decidable False)
  | .recv _ opened => inferInstanceAs (Decidable (opened = true))
  | .work _ | .main | .lock _ | .read _ _ | .ack _ => inferInstanceAs (Decidable True)

end EceWorker

def MainPc.dropping : MainPc → Bool
  | .dropSend _ | .dropJoin _ | .dropped | .panicked => true
  | _ => false

namespace EceWorker

variable {w w' : EceWorker} {e : Event}

structure Active (w : EceWorker) : Prop where
  readers : ∀ j < w.nrsReaders, (w.readers j).Running w.capacity
  main : w.main.dropping = false

namespace Active

theorem send (h : w.Active) {i : ℕ} {job : EceJob} (hfinished : job.finished = false)
    (hjob : job.filename = none ∧ job.len = w.capacity ∨
      (∃ name, job.filename = some name) ∧ job.len = 0) :
    ∀ j < w.nrsReaders, ((w.send i job).readers j).Running w.capacity := by
  intro j hj
  rw [send_readers]
  split
  next => exact (h.readers j hj).send hfinished hjob
  next => exact h.readers j hj

theorem mainStep (h : w.Active) (hstep : w.MainStep w') : w'.Active := by
  have hphase := h.main
  cases hstep with
  | openSend => exact ⟨h.send rfl (Or.inr ⟨⟨_, rfl⟩, rfl⟩), rfl⟩
  | workSend => exact ⟨h.send rfl (Or.inl ⟨rfl, rfl⟩), rfl⟩
  | workEnd | takeAck | endRound =>
      refine ⟨h.readers, ?_⟩
      dsimp only
      split
      next => rfl
      next => rfl
  | dropSend hmain | dropSent hmain | joined hmain | joinPanicked hmain | dropEnd hmain =>
      rw [hmain] at hphase
      cases hphase
  | _ => exact ⟨h.readers, rfl⟩

theorem setReader (h : w.Active) {j : ℕ} {r : EceReader}
    (hr : (w.readers j).Running w.capacity → r.Running w.capacity) : (w.setReader j r).Active :=
  ⟨setReader_forall (P := fun _ r ↦ r.Running w.capacity) h.readers hr, h.main⟩

theorem step (h : w.Active) (hallow : w.FilesOpen e) (hstep : w.step e = some w') :
    w'.Active := by
  have hcases := step_cases hstep
  cases e with
  | work filenames =>
      rw [hcases.2]
      exact ⟨h.readers, rfl⟩
  | drop => exact hallow.elim
  | main => exact h.mainStep (mainStep_cases hcases)
  | recv j opened =>
      cases hallow
      rcases hcases with ⟨-, r, hr, rfl⟩
      exact h.setReader fun hold ↦ hold.recv hr
  | lock j =>
      rcases hcases with ⟨-, r, hr, rfl⟩
      exact h.setReader fun hold ↦ hold.lockBank hr
  | read j res =>
      rcases hcases with ⟨-, r, hr, rfl⟩
      exact h.setReader fun hold ↦ hold.readFile hr
  | ack j =>
      rcases hcases with ⟨-, job, r, hr, rfl⟩
      have hset := h.setReader fun hold ↦ hold.sendAck hr
      exact ⟨hset.readers, hset.main⟩

end Active

/-! ## Blocked workers -/

/-- The main thread waits for an acknowledgement that nobody is going to send. -/
structure Stuck (w : EceWorker) : Prop where
  main : ∃ jobDone, w.main = .waitReaders jobDone
  blocked : w.mainStep = none
  listener : w.listener = []
  queues : ∀ j < w.nrsReaders, (w.readers j).queue = []
  idle : ∀ j < w.nrsReaders, (w.readers j).pc = .recv

/-- No thread but a reader at `recv` with an empty queue is unable to go on; the only other reason
to stand still would be a lock, and a thread that holds a lock goes on. -/
theorem Active.reader_idle (h : w.Active) (hmain : w.step .main = none)
    (hrecv : ∀ j, w.step (.recv j true) = none) (hlock : ∀ j, w.step (.lock j) = none)
    (hread : ∀ j < w.nrsReaders, (∃ job, (w.readers j).pc = .read job) →
      ∃ bytes, bytes.length ≤ w.capacity ∧ w.step (.read j (some bytes)) = none)
    (hack : ∀ j, w.step (.ack j) = none) {j : ℕ} (hj : j < w.nrsReaders) :
    (w.readers j).pc = .recv ∧ (w.readers j).queue = [] := by
  have hpcs := (h.readers j hj).pc
  cases hpc : (w.readers j).pc with
  | recv =>
      refine ⟨rfl, ?_⟩
      cases hqueue : (w.readers j).queue with
      | nil => rfl
      | cons job queue =>
          have hnone := hrecv j
          simp only [EceWorker.step, if_pos hj, Option.map_eq_none_iff, EceReader.recv, hpc,
            hqueue] at hnone
          repeat' split at hnone
          all_goals cases hnone
  | lock job =>
      have hnone := hlock j
      simp only [EceWorker.step, EceReader.lockBank, hpc] at hnone
      split at hnone
      next => cases hnone
      next hheld =>
        -- the main thread has the lock, and will print the bank
        have hlocked : w.main = .processWriter j true := by
          by_contra hne
          apply hheld
          simp [hj, mainHolds, hne]
        simp [EceWorker.step, EceWorker.mainStep, hlocked, EceWorker.processWriter] at hmain
  | read job =>
      rw [hpc] at hpcs
      rcases hread j hj ⟨job, hpc⟩ with ⟨bytes, hlen, hnone⟩
      rcases Option.ne_none_iff_exists'.mp hpcs with ⟨f, hfile⟩
      simp [EceWorker.step, hj, EceReader.readFile, hpc, hfile, hlen] at hnone
  | ack job =>
      have hnone := hack j
      simp [EceWorker.step, hj, EceReader.sendAck, hpc] at hnone
  | exited | panicked =>
      rw [hpc] at hpcs
      exact hpcs.elim

theorem Active.stuck (h : w.Active) (hidle : w.main ≠ .idle) (hmain : w.step .main = none)
    (hreaders : ∀ j < w.nrsReaders, (w.readers j).pc = .recv ∧ (w.readers j).queue = []) :
    w.Stuck := by
  have hphase := h.main
  have hblocked : w.mainStep = none := hmain
  unfold EceWorker.mainStep at hblocked
  cases hpc : w.main with
  | waitReaders jobDone =>
      refine ⟨⟨jobDone, hpc⟩, hmain, ?_, fun j hj ↦ (hreaders j hj).2, fun j hj ↦ (hreaders j hj).1⟩
      rw [hpc] at hblocked
      dsimp only at hblocked
      unfold EceWorker.waitReaders at hblocked
      split at hblocked
      next => cases hblocked
      next =>
      split at hblocked
      next heq => exact heq
      next => cases hblocked
  | processWriter i locked =>
      rw [hpc] at hblocked
      dsimp only at hblocked
      unfold EceWorker.processWriter at hblocked
      split at hblocked
      next => cases hblocked
      next =>
      split at hblocked
      next hlt =>
        have hfree : (w.readers i).holds (slot w.bankRead) = false := by
          unfold EceReader.holds
          rw [(hreaders i hlt).1]
        rw [hfree] at hblocked
        cases hblocked
      next => cases hblocked
  | openFiles filenames i | sendWork i inLoop =>
      rw [hpc] at hblocked
      cases hblocked
  | idle => exact absurd hpc hidle
  | dropSend i | dropJoin i | dropped | panicked =>
      rw [hpc] at hphase
      cases hphase

end EceWorker

end Divers.DoubleBuffering
