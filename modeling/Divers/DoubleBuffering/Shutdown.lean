import Divers.DoubleBuffering.Measure
import Divers.DoubleBuffering.Progress

/-! `drop`: every thread comes to the job that ends its loop, from whatever the calls of `work`
have left in its queue. -/

open Divers.Library

namespace Divers.DoubleBuffering

/-- The job that `drop` sends. -/
def finishedJob (capacity : ℕ) : EceJob := ⟨0, capacity, true, none⟩

/-! ## One thread -/

namespace EceReader

/-- A thread that has been sent the finished job: it has left its loop, or that job is the last of
its queue and the thread goes on with the others. -/
inductive Finishing (capacity : ℕ) (r : EceReader) : Prop
  | left (hpc : r.pc = .exited) (hqueue : r.queue = [])
  | coming {queue : List EceJob} (hqueue : r.queue = queue ++ [finishedJob capacity])
      (hrunning : Running capacity { r with queue := queue })

variable {capacity : ℕ} {r r' : EceReader} {job : EceJob}

theorem Running.pc_ne (h : r.Running capacity) : r.pc ≠ .exited ∧ r.pc ≠ .panicked := by
  have hpc := h.pc
  constructor
  · intro heq
    rw [heq] at hpc
    exact hpc
  · intro heq
    rw [heq] at hpc
    exact hpc

theorem Running.finish (h : r.Running capacity) :
    Finishing capacity { r with queue := r.queue ++ [finishedJob capacity] } :=
  .coming rfl h

/-- A job taken from the queue leaves the thread at `recv`, or at the lock with a file. -/
theorem dispatch_running {queue : List EceJob} (r : EceReader) (job : EceJob)
    (hjobs : ∀ job ∈ queue, job.finished = false ∧
      (job.filename = none ∧ job.len = capacity ∨ (∃ name, job.filename = some name) ∧
        job.len = 0)) : Running capacity { r.dispatch job with queue := queue } := by
  unfold dispatch
  split
  next => exact ⟨hjobs, trivial⟩
  next =>
  split
  next hfile => exact ⟨hjobs, Option.isSome_iff_ne_none.mp hfile⟩
  next => exact ⟨hjobs, trivial⟩

namespace Finishing

theorem recv (h : r.Finishing capacity) (hrecv : r.recv true = some r') :
    r'.Finishing capacity := by
  obtain ⟨job, rest, hpc, hrest, heq⟩ := recv_cases hrecv
  cases h with
  | left hpc' =>
      rw [hpc] at hpc'
      cases hpc'
  | @coming queue hqueue hrunning =>
      rw [hrest] at hqueue
      cases queue with
      | nil =>
          -- the finished job itself
          obtain ⟨rfl, rfl⟩ := List.cons.inj hqueue
          obtain ⟨-, rfl⟩ | ⟨hfinished, -⟩ | ⟨hfinished, -⟩ := heq
          · exact .left rfl rfl
          · cases hfinished
          · cases hfinished
      | cons first queue =>
          obtain ⟨rfl, rfl⟩ := List.cons.inj hqueue
          have hjobs := hrunning.jobs
          obtain ⟨hfinished', -⟩ := hjobs job List.mem_cons_self
          have hlater := fun job' hjob' ↦ hjobs job' (List.mem_cons_of_mem _ hjob')
          obtain ⟨hfinished, -⟩ | ⟨-, -, rfl⟩ | ⟨-, name, -, ⟨-, rfl⟩ | ⟨hopened, -⟩⟩ := heq
          · rw [hfinished] at hfinished'
            cases hfinished'
          · exact .coming (dispatch_queue ..) (dispatch_running _ job hlater)
          · exact .coming (dispatch_queue ..) (dispatch_running _ job hlater)
          · cases hopened

theorem lockBank (h : r.Finishing capacity) (hlock : r.lockBank = some r') :
    r'.Finishing capacity := by
  obtain ⟨job, hpc, rfl⟩ := lockBank_cases hlock
  cases h with
  | left hpc' =>
      rw [hpc] at hpc'
      cases hpc'
  | coming hqueue hrunning =>
      have hfile := hrunning.pc
      simp only [hpc] at hfile
      exact .coming hqueue ⟨hrunning.jobs, hfile⟩

theorem readFile {res : Option (List UInt8)} (h : r.Finishing capacity)
    (hread : r.readFile capacity res = some r') : r'.Finishing capacity := by
  obtain ⟨job, f, hpc, -, heq⟩ := readFile_cases hread
  cases h with
  | left hpc' =>
      rw [hpc] at hpc'
      cases hpc'
  | coming hqueue hrunning =>
      obtain ⟨bytes, -, -, rfl⟩ | ⟨-, rfl⟩ := heq
      · exact .coming hqueue ⟨hrunning.jobs, trivial⟩
      · exact .coming hqueue ⟨hrunning.jobs, trivial⟩

theorem sendAck (h : r.Finishing capacity) (hack : r.sendAck = some (job, r')) :
    r'.Finishing capacity := by
  obtain ⟨hpc, rfl⟩ := sendAck_cases hack
  cases h with
  | left hpc' =>
      rw [hpc] at hpc'
      cases hpc'
  | coming hqueue hrunning => exact .coming hqueue ⟨hrunning.jobs, trivial⟩

theorem pc_ne_panicked (h : r.Finishing capacity) : r.pc ≠ .panicked := by
  cases h with
  | left hpc => simp [hpc]
  | coming hqueue hrunning => exact hrunning.pc_ne.2

/-- The finished job is the last message. -/
theorem queue_eq (h : r.Finishing capacity) :
    if r.pc = .exited then r.queue = []
    else ∃ queue, r.queue = queue ++ [finishedJob capacity] ∧
      ∀ job ∈ queue, job.finished = false := by
  cases h with
  | left hpc hqueue => rwa [if_pos hpc]
  | @coming queue hqueue hrunning =>
      rw [if_neg hrunning.pc_ne.1]
      exact ⟨queue, hqueue, fun job hjob ↦ (hrunning.jobs job hjob).1⟩

end Finishing

end EceReader

/-! ## The worker -/

/-- The thread that takes the step, if it is a reader. -/
def Event.reader : Event → Option ℕ
  | .recv j _ | .lock j | .read j _ | .ack j => some j
  | _ => none

namespace EceWorker

variable {w w' : EceWorker} {e : Event} {nr capacity i j : ℕ}

/-- Any calls of `work` and then `drop`; the files open. -/
def Openable (_ : EceWorker) : Event → Prop
  | .recv _ opened => opened = true
  | _ => True

instance (w : EceWorker) : (e : Event) → Decidable (w.Openable e)
  | .recv _ opened => inferInstanceAs (Decidable (opened = true))
  | .work _ | .drop | .main | .lock _ | .read _ _ | .ack _ => inferInstanceAs (Decidable True)

/-- `drop` has sent the finished jobs. -/
def Joining (w : EceWorker) : Prop := (∃ i, w.main = .dropJoin i) ∨ w.main = .dropped

/-- The readers that have been sent the finished job. -/
def finishing (w : EceWorker) : ℕ :=
  match w.main with
  | .dropSend i => i
  | _ => w.nrsReaders

/-- `drop` is going on. -/
structure Draining (w : EceWorker) : Prop where
  readers : ∀ j < w.nrsReaders,
    if j < w.finishing then (w.readers j).Finishing w.capacity
    else (w.readers j).Running w.capacity
  main :
    match w.main with
    | .dropSend i => i ≤ w.nrsReaders
    | .dropJoin i => ∀ j < i, (w.readers j).pc = .exited
    | .dropped => ∀ j < w.nrsReaders, (w.readers j).pc = .exited
    | _ => False

namespace Draining

theorem drop (h : w.Active) : Draining { w with main := .dropSend 0 } := by
  refine ⟨fun j hj ↦ ?_, Nat.zero_le _⟩
  show if j < 0 then (w.readers j).Finishing w.capacity else (w.readers j).Running w.capacity
  rw [if_neg (Nat.not_lt_zero j)]
  exact h.readers j hj

/-- Every thread has the finished job. -/
theorem joining (h : w.Draining) (hjoin : w.Joining) (hj : j < w.nrsReaders) :
    (w.readers j).Finishing w.capacity := by
  have hreaders := h.readers j hj
  have hfinishing : w.finishing = w.nrsReaders := by
    unfold finishing
    obtain ⟨i, hmain⟩ | hmain := hjoin
    · rw [hmain]
    · rw [hmain]
  rwa [hfinishing, if_pos hj] at hreaders

theorem mainStep (h : w.Draining) (hstep : w.MainStep w') : w'.Draining := by
  have hphase := h.main
  have hreaders := h.readers
  cases hstep with
  | @dropSend i hmain hlt =>
      refine ⟨fun j hj ↦ ?_, hlt⟩
      have hold := hreaders j hj
      simp only [finishing, hmain] at hold
      show if j < i + 1 then ((w.send i (finishedJob w.capacity)).readers j).Finishing w.capacity
        else ((w.send i (finishedJob w.capacity)).readers j).Running w.capacity
      rw [send_readers]
      by_cases hji : j = i
      · -- the finished job is the last message of its queue
        subst hji
        rw [if_neg (Nat.lt_irrefl j)] at hold
        rw [if_pos (Nat.lt_succ_self j), if_pos rfl]
        exact hold.finish
      · have hiff : j < i + 1 ↔ j < i := by omega
        simp only [if_neg hji, hiff]
        exact hold
  | @dropSent i hmain hend =>
      rw [hmain] at hphase
      have hi : i = w.nrsReaders := Nat.le_antisymm hphase (Nat.not_lt.mp hend)
      refine ⟨fun j hj ↦ ?_, fun j hj ↦ absurd hj (Nat.not_lt_zero j)⟩
      have hold := hreaders j hj
      simp only [finishing, hmain, hi] at hold
      exact hold
  | @joined i hmain hlt hpc =>
      rw [hmain] at hphase
      refine ⟨fun j hj ↦ ?_, fun j hj ↦ ?_⟩
      · have hold := hreaders j hj
        simp only [finishing, hmain] at hold
        exact hold
      · by_cases hji : j = i
        · exact hji ▸ hpc
        · exact hphase j (by omega)
  | @joinPanicked i hmain hlt hpc =>
      -- every file opens, so no reader panics
      exact absurd hpc (h.joining (Or.inl ⟨i, hmain⟩) hlt).pc_ne_panicked
  | @dropEnd i hmain hend =>
      rw [hmain] at hphase
      refine ⟨fun j hj ↦ ?_, fun j hj ↦ hphase j ?_⟩
      · have hold := hreaders j hj
        simp only [finishing, hmain] at hold
        exact hold
      · have : j < w.nrsReaders := hj
        omega
  | openSend hmain | openEnd hmain | workSend hmain | workEnd hmain | noReaders hmain
  | takeAck hmain | lockBank hmain | readBank hmain | endRound hmain =>
      rw [hmain] at hphase
      exact hphase.elim

/-- A step of a thread, which has not left its loop. -/
theorem setReader (h : w.Draining) {r : EceReader} (hpc : (w.readers j).pc ≠ .exited)
    (hrunning : (w.readers j).Running w.capacity → r.Running w.capacity)
    (hfinishing : (w.readers j).Finishing w.capacity → r.Finishing w.capacity) :
    (w.setReader j r).Draining := by
  have hphase := h.main
  have hexited : ∀ k, (w.readers k).pc = .exited → ((w.setReader j r).readers k).pc = .exited := by
    intro k hk
    rw [setReader_readers]
    split
    next heq => exact absurd (heq ▸ hk) hpc
    next => exact hk
  refine ⟨?_, ?_⟩
  · apply setReader_forall (P := fun k r ↦
      if k < w.finishing then r.Finishing w.capacity else r.Running w.capacity) h.readers
    intro hold
    split at hold
    next hlt =>
      rw [if_pos hlt]
      exact hfinishing hold
    next hge =>
      rw [if_neg hge]
      exact hrunning hold
  · show match w.main with
      | .dropSend i => i ≤ w.nrsReaders
      | .dropJoin i => ∀ k < i, ((w.setReader j r).readers k).pc = .exited
      | .dropped => ∀ k < w.nrsReaders, ((w.setReader j r).readers k).pc = .exited
      | _ => False
    cases hmain : w.main <;> rw [hmain] at hphase
    case dropJoin i => exact fun k hk ↦ hexited k (hphase k hk)
    case dropped => exact fun k hk ↦ hexited k (hphase k hk)
    all_goals exact hphase

theorem step (h : w.Draining) (hallow : w.Openable e) (hstep : w.step e = some w') :
    w'.Draining := by
  have hphase := h.main
  have hcases := step_cases hstep
  cases e with
  | work filenames | drop =>
      rw [hcases.1] at hphase
      exact hphase.elim
  | main => exact h.mainStep (mainStep_cases hcases)
  | recv j opened =>
      cases hallow
      obtain ⟨-, r, hr, rfl⟩ := hcases
      exact h.setReader (EceReader.recv_live hr).1 (fun hold ↦ hold.recv hr)
        fun hold ↦ hold.recv hr
  | lock j =>
      obtain ⟨-, r, hr, rfl⟩ := hcases
      exact h.setReader (EceReader.lockBank_live hr).1 (fun hold ↦ hold.lockBank hr)
        fun hold ↦ hold.lockBank hr
  | read j res =>
      obtain ⟨-, r, hr, rfl⟩ := hcases
      exact h.setReader (EceReader.readFile_live hr).1 (fun hold ↦ hold.readFile hr)
        fun hold ↦ hold.readFile hr
  | ack j =>
      obtain ⟨-, job, r, hr, rfl⟩ := hcases
      have hset := h.setReader (EceReader.sendAck_live hr).1 (fun hold ↦ hold.sendAck hr)
        fun hold ↦ hold.sendAck hr
      exact ⟨hset.readers, hset.main⟩

/-- No thread waits before it has left its loop. -/
theorem enabled (h : w.Draining) (hjoin : w.Joining) (hj : j < w.nrsReaders)
    (hpc : (w.readers j).pc ≠ .exited) :
    ∃ e : Event, e.reader = some j ∧ w.Openable e ∧ w.step e ≠ none := by
  cases h.joining hjoin hj with
  | left hexited => exact absurd hexited hpc
  | @coming queue hqueue hrunning =>
      have hrunningPc := hrunning.pc
      cases hcase : (w.readers j).pc with
      | recv =>
          refine ⟨.recv j true, rfl, rfl, ?_⟩
          simp only [EceWorker.step, if_pos hj, ne_eq, Option.map_eq_none_iff]
          -- the queue ends with the finished job
          obtain ⟨job, rest, hcons⟩ := List.exists_cons_of_ne_nil
            (List.append_ne_nil_of_right_ne_nil queue
              (List.cons_ne_nil (finishedJob w.capacity) []))
          rw [hcons] at hqueue
          unfold EceReader.recv
          rw [hcase, hqueue]
          dsimp only
          split
          next => simp
          next => split <;> simp
      | lock job =>
          refine ⟨.lock j, rfl, trivial, ?_⟩
          -- `process_writer` is over
          have hfree : w.mainHolds j (slot (w.readers j).firstBank) = false := by
            unfold mainHolds
            obtain ⟨i, hmain⟩ | hmain := hjoin
            · simp [hmain]
            · simp [hmain]
          simp [EceWorker.step, hj, hfree, EceReader.lockBank, hcase]
      | read job =>
          simp only [hcase] at hrunningPc
          obtain ⟨f, hfile⟩ := Option.ne_none_iff_exists'.mp hrunningPc
          refine ⟨.read j none, rfl, trivial, ?_⟩
          simp [EceWorker.step, hj, EceReader.readFile, hcase, hfile]
      | ack job =>
          refine ⟨.ack j, rfl, trivial, ?_⟩
          simp [EceWorker.step, hj, EceReader.sendAck, hcase]
      | exited => exact absurd hcase hpc
      | panicked => exact absurd hcase hrunning.pc_ne.2

end Draining

/-! ## After the finished jobs -/

theorem setReader_silent {k : ℕ} {r : EceReader} (hpc : (w.readers k).pc ≠ .exited)
    (hqueue : r.queue = (w.readers k).queue) (j : ℕ) :
    ((w.readers j).pc = .exited → (w.setReader k r).readers j = w.readers j) ∧
      ((w.setReader k r).readers j).queue = (w.readers j).queue := by
  rw [setReader_readers]
  split
  next hjk =>
    rw [hjk]
    exact ⟨fun hexited ↦ absurd hexited hpc, hqueue⟩
  next => exact ⟨fun _ ↦ rfl, rfl⟩

/-- The main thread goes on to the next join, or it panics with the thread that it joins. -/
theorem Joining.mainStep (hjoin : w.Joining) (hstep : w.MainStep w') :
    w'.readers = w.readers ∧
      (w'.Joining ∨ ∃ i < w.nrsReaders, (w.readers i).pc = .panicked) := by
  cases hstep with
  | joined => exact ⟨rfl, Or.inl (Or.inl ⟨_, rfl⟩)⟩
  | dropEnd => exact ⟨rfl, Or.inl (Or.inr rfl)⟩
  | joinPanicked hmain hlt hpc => exact ⟨rfl, Or.inr ⟨_, hlt, hpc⟩⟩
  | openSend hmain | openEnd hmain | workSend hmain | workEnd hmain | noReaders hmain
  | takeAck hmain | lockBank hmain | readBank hmain | endRound hmain | dropSend hmain
  | dropSent hmain =>
      obtain ⟨i, hmain'⟩ | hmain' := hjoin <;> rw [hmain'] at hmain <;> cases hmain

/-- The main thread only joins, and a thread takes a message or leaves its queue alone. -/
theorem Joining.readers (hjoin : w.Joining) (hstep : w.step e = some w') (j : ℕ) :
    ((w.readers j).pc = .exited → w'.readers j = w.readers j) ∧
    ((∀ opened, e ≠ .recv j opened) → (w'.readers j).queue = (w.readers j).queue) ∧
    ∀ opened, e = .recv j opened →
      ∃ job, (w.readers j).queue = job :: (w'.readers j).queue := by
  have hcases := step_cases hstep
  cases e with
  | work filenames | drop =>
      obtain ⟨i, hmain⟩ | hmain := hjoin <;> rw [hmain] at hcases <;> cases hcases.1
  | main =>
      rw [(hjoin.mainStep (mainStep_cases hcases)).1]
      exact ⟨fun _ ↦ rfl, fun _ ↦ rfl, fun _ heq ↦ by cases heq⟩
  | recv k opened =>
      obtain ⟨-, r, hr, rfl⟩ := hcases
      rw [setReader_readers]
      split
      next hjk =>
        subst hjk
        exact ⟨fun hexited ↦ absurd hexited (EceReader.recv_live hr).1,
          fun hother ↦ absurd rfl (hother opened), fun _ _ ↦ EceReader.recv_queue hr⟩
      next hjk =>
        refine ⟨fun _ ↦ rfl, fun _ ↦ rfl, fun opened' heq' ↦ ?_⟩
        cases heq'
        exact absurd rfl hjk
  | lock k =>
      obtain ⟨-, r, hr, rfl⟩ := hcases
      obtain ⟨hexited, hqueue⟩ :=
        setReader_silent (EceReader.lockBank_live hr).1 (EceReader.lockBank_queue hr) j
      exact ⟨hexited, fun _ ↦ hqueue, fun _ heq ↦ by cases heq⟩
  | read k res =>
      obtain ⟨-, r, hr, rfl⟩ := hcases
      obtain ⟨hexited, hqueue⟩ :=
        setReader_silent (EceReader.readFile_live hr).1 (EceReader.readFile_queue hr) j
      exact ⟨hexited, fun _ ↦ hqueue, fun _ heq ↦ by cases heq⟩
  | ack k =>
      obtain ⟨-, job, r, hr, rfl⟩ := hcases
      obtain ⟨hexited, hqueue⟩ :=
        setReader_silent (EceReader.sendAck_live hr).1 (EceReader.sendAck_queue hr) j
      exact ⟨hexited, fun _ ↦ hqueue, fun _ heq ↦ by cases heq⟩

/-- Every step is one less. -/
theorem Joining.step (hjoin : w.Joining) (h : w.Draining) (hstep : w.step e = some w') :
    w'.Joining ∧ w'.cost 0 < w.cost 0 := by
  have hlate : (∀ jobDone, w.main ≠ .waitReaders jobDone) ∧
      (∀ i, w.main ≠ .processWriter i false) ∧ w.main ≠ .idle := by
    obtain ⟨i, hmain⟩ | hmain := hjoin
    · simp [hmain]
    · simp [hmain]
  have hcases := step_cases hstep
  refine ⟨?_, cost_step ?_ hstep (fun jobDone hmain ↦ absurd hmain (hlate.1 jobDone))
    fun i hmain ↦ absurd hmain (hlate.2.1 i)⟩
  · cases e with
    | work filenames | drop => exact absurd hcases.1 hlate.2.2
    | main =>
        obtain hjoin' | ⟨i, hlt, hpc⟩ := (hjoin.mainStep (mainStep_cases hcases)).2
        · exact hjoin'
        · exact absurd hpc (h.joining hjoin hlt).pc_ne_panicked
    | recv j opened | lock j | read j res =>
        obtain ⟨-, r, -, rfl⟩ := hcases
        exact hjoin
    | ack j =>
        obtain ⟨-, job, r, -, rfl⟩ := hcases
        exact hjoin
  · cases e with
    | work filenames | drop => exact absurd hcases.1 hlate.2.2
    | _ => rfl

/-- Nothing goes on only after the last join. -/
theorem Joining.dropped (hjoin : w.Joining) (h : w.Draining)
    (hnone : ∀ e, w.Openable e → w.step e = none) : w.main = .dropped := by
  obtain ⟨i, hmain⟩ | hmain := hjoin
  · have hblocked : w.mainStep = none := hnone .main trivial
    by_cases hlt : i < w.nrsReaders
    · by_cases hpc : (w.readers i).pc = .exited
      · rw [(MainStep.joined hmain hlt hpc).mainStep_eq] at hblocked
        cases hblocked
      · obtain ⟨e, -, hallow, hstep⟩ := h.enabled (Or.inl ⟨i, hmain⟩) hlt hpc
        exact absurd (hnone e hallow) hstep
    · rw [(MainStep.dropEnd hmain hlt).mainStep_eq] at hblocked
      cases hblocked
  · exact hmain

/-! ## Runs -/

theorem run_draining (hrun : Guarded step Openable (EceWorker.new nr capacity) w) :
    w.Active ∨ w.Draining := by
  apply hrun.invariant (I := fun w ↦ w.Active ∨ w.Draining)
    (Or.inl ⟨fun _ _ ↦ EceReader.Running.new capacity, rfl⟩)
  intro w e w' hinv hallow hstep
  obtain h | h := hinv
  · by_cases hdrop : e = .drop
    · subst hdrop
      rw [(step_cases hstep).2]
      exact Or.inr (Draining.drop h)
    · refine Or.inl (h.step ?_ hstep)
      cases e with
      | drop => exact absurd rfl hdrop
      | recv j opened => exact hallow
      | _ => trivial
  · exact Or.inr (h.step hallow hstep)

/-- After any calls that have returned, `drop` joins every thread: the finished job is the last
message of each queue, each pass of a reader takes one message and no message is added, a reader
that has taken the finished job does nothing more, and until then it can go on.  Every step counts
down to the last join. -/
theorem drop_run_joins (nr capacity : ℕ) (w : EceWorker)
    (hrun : Guarded step Openable (EceWorker.new nr capacity) w) (hjoin : w.Joining) :
    (∀ j < nr, if (w.readers j).pc = .exited then (w.readers j).queue = []
      else ∃ queue, (w.readers j).queue = queue ++ [finishedJob capacity] ∧
        ∀ job ∈ queue, job.finished = false) ∧
    (∀ e w', w.Openable e → w.step e = some w' → w'.Joining ∧ w'.cost 0 < w.cost 0 ∧
      ∀ j < nr, ((w.readers j).pc = .exited → w'.readers j = w.readers j) ∧
        ((∀ opened, e ≠ .recv j opened) → (w'.readers j).queue = (w.readers j).queue) ∧
        ∀ opened, e = .recv j opened →
          ∃ job, (w.readers j).queue = job :: (w'.readers j).queue) ∧
    (∀ j < nr, (w.readers j).pc ≠ .exited →
      ∃ e : Event, e.reader = some j ∧ w.Openable e ∧ w.step e ≠ none) ∧
    (∀ j res, (w.readers j).pc = .exited → w.step (.read j res) = none) ∧
    ((∀ e, w.Openable e → w.step e = none) → w.main = .dropped) ∧
    (w.main = .dropped → ∀ j < nr, (w.readers j).pc = .exited) ∧
    ∃ w', Guarded step Openable w w' ∧ w'.main = .dropped := by
  have hdraining : w.Draining := by
    refine (run_draining hrun).resolve_left fun hactive ↦ ?_
    have hphase := hactive.main
    obtain ⟨i, hmain⟩ | hmain := hjoin <;> rw [hmain] at hphase <;> cases hphase
  obtain ⟨rfl, rfl⟩ := run_nrsReaders hrun
  refine ⟨fun j hj ↦ (hdraining.joining hjoin hj).queue_eq, fun e w' hallow hstep ↦ ?_,
    fun j hj hpc ↦ hdraining.enabled hjoin hj hpc, fun j res hpc ↦ ?_, hjoin.dropped hdraining,
    fun hmain ↦ ?_, ?_⟩
  · obtain ⟨hjoin', hcost⟩ := hjoin.step hdraining hstep
    exact ⟨hjoin', hcost, fun j _ ↦ hjoin.readers hstep j⟩
  · simp [EceWorker.step, EceReader.readFile, hpc]
  · have hphase := hdraining.main
    rw [hmain] at hphase
    exact hphase
  · -- the cost goes down with each step, so some run comes to an end
    obtain ⟨w', hrun', ⟨h, hjoin'⟩, hnone⟩ := Guarded.exists_terminal
      (I := fun w ↦ w.Draining ∧ w.Joining) (EceWorker.cost 0) ⟨hdraining, hjoin⟩ (by
        intro t e u hinv hallow hstep
        obtain ⟨h, hjoin⟩ := hinv
        obtain ⟨hjoin', hcost⟩ := hjoin.step h hstep
        exact ⟨⟨h.step hallow hstep, hjoin'⟩, hcost⟩)
    exact ⟨w', hrun', hjoin'.dropped h hnone⟩

/-- Dropped with a read job of the last round still in the queue. -/
theorem drop_run_joins_leftover :
    ∃ w, Guarded step Openable (EceWorker.new 1 1) w ∧ w.main = .dropJoin 0 ∧
      (w.readers 0).queue = [⟨1, 1, false, none⟩, finishedJob 1] ∧
      ∃ w', Guarded step Openable w w' ∧ w'.main = .dropped := by
  have hcall : ∃ w, exec step Openable (EceWorker.new 1 1)
      [.work ["a"], .main, .main, .main, .main, .recv 0 true, .recv 0 true, .lock 0,
        .read 0 (some []), .ack 0, .main, .main, .main, .main, .main, .main, .drop, .main, .main] =
          some w ∧
      w.main = .dropJoin 0 ∧ (w.readers 0).queue = [⟨1, 1, false, none⟩, finishedJob 1] :=
    ⟨_, rfl, rfl, rfl⟩
  obtain ⟨w, hexec, hmain, hqueue⟩ := hcall
  have hrun := Guarded.of_exec hexec
  have hjoins := drop_run_joins 1 1 w hrun (Or.inl ⟨0, hmain⟩)
  exact ⟨w, hrun, hmain, hqueue, hjoins.2.2.2.2.2.2⟩

end EceWorker

end Divers.DoubleBuffering
