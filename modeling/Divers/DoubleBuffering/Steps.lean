import Divers.DoubleBuffering.Model

/-! What each step of a thread can do: proofs about runs use nothing else of the step functions. -/

open Divers.Library

namespace Divers.DoubleBuffering

/-! ## The reader threads -/

namespace EceReader

/-- The thread stays where it is or goes to the lock. -/
theorem dispatch_eq (r : EceReader) (job : EceJob) :
    ∃ pc, r.dispatch job = { r with pc := pc } := by
  unfold dispatch
  split
  next => exact ⟨_, rfl⟩
  next =>
  split
  next => exact ⟨_, rfl⟩
  next => exact ⟨_, rfl⟩

@[simp] theorem dispatch_file (r : EceReader) (job : EceJob) : (r.dispatch job).file = r.file := by
  rcases r.dispatch_eq job with ⟨pc, heq⟩
  rw [heq]

@[simp] theorem dispatch_banks (r : EceReader) (job : EceJob) :
    (r.dispatch job).banks = r.banks := by
  rcases r.dispatch_eq job with ⟨pc, heq⟩
  rw [heq]

@[simp] theorem dispatch_firstBank (r : EceReader) (job : EceJob) :
    (r.dispatch job).firstBank = r.firstBank := by
  rcases r.dispatch_eq job with ⟨pc, heq⟩
  rw [heq]

@[simp] theorem dispatch_queue (r : EceReader) (job : EceJob) :
    (r.dispatch job).queue = r.queue := by
  rcases r.dispatch_eq job with ⟨pc, heq⟩
  rw [heq]

theorem dispatch_pc (r : EceReader) (job job' : EceJob) : (r.dispatch job).pc ≠ .ack job' := by
  unfold dispatch
  split
  next => exact fun hpc ↦ by cases hpc
  next =>
  split
  next => exact fun hpc ↦ by cases hpc
  next => exact fun hpc ↦ by cases hpc

-- What each step of a reader says about its two states.
section Cases

variable {r r' : EceReader} {job : EceJob}

theorem recv_cases {opened : Bool} (h : r.recv opened = some r') :
    ∃ job queue, r.pc = .recv ∧ r.queue = job :: queue ∧
      (job.finished = true ∧ r' = { r with queue := queue, pc := .exited } ∨
        job.finished = false ∧ job.filename = none ∧ r' = { r with queue := queue }.dispatch job ∨
        job.finished = false ∧ ∃ name, job.filename = some name ∧
          (opened = true ∧ r' = { r with
              queue := queue
              file := some ⟨name, []⟩
              opened := r.opened + 1 }.dispatch job ∨
            opened = false ∧ r' = { r with queue := queue, pc := .panicked })) := by
  unfold recv at h
  split at h
  next job queue hpc hqueue =>
    refine ⟨job, queue, hpc, hqueue, ?_⟩
    dsimp only at h
    split at h
    next hfinished => exact Or.inl ⟨hfinished, (Option.some.inj h).symm⟩
    next hfinished =>
    have hfinished : job.finished = false := by simpa using hfinished
    split at h
    next name hname =>
      refine Or.inr (Or.inr ⟨hfinished, name, hname, ?_⟩)
      split at h
      next hopened => exact Or.inl ⟨hopened, (Option.some.inj h).symm⟩
      next hopened => exact Or.inr ⟨by simpa using hopened, (Option.some.inj h).symm⟩
    next hname => exact Or.inr (Or.inl ⟨hfinished, hname, (Option.some.inj h).symm⟩)
  next => cases h

theorem lockBank_cases (h : r.lockBank = some r') :
    ∃ job, r.pc = .lock job ∧ r' = { r with pc := .read job } := by
  unfold lockBank at h
  split at h
  next job hpc => exact ⟨job, hpc, (Option.some.inj h).symm⟩
  next => cases h

theorem readFile_cases {capacity : ℕ} {res : Option (List UInt8)}
    (h : r.readFile capacity res = some r') :
    ∃ job f, r.pc = .read job ∧ r.file = some f ∧
      ((∃ bytes, res = some bytes ∧ bytes.length ≤ capacity ∧
          r' = { r with
            file := some { f with reads := f.reads ++ [res] }
            banks := Function.update r.banks (slot r.firstBank)
              ((r.banks (slot r.firstBank)).fill bytes)
            pc := .ack { job with len := bytes.length } }) ∨
        res = none ∧ r' = { r with
          file := some { f with reads := f.reads ++ [res] }
          pc := .ack { job with len := 0 } }) := by
  unfold readFile at h
  split at h
  next job f hpc hfile =>
    refine ⟨job, f, hpc, hfile, ?_⟩
    dsimp only at h
    split at h
    next bytes =>
      split at h
      next hlen => exact Or.inl ⟨bytes, rfl, hlen, (Option.some.inj h).symm⟩
      next => cases h
    next => exact Or.inr ⟨rfl, (Option.some.inj h).symm⟩
  next => cases h

theorem sendAck_cases (h : r.sendAck = some (job, r')) :
    r.pc = .ack job ∧ r' = { r with pc := .recv, firstBank := r.firstBank + 1 } := by
  unfold sendAck at h
  split at h
  next hpc =>
    cases h
    exact ⟨hpc, rfl⟩
  next => cases h

theorem recv_firstBank {opened : Bool} (h : r.recv opened = some r') :
    r'.firstBank = r.firstBank := by
  rcases recv_cases h with ⟨job, queue, -, -, hr'⟩
  rcases hr' with ⟨-, rfl⟩ | ⟨-, -, rfl⟩ | ⟨-, name, -, ⟨-, rfl⟩ | ⟨-, rfl⟩⟩
  · rfl
  · exact dispatch_firstBank ..
  · exact dispatch_firstBank ..
  · rfl

theorem lockBank_firstBank (h : r.lockBank = some r') : r'.firstBank = r.firstBank := by
  rcases lockBank_cases h with ⟨job, -, rfl⟩
  rfl

theorem readFile_firstBank {capacity : ℕ} {res : Option (List UInt8)}
    (h : r.readFile capacity res = some r') : r'.firstBank = r.firstBank := by
  rcases readFile_cases h with ⟨job, f, -, -, ⟨bytes, -, -, rfl⟩ | ⟨-, rfl⟩⟩
  · rfl
  · rfl

/-- A thread that has left its loop takes no step. -/
theorem recv_live {opened : Bool} (h : r.recv opened = some r') :
    r.pc ≠ .exited ∧ r.pc ≠ .panicked := by
  obtain ⟨job, queue, hpc, -⟩ := recv_cases h
  simp [hpc]

theorem lockBank_live (h : r.lockBank = some r') : r.pc ≠ .exited ∧ r.pc ≠ .panicked := by
  obtain ⟨job, hpc, -⟩ := lockBank_cases h
  simp [hpc]

theorem readFile_live {capacity : ℕ} {res : Option (List UInt8)}
    (h : r.readFile capacity res = some r') : r.pc ≠ .exited ∧ r.pc ≠ .panicked := by
  obtain ⟨job, f, hpc, -⟩ := readFile_cases h
  simp [hpc]

theorem sendAck_live (h : r.sendAck = some (job, r')) : r.pc ≠ .exited ∧ r.pc ≠ .panicked := by
  obtain ⟨hpc, -⟩ := sendAck_cases h
  simp [hpc]

/-- Only `recv` takes a message. -/
theorem recv_queue {opened : Bool} (h : r.recv opened = some r') :
    ∃ job, r.queue = job :: r'.queue := by
  obtain ⟨job, queue, -, hqueue, heq⟩ := recv_cases h
  refine ⟨job, ?_⟩
  rw [hqueue]
  obtain ⟨-, rfl⟩ | ⟨-, -, rfl⟩ | ⟨-, name, -, ⟨-, rfl⟩ | ⟨-, rfl⟩⟩ := heq
  · rfl
  · rw [dispatch_queue]
  · rw [dispatch_queue]
  · rfl

theorem lockBank_queue (h : r.lockBank = some r') : r'.queue = r.queue := by
  obtain ⟨job, -, rfl⟩ := lockBank_cases h
  rfl

theorem readFile_queue {capacity : ℕ} {res : Option (List UInt8)}
    (h : r.readFile capacity res = some r') : r'.queue = r.queue := by
  obtain ⟨job, f, -, -, ⟨bytes, -, -, rfl⟩ | ⟨-, rfl⟩⟩ := readFile_cases h
  · rfl
  · rfl

theorem sendAck_queue (h : r.sendAck = some (job, r')) : r'.queue = r.queue := by
  obtain ⟨-, rfl⟩ := sendAck_cases h
  rfl

end Cases

end EceReader

/-! ## The worker -/

namespace EceWorker

/-- What holds of every reader holds when one of them is replaced by another that has it. -/
theorem setReader_forall {w : EceWorker} {P : ℕ → EceReader → Prop} {n j : ℕ} {r : EceReader}
    (hold : ∀ k < n, P k (w.readers k)) (hr : P j (w.readers j) → P j r) :
    ∀ k < n, P k ((w.setReader j r).readers k) := by
  intro k hk
  rw [setReader_readers]
  split
  next heq =>
    subst heq
    exact hr (hold k hk)
  next => exact hold k hk

/-- What a step of each kind says about its two states. -/
theorem step_cases {w w' : EceWorker} {e : Event} (h : w.step e = some w') :
    match e with
    | .work filenames => w.main = .idle ∧ w' = w.work filenames
    | .drop => w.main = .idle ∧ w' = { w with main := .dropSend 0 }
    | .main => w.mainStep = some w'
    | .recv j opened =>
        j < w.nrsReaders ∧ ∃ r, (w.readers j).recv opened = some r ∧ w' = w.setReader j r
    | .lock j =>
        (j < w.nrsReaders ∧ w.mainHolds j (slot (w.readers j).firstBank) = false) ∧
          ∃ r, (w.readers j).lockBank = some r ∧ w' = w.setReader j r
    | .read j res =>
        j < w.nrsReaders ∧ ∃ r, (w.readers j).readFile w.capacity res = some r ∧
          w' = w.setReader j r
    | .ack j =>
        j < w.nrsReaders ∧ ∃ job r, (w.readers j).sendAck = some (job, r) ∧
          w' = { w.setReader j r with listener := w.listener ++ [⟨j, job⟩] } := by
  cases e with
  | work filenames | drop =>
      simp only [step] at h
      split at h
      next hidle => exact ⟨hidle, (Option.some.inj h).symm⟩
      next => cases h
  | main => exact h
  | recv j opened | lock j | read j res =>
      simp only [step] at h
      split at h
      next hj =>
        rcases Option.map_eq_some_iff.mp h with ⟨r, hr, hw'⟩
        exact ⟨hj, r, hr, hw'.symm⟩
      next => cases h
  | ack j =>
      simp only [step] at h
      split at h
      next hj =>
        rcases Option.map_eq_some_iff.mp h with ⟨⟨job, r⟩, hr, hw'⟩
        exact ⟨hj, job, r, hr, hw'.symm⟩
      next => cases h

/-- The steps of the main thread, one constructor for each way through its loops. -/
inductive MainStep (w : EceWorker) : EceWorker → Prop
  | openSend {filename : String} {rest : List String} {i : ℕ}
      (hmain : w.main = .openFiles (filename :: rest) i) (hlt : i < w.nrsReaders) :
      MainStep w
        { w.send i ⟨0, 0, false, some filename⟩ with main := .openFiles rest (i + 1) }
  | openEnd {rest : List String} {i : ℕ} (hmain : w.main = .openFiles rest i)
      (hend : rest = [] ∨ ¬ i < w.nrsReaders) : MainStep w { w with main := .sendWork 0 false }
  | workSend {i : ℕ} {inLoop : Bool} (hmain : w.main = .sendWork i inLoop)
      (hlt : i < w.nrsReaders) :
      MainStep w
        { w.send i ⟨w.offset, w.capacity, false, none⟩ with main := .sendWork (i + 1) inLoop }
  | workEnd {i : ℕ} {inLoop : Bool} (hmain : w.main = .sendWork i inLoop)
      (hend : ¬ i < w.nrsReaders) :
      MainStep w
        { w with
          offset := w.offset + w.capacity
          main := if inLoop then .processWriter 0 false else .waitReaders 0
          len := 0
          acked := if inLoop then w.acked else [] }
  | noReaders {jobDone : ℕ} (hmain : w.main = .waitReaders jobDone) (hnone : w.nrsReaders = 0) :
      MainStep w { w with main := .sendWork 0 true }
  | takeAck {jobDone : ℕ} {ack : Ack} {listener : List Ack} (hmain : w.main = .waitReaders jobDone)
      (hsome : w.nrsReaders ≠ 0) (hlistener : w.listener = ack :: listener) :
      MainStep w
        { w with
          listener := listener
          acked := w.acked ++ [ack]
          main :=
            if jobDone + 1 = w.nrsReaders then .sendWork 0 true else .waitReaders (jobDone + 1) }
  | lockBank {i : ℕ} (hmain : w.main = .processWriter i false) (hlt : i < w.nrsReaders)
      (hfree : (w.readers i).holds (slot w.bankRead) = false) :
      MainStep w { w with main := .processWriter i true }
  | readBank {i : ℕ} (hmain : w.main = .processWriter i true) :
      MainStep w
        { w with
          len := ((w.readers i).banks (slot w.bankRead)).len
          output := w.output ++ [⟨w.calls, w.round, i,
            ((w.readers i).banks (slot w.bankRead)).buffer,
            ((w.readers i).banks (slot w.bankRead)).len,
            println (Utf8.fromUtf8Lossy ((w.readers i).banks (slot w.bankRead)).buffer)⟩]
          main := .processWriter (i + 1) false }
  | endRound {i : ℕ} (hmain : w.main = .processWriter i false) (hend : ¬ i < w.nrsReaders) :
      MainStep w
        { w with
          bankRead := (w.bankRead + 1) &&& 1
          round := w.round + 1
          acked := []
          main := if w.len < w.capacity then .idle else .waitReaders 0 }
  | dropSend {i : ℕ} (hmain : w.main = .dropSend i) (hlt : i < w.nrsReaders) :
      MainStep w { w.send i ⟨0, w.capacity, true, none⟩ with main := .dropSend (i + 1) }
  | dropSent {i : ℕ} (hmain : w.main = .dropSend i) (hend : ¬ i < w.nrsReaders) :
      MainStep w { w with main := .dropJoin 0 }
  | joined {i : ℕ} (hmain : w.main = .dropJoin i) (hlt : i < w.nrsReaders)
      (hpc : (w.readers i).pc = .exited) : MainStep w { w with main := .dropJoin (i + 1) }
  | joinPanicked {i : ℕ} (hmain : w.main = .dropJoin i) (hlt : i < w.nrsReaders)
      (hpc : (w.readers i).pc = .panicked) : MainStep w { w with main := .panicked }
  | dropEnd {i : ℕ} (hmain : w.main = .dropJoin i) (hend : ¬ i < w.nrsReaders) :
      MainStep w { w with main := .dropped }

theorem mainStep_cases {w w' : EceWorker} (h : w.mainStep = some w') : w.MainStep w' := by
  unfold mainStep at h
  split at h
  next filenames i hmain =>
    cases h
    unfold openFiles
    split
    next => exact .openEnd hmain (Or.inl rfl)
    next =>
    split
    next hlt => exact .openSend hmain hlt
    next hend => exact .openEnd hmain (Or.inr hend)
  next i inLoop hmain =>
    cases h
    unfold sendWork
    split
    next hlt => exact .workSend hmain hlt
    next hend => exact .workEnd hmain hend
  next jobDone hmain =>
    unfold waitReaders at h
    split at h
    next hnone =>
      cases h
      exact .noReaders hmain hnone
    next hsome =>
    split at h
    next => cases h
    next ack listener hlistener =>
      cases h
      exact .takeAck hmain hsome hlistener
  next i locked hmain =>
    unfold processWriter at h
    split at h
    next hlocked =>
      cases h
      rw [hlocked] at hmain
      exact .readBank hmain
    next hlocked =>
    rw [Bool.eq_false_iff.mpr hlocked] at hmain
    split at h
    next hlt =>
      split at h
      next => cases h
      next hfree =>
        cases h
        exact .lockBank hmain hlt (Bool.eq_false_iff.mpr hfree)
    next hend =>
      cases h
      exact .endRound hmain hend
  next i hmain =>
    cases h
    unfold dropSend
    split
    next hlt => exact .dropSend hmain hlt
    next hend => exact .dropSent hmain hend
  next i hmain =>
    unfold dropJoin at h
    split at h
    next hlt =>
      split at h
      next hpc =>
        cases h
        exact .joined hmain hlt hpc
      next hpc =>
        cases h
        exact .joinPanicked hmain hlt hpc
      next => cases h
    next hend =>
      cases h
      exact .dropEnd hmain hend
  all_goals cases h

theorem MainStep.mainStep_eq {w w' : EceWorker} (h : w.MainStep w') : w.mainStep = some w' := by
  cases h with
  | openSend hmain hlt => simp [mainStep, openFiles, hmain, hlt]
  | @openEnd rest i hmain hend =>
      cases rest with
      | nil => simp [mainStep, openFiles, hmain]
      | cons filename rest =>
          have hlt : ¬ i < w.nrsReaders := hend.resolve_left (List.cons_ne_nil _ _)
          simp only [mainStep, openFiles, hmain, if_neg hlt]
  | workSend hmain hlt => simp [mainStep, sendWork, hmain, hlt]
  | workEnd hmain hend => simp only [mainStep, sendWork, hmain, if_neg hend]
  | noReaders hmain hnone => simp [mainStep, waitReaders, hmain, hnone]
  | takeAck hmain hsome hlistener => simp [mainStep, waitReaders, hmain, hsome, hlistener]
  | lockBank hmain hlt hfree => simp [mainStep, processWriter, hmain, hlt, hfree]
  | readBank hmain => simp [mainStep, processWriter, hmain]
  | endRound hmain hend =>
      simp only [mainStep, processWriter, hmain, if_neg hend, Bool.false_eq_true, if_false]
  | dropSend hmain hlt => simp [mainStep, EceWorker.dropSend, hmain, hlt]
  | dropSent hmain hend => simp only [mainStep, EceWorker.dropSend, hmain, if_neg hend]
  | joined hmain hlt hpc => simp [mainStep, dropJoin, hmain, hlt, hpc]
  | joinPanicked hmain hlt hpc => simp [mainStep, dropJoin, hmain, hlt, hpc]
  | dropEnd hmain hend => simp only [mainStep, dropJoin, hmain, if_neg hend]

/-- The main thread touches nothing of a reader but its channel. -/
theorem MainStep.readers {w w' : EceWorker} (h : w.MainStep w') (j : ℕ) :
    ∃ queue, w'.readers j = { w.readers j with queue := queue } := by
  have hsend : ∀ i job, ∃ queue,
      (w.send i job).readers j = { w.readers j with queue := queue } := by
    intro i job
    rw [send_readers]
    split
    next => exact ⟨_, rfl⟩
    next => exact ⟨_, rfl⟩
  cases h with
  | openSend | workSend | dropSend => exact hsend ..
  | _ => exact ⟨_, rfl⟩

/-- What a step does to one reader. -/
theorem step_readers {w w' : EceWorker} {e : Event} (h : w.step e = some w') (j : ℕ) :
    (∃ queue, w'.readers j = { w.readers j with queue := queue }) ∨
    (∃ opened, e = .recv j opened ∧ (w.readers j).recv opened = some (w'.readers j)) ∨
    (e = .lock j ∧ (w.readers j).lockBank = some (w'.readers j)) ∨
    (∃ res, e = .read j res ∧ (w.readers j).readFile w.capacity res = some (w'.readers j)) ∨
    ∃ job, e = .ack j ∧ (w.readers j).sendAck = some (job, w'.readers j) := by
  have hother : ∀ {k r}, j ≠ k → (w.setReader k r).readers j = w.readers j := fun hne ↦ by
    rw [setReader_readers, if_neg hne]
  have hself : ∀ {r}, (w.setReader j r).readers j = r := fun {r} ↦ by
    rw [setReader_readers, if_pos rfl]
  have hcases := step_cases h
  cases e with
  | work filenames | drop =>
      rw [hcases.2]
      exact Or.inl ⟨_, rfl⟩
  | main => exact Or.inl ((mainStep_cases hcases).readers j)
  | recv k opened =>
      rcases hcases with ⟨-, r, hr, rfl⟩
      by_cases hjk : j = k
      · subst hjk
        rw [hself]
        exact Or.inr (Or.inl ⟨opened, rfl, hr⟩)
      · exact Or.inl ⟨_, hother hjk⟩
  | lock k =>
      rcases hcases with ⟨-, r, hr, rfl⟩
      by_cases hjk : j = k
      · subst hjk
        rw [hself]
        exact Or.inr (Or.inr (Or.inl ⟨rfl, hr⟩))
      · exact Or.inl ⟨_, hother hjk⟩
  | read k res =>
      rcases hcases with ⟨-, r, hr, rfl⟩
      by_cases hjk : j = k
      · subst hjk
        rw [hself]
        exact Or.inr (Or.inr (Or.inr (Or.inl ⟨res, rfl, hr⟩)))
      · exact Or.inl ⟨_, hother hjk⟩
  | ack k =>
      rcases hcases with ⟨-, job, r, hr, rfl⟩
      by_cases hjk : j = k
      · subst hjk
        refine Or.inr (Or.inr (Or.inr (Or.inr ⟨job, rfl, ?_⟩)))
        show _ = some (job, (w.setReader j r).readers j)
        rw [hself]
        exact hr
      · exact Or.inl ⟨_, hother hjk⟩

/-- A reader keeps its file, opens one, or reads from it. -/
theorem step_file {w w' : EceWorker} {e : Event} (h : w.step e = some w') {j : ℕ} {f : EceFile}
    (hf : (w'.readers j).file = some f) :
    (w.readers j).file = some f ∨ f.reads = [] ∨
      ∃ res f₀, e = .read j res ∧ (w.readers j).file = some f₀ ∧
        f = { f₀ with reads := f₀.reads ++ [res] } := by
  obtain ⟨queue, heq⟩ | ⟨opened, -, hrecv⟩ | ⟨-, hlock⟩ | ⟨res, he, hread⟩ | ⟨job, -, hack⟩ :=
    step_readers h j
  · rw [heq] at hf
    exact Or.inl hf
  · obtain ⟨job, queue, -, -, heq⟩ := EceReader.recv_cases hrecv
    obtain ⟨-, heq⟩ | ⟨-, -, heq⟩ | ⟨-, name, -, ⟨-, heq⟩ | ⟨-, heq⟩⟩ := heq <;> rw [heq] at hf
    · exact Or.inl hf
    · rw [EceReader.dispatch_file] at hf
      exact Or.inl hf
    · -- a file just opened has no reads
      rw [EceReader.dispatch_file] at hf
      cases hf
      exact Or.inr (Or.inl rfl)
    · exact Or.inl hf
  · obtain ⟨job, -, heq⟩ := EceReader.lockBank_cases hlock
    rw [heq] at hf
    exact Or.inl hf
  · obtain ⟨job, f₀, -, hfile, heq⟩ := EceReader.readFile_cases hread
    refine Or.inr (Or.inr ⟨res, f₀, he, hfile, ?_⟩)
    obtain ⟨bytes, -, -, heq⟩ | ⟨-, heq⟩ := heq
    all_goals
      rw [heq] at hf
      exact (Option.some.inj hf).symm
  · obtain ⟨-, heq⟩ := EceReader.sendAck_cases hack
    rw [heq] at hf
    exact Or.inl hf

/-- Only a read changes the banks of a reader. -/
theorem step_banks {w w' : EceWorker} {e : Event} (h : w.step e = some w') (j : ℕ) :
    (w'.readers j).banks = (w.readers j).banks ∨
      ∃ res, (w.readers j).readFile w.capacity res = some (w'.readers j) := by
  obtain ⟨queue, heq⟩ | ⟨opened, -, hrecv⟩ | ⟨-, hlock⟩ | ⟨res, -, hread⟩ | ⟨job, -, hack⟩ :=
    step_readers h j
  · exact Or.inl (by rw [heq])
  · obtain ⟨job, queue, -, -, heq⟩ := EceReader.recv_cases hrecv
    left
    obtain ⟨-, heq⟩ | ⟨-, -, heq⟩ | ⟨-, name, -, ⟨-, heq⟩ | ⟨-, heq⟩⟩ := heq <;> rw [heq]
    · rw [EceReader.dispatch_banks]
    · rw [EceReader.dispatch_banks]
  · obtain ⟨job, -, heq⟩ := EceReader.lockBank_cases hlock
    exact Or.inl (by rw [heq])
  · exact Or.inr ⟨res, hread⟩
  · obtain ⟨-, heq⟩ := EceReader.sendAck_cases hack
    exact Or.inl (by rw [heq])

theorem step_nrsReaders {w w' : EceWorker} {e : Event} (h : w.step e = some w') :
    w'.nrsReaders = w.nrsReaders ∧ w'.capacity = w.capacity := by
  have hcases := step_cases h
  cases e with
  | work filenames | drop =>
      rw [hcases.2]
      exact ⟨rfl, rfl⟩
  | main => cases mainStep_cases hcases <;> exact ⟨rfl, rfl⟩
  | recv j opened | lock j | read j res =>
      rcases hcases with ⟨-, r, -, rfl⟩
      exact ⟨rfl, rfl⟩
  | ack j =>
      rcases hcases with ⟨-, job, r, -, rfl⟩
      exact ⟨rfl, rfl⟩

theorem run_nrsReaders {allow : EceWorker → Event → Prop} {w w' : EceWorker}
    (hrun : Guarded step allow w w') : w'.nrsReaders = w.nrsReaders ∧ w'.capacity = w.capacity := by
  apply hrun.invariant (I := fun w' ↦ w'.nrsReaders = w.nrsReaders ∧ w'.capacity = w.capacity)
    ⟨rfl, rfl⟩
  intro t e u ht _ hstep
  rcases step_nrsReaders hstep with ⟨hnrs, hcapacity⟩
  exact ⟨hnrs.trans ht.1, hcapacity.trans ht.2⟩

end EceWorker

end Divers.DoubleBuffering
