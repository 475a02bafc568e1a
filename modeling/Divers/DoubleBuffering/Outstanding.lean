import Divers.DoubleBuffering.Stuck

/-! What call after call of `work` leaves behind: the last `send_work` of a call is not followed by
a `wait_readers`. -/

open Divers.Library

namespace Divers.DoubleBuffering

namespace EceWorker

variable {w w' : EceWorker} {e : Event} {nr capacity sends waits i j : ℕ} {r : EceReader}

/-- The read jobs that no `wait_readers` has accounted for: acknowledged or not. -/
def outstanding (w : EceWorker) : ℕ :=
  w.listener.length + ∑ j ∈ Finset.range w.nrsReaders, (w.readers j).unfinished

/-- Those of the call under way. -/
def current (w : EceWorker) : ℕ :=
  match w.main with
  | .sendWork i _ => min i w.nrsReaders
  | .waitReaders jobDone => w.nrsReaders - jobDone
  | .processWriter _ _ => w.nrsReaders
  | _ => 0

/-- The calls of `work` that have come to their end. -/
def returned (w : EceWorker) : ℕ := if w.main = .idle then w.calls else w.calls - 1

/-! ## One reader -/

theorem outstanding_setReader (hsame : r.unfinished = (w.readers j).unfinished) :
    (w.setReader j r).outstanding = w.outstanding := by
  unfold outstanding
  congr 1
  refine Finset.sum_congr rfl fun k _ ↦ ?_
  rw [setReader_readers]
  split
  next heq => rw [hsame, heq]
  next => rfl

/-- A sum over the readers in which one reader has changed. -/
theorem sum_unfinished_setReader (hj : j < w.nrsReaders) :
    ∑ k ∈ Finset.range w.nrsReaders, ((w.setReader j r).readers k).unfinished +
        (w.readers j).unfinished =
      ∑ k ∈ Finset.range w.nrsReaders, (w.readers k).unfinished + r.unfinished := by
  have hsum := sum_range_change (f := fun k ↦ (w.readers k).unfinished)
    (g := fun k ↦ ((w.setReader j r).readers k).unfinished) hj fun k hk ↦ by
      simp only [setReader_readers, if_neg hk]
  rw [hsum, setReader_readers, if_pos rfl]

theorem unfinished_send (r : EceReader) (job : EceJob) :
    EceReader.unfinished { r with queue := r.queue ++ [job] } =
      r.unfinished + if job.filename = none then 1 else 0 := by
  have hpromised := EceReader.promised_send r job
  unfold EceReader.promised at hpromised
  dsimp only at hpromised
  omega

theorem outstanding_send (hi : i < w.nrsReaders) (job : EceJob) :
    (w.send i job).outstanding = w.outstanding + if job.filename = none then 1 else 0 := by
  have hsum := sum_unfinished_setReader (r := { w.readers i with
    queue := (w.readers i).queue ++ [job] }) hi
  rw [unfinished_send] at hsum
  unfold outstanding
  show w.listener.length + ∑ k ∈ Finset.range w.nrsReaders, ((w.setReader i _).readers k).unfinished
    = _
  omega

/-- An acknowledgement goes from the reader to the channel. -/
theorem outstanding_ack (hj : j < w.nrsReaders) {job : EceJob}
    (hack : (w.readers j).sendAck = some (job, r)) :
    outstanding { w.setReader j r with listener := w.listener ++ [⟨j, job⟩] } = w.outstanding := by
  obtain ⟨hpromised, hfirst⟩ := EceReader.sendAck_promised hack
  have hsum := sum_unfinished_setReader (r := r) hj
  unfold EceReader.promised at hpromised
  unfold outstanding
  show (w.listener ++ [(⟨j, job⟩ : Ack)]).length +
    ∑ k ∈ Finset.range w.nrsReaders, ((w.setReader j r).readers k).unfinished = _
  rw [List.length_append, List.length_singleton]
  omega

/-! ## One step -/

/-- The read jobs that are left over from the calls that have come to their end, and the rest. -/
structure LeftOver (w : EceWorker) : Prop where
  called : 0 < w.calls
  outstanding : w.outstanding = w.nrsReaders * w.returned + w.current

namespace LeftOver

theorem work {filenames : List String} :
    LeftOver ((EceWorker.new nr capacity).work filenames) where
  called := Nat.one_pos
  outstanding := by
    show 0 + ∑ _j ∈ Finset.range nr, 0 = nr * 0 + 0
    rw [sum_range_const fun _ _ ↦ rfl, Nat.zero_add, Nat.add_zero]

/-- A step that leaves the main thread where it is. -/
theorem of_main_eq (h : LeftOver w) (hmain : w'.main = w.main) (hcalls : w'.calls = w.calls)
    (hnrs : w'.nrsReaders = w.nrsReaders) (hsame : w'.outstanding = w.outstanding) :
    LeftOver w' := by
  refine ⟨hcalls ▸ h.called, ?_⟩
  rw [hsame, h.outstanding]
  simp only [returned, current, hmain, hcalls, hnrs]

theorem mainStep (h : LeftOver w) (hcounted : Counted sends waits w) (hstep : w.MainStep w') :
    LeftOver w' := by
  have hcalled := h.called
  have hout := h.outstanding
  have hphase := hcounted.active.main
  cases hstep with
  | @openSend filename rest i hmain hlt =>
      refine ⟨hcalled, ?_⟩
      have hsend := outstanding_send hlt ⟨0, 0, false, some filename⟩
      simp only [returned, current, hmain, reduceCtorEq, if_false] at hout ⊢
      exact hsend.trans hout
  | @openEnd rest i hmain =>
      refine ⟨hcalled, ?_⟩
      simp only [returned, current, hmain, reduceCtorEq, if_false, Nat.zero_min] at hout ⊢
      exact hout
  | @workSend i inLoop hmain hlt =>
      refine ⟨hcalled, ?_⟩
      have hsend := outstanding_send hlt ⟨w.offset, w.capacity, false, none⟩
      simp only [returned, current, hmain, reduceCtorEq, if_false, if_true] at hout hsend ⊢
      refine hsend.trans ?_
      show _ = w.nrsReaders * (w.calls - 1) + min (i + 1) w.nrsReaders
      omega
  | @workEnd i inLoop hmain hend =>
      refine ⟨hcalled, ?_⟩
      have hall : min i w.nrsReaders = w.nrsReaders := Nat.min_eq_right (Nat.le_of_not_lt hend)
      cases inLoop <;>
        simp only [returned, current, hmain, hall, reduceCtorEq, if_false, if_true] at hout ⊢
      · exact hout
      · exact hout
  | noReaders hmain hnone =>
      have := hcounted.nrsReaders
      omega
  | @takeAck jobDone ack listener hmain hsome hlistener =>
      refine ⟨hcalled, ?_⟩
      have hlt := hcounted.waiting jobDone hmain
      simp only [EceWorker.outstanding, returned, current, hmain, hlistener, reduceCtorEq, if_false,
        List.length_cons] at hout ⊢
      -- the last acknowledgement ends the loop
      by_cases hlast : jobDone + 1 = w.nrsReaders
      · simp only [if_pos hlast, reduceCtorEq, if_false, Nat.zero_min]
        omega
      · simp only [if_neg hlast, reduceCtorEq, if_false]
        omega
  | lockBank hmain | readBank hmain =>
      refine ⟨hcalled, ?_⟩
      simp only [returned, current, hmain, reduceCtorEq, if_false] at hout ⊢
      exact hout
  | @endRound i hmain hend =>
      refine ⟨hcalled, ?_⟩
      simp only [returned, current, hmain, reduceCtorEq, if_false] at hout ⊢
      by_cases hlen : w.len < w.capacity
      · -- the call returns without waiting for the jobs of its last `send_work`
        have hmul : w.nrsReaders * w.calls = w.nrsReaders * (w.calls - 1) + w.nrsReaders := by
          rw [← Nat.mul_succ, Nat.succ_eq_add_one, Nat.sub_add_cancel hcalled]
        simp only [if_pos hlen, if_true]
        rw [hmul]
        exact hout
      · simp only [if_neg hlen, reduceCtorEq, if_false]
        exact hout
  | dropSend hmain | dropSent hmain | joined hmain | joinPanicked hmain | dropEnd hmain =>
      rw [hmain] at hphase
      cases hphase

/-- With a file for every reader no read job is dropped. -/
theorem recv_unfinished (hcounted : Counted sends waits w) (hj : j < w.nrsReaders)
    (hrecv : (w.readers j).recv true = some r) : r.unfinished = (w.readers j).unfinished := by
  have hopen : (w.readers j).file = none →
      ∃ job queue, (w.readers j).queue = job :: queue ∧ job.filename ≠ none := by
    intro hnone
    obtain ⟨job, queue, -, hqueue, -⟩ := EceReader.recv_cases hrecv
    refine (hcounted.openFirst j hj hnone).resolve_right fun hempty ↦ ?_
    rw [hempty.1] at hqueue
    cases hqueue
  have hpromised :=
    ((hcounted.active.readers j hj).recv_promised hrecv).2 hcounted.capacity hopen
  have hfirst := EceReader.recv_firstBank hrecv
  unfold EceReader.promised at hpromised
  omega

theorem step (h : LeftOver w) (hcounted : Counted sends waits w) (hallow : w.FilesOpen e)
    (hstep : w.step e = some w') : LeftOver w' := by
  have hcases := step_cases hstep
  cases e with
  | work filenames =>
      obtain ⟨hmain, rfl⟩ := hcases
      refine ⟨Nat.succ_pos _, ?_⟩
      have hout := h.outstanding
      simp only [returned, current, hmain, if_true] at hout
      exact hout
  | drop => exact hallow.elim
  | main => exact h.mainStep hcounted (mainStep_cases hcases)
  | recv j opened =>
      cases hallow
      obtain ⟨hj, r, hr, rfl⟩ := hcases
      exact h.of_main_eq rfl rfl rfl (outstanding_setReader (recv_unfinished hcounted hj hr))
  | lock j =>
      obtain ⟨-, r, hr, rfl⟩ := hcases
      have hpromised := EceReader.lockBank_promised hr
      have hfirst := EceReader.lockBank_firstBank hr
      unfold EceReader.promised at hpromised
      exact h.of_main_eq rfl rfl rfl (outstanding_setReader (by omega))
  | read j res =>
      obtain ⟨-, r, hr, rfl⟩ := hcases
      have hpromised := EceReader.readFile_promised hr
      have hfirst := EceReader.readFile_firstBank hr
      unfold EceReader.promised at hpromised
      exact h.of_main_eq rfl rfl rfl (outstanding_setReader (by omega))
  | ack j =>
      obtain ⟨hj, job, r, hr, rfl⟩ := hcases
      exact h.of_main_eq rfl rfl rfl (outstanding_ack hj hr)

end LeftOver

/-! ## Runs -/

/-- However often `work` is called, each call that has returned has left one read job for every
reader that no `wait_readers` has accounted for, and every reader has been sent as many read jobs as
the others. -/
theorem work_run_outstanding {filenames : List String} (hnr : 0 < nr) (hcapacity : 0 < capacity)
    (henough : nr ≤ filenames.length)
    (hrun : Guarded step FilesOpen ((EceWorker.new nr capacity).work filenames) w) :
    w.listener.length + ∑ j ∈ Finset.range nr, (w.readers j).unfinished =
        nr * w.returned + w.current ∧
      ∃ sent, ∀ j < nr,
        (w.readers j).firstBank + (w.readers j).unfinished = sent + w.sending j := by
  have hinvariant : (∃ sends waits, Counted sends waits w) ∧ LeftOver w := by
    apply hrun.invariant (I := fun w ↦ (∃ sends waits, Counted sends waits w) ∧ LeftOver w)
      ⟨⟨0, 0, Counted.work hnr hcapacity henough⟩, LeftOver.work⟩
    intro w e w' hinv hallow hstep
    obtain ⟨⟨sends, waits, hcounted⟩, h⟩ := hinv
    exact ⟨hcounted.step hallow hstep, h.step hcounted hallow hstep⟩
  obtain ⟨⟨sends, waits, hcounted⟩, h⟩ := hinvariant
  have hsize := (run_nrsReaders hrun).1
  subst hsize
  exact ⟨h.outstanding, sends, hcounted.promised⟩

/-- Two calls that have returned, on one reader: two jobs are left over. -/
theorem work_run_outstanding_twice :
    ∃ w, Guarded step FilesOpen ((EceWorker.new 1 1).work ["a"]) w ∧ w.main = .idle ∧
      w.calls = 2 ∧ w.listener.length + (w.readers 0).unfinished = 2 := by
  have hcalls : ∃ w, exec step FilesOpen ((EceWorker.new 1 1).work ["a"])
      [.main, .main, .main, .main, .recv 0 true, .recv 0 true, .lock 0, .read 0 (some []), .ack 0,
        .main, .main, .main, .main, .main, .main, .work ["b"], .main, .main, .main, .main,
        .recv 0 true, .lock 0, .read 0 (some []), .ack 0, .main, .main, .main, .main, .main,
        .main] = some w ∧ w.main = .idle ∧ w.calls = 2 := ⟨_, rfl, rfl, rfl⟩
  obtain ⟨w, hexec, hmain, hcalls⟩ := hcalls
  have hrun := Guarded.of_exec hexec
  have hout := (work_run_outstanding (by decide) (by decide) (by decide) hrun).1
  refine ⟨w, hrun, hmain, hcalls, ?_⟩
  simpa [returned, current, hmain, hcalls] using hout

end EceWorker

end Divers.DoubleBuffering
