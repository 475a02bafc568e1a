import Divers.DoubleBuffering.FirstCall

/-! The first call of `work` keeps the threads apart: no reader has a job for the bank that the
main thread processes, and a round takes one acknowledgement of that round from every reader. -/

open Divers.Library

namespace Divers.DoubleBuffering

namespace EceWorker

namespace FirstCall

variable {filenames : List String} {w w' : EceWorker} {nr capacity i j : ℕ}

theorem sent_le (w : EceWorker) (j : ℕ) : w.sent j ≤ w.ackRound + 1 := by
  unfold sent
  split
  · omega
  · split <;> omega
  · omega

/-- A reader has acknowledged at most once since the last round. -/
theorem one_ack (h : FirstCall filenames w) (hj : j < w.nrsReaders) :
    w.taken j + (w.listener.map Ack.reader).count j ≤ 1 := by
  rcases h.follows j hj with ⟨name, -, hfollows⟩
  -- acknowledged jobs were sent, and no reader is sent two jobs in a round
  have := hfollows.le_sent
  have := sent_le w j
  have := h.firstBank j hj
  omega

theorem listener_length (h : FirstCall filenames w) : w.listener.length ≤ w.nrsReaders := by
  have hsubperm : (w.listener.map Ack.reader).Subperm (List.range w.nrsReaders) := by
    apply subperm_range_of_count_le_one
    · intro j hj
      rcases List.mem_map.mp hj with ⟨a, ha, rfl⟩
      exact (h.listener a ha).1
    · intro j hj
      have := h.one_ack hj
      omega
  simpa using hsubperm.length_le

theorem unfinished_le (h : FirstCall filenames w) (hj : j < w.nrsReaders) :
    (w.readers j).unfinished ≤ 1 := by
  rcases h.follows j hj with ⟨name, -, hfollows⟩
  rw [hfollows.unfinished_eq]
  have := hfollows.sent_le
  omega

/-- During `process_writer` every reader is one round ahead, or has nothing to do. -/
theorem other_bank (h : FirstCall filenames w) {locked : Bool}
    (hmain : w.main = .processWriter i locked) (hj : j < w.nrsReaders)
    (hbusy : (w.readers j).Busy) : (w.readers j).firstBank = w.round + 1 := by
  rcases h.follows j hj with ⟨name, -, hfollows⟩
  have hfirst := h.firstBank j hj
  have hle := hfollows.le_sent
  -- a busy reader has not acknowledged its last job
  have hne : (w.readers j).firstBank ≠ w.sent j := by
    intro heq
    apply hfollows.not_busy _ heq hbusy
    rw [hfirst]
    unfold ackRound
    rw [hmain]
    dsimp only
    omega
  simp only [sent, ackRound, hmain] at hfirst hle hne
  omega

end FirstCall

/-! ## Runs -/

theorem new_step {nr capacity : ℕ} {w' : EceWorker} {e : Event}
    (hallow : (EceWorker.new nr capacity).OneCall e)
    (hstep : (EceWorker.new nr capacity).step e = some w') :
    ∃ filenames, e = .work filenames ∧ nr ≤ filenames.length ∧
      w' = (EceWorker.new nr capacity).work filenames := by
  have hcases := step_cases hstep
  cases e with
  | work filenames => exact ⟨filenames, rfl, hallow.2, hcases.2⟩
  | drop => exact hallow.elim
  | main => cases hcases
  | recv j opened =>
      rcases hcases with ⟨-, r, hr, -⟩
      cases hr
  | lock j =>
      rcases hcases with ⟨-, r, hr, -⟩
      cases hr
  | read j res =>
      rcases hcases with ⟨-, r, hr, -⟩
      cases hr
  | ack j =>
      rcases hcases with ⟨-, job, r, hr, -⟩
      cases hr

theorem run_firstCall {nr capacity : ℕ} {w : EceWorker} (hnr : 0 < nr) (hcapacity : 0 < capacity)
    (hrun : Guarded step OneCall (EceWorker.new nr capacity) w) :
    w = EceWorker.new nr capacity ∨ ∃ filenames, FirstCall filenames w := by
  apply hrun.invariant (I := fun w ↦ w = EceWorker.new nr capacity ∨ ∃ filenames,
    FirstCall filenames w) (Or.inl rfl)
  intro w e w' hinv hallow hstep
  obtain rfl | ⟨filenames, h⟩ := hinv
  · rcases new_step hallow hstep with ⟨filenames, -, henough, rfl⟩
    exact Or.inr ⟨filenames, FirstCall.work hnr hcapacity henough⟩
  · exact Or.inr ⟨filenames, h.step hallow hstep⟩

/-- One call of `work` on a fresh worker. -/
theorem work_run_exclusive {nr capacity : ℕ} {w : EceWorker} (hnr : 0 < nr)
    (hcapacity : 0 < capacity) (hrun : Guarded step OneCall (EceWorker.new nr capacity) w) :
    (∀ i locked, w.main = .processWriter i locked →
      w.bankRead = slot w.round ∧
      ∀ j < nr, (w.readers j).Busy → slot (w.readers j).firstBank ≠ slot w.bankRead) ∧
    (∀ a ∈ w.acked, a.job.offset = w.round * capacity) ∧
    (∀ i, w.main = .sendWork i true → (w.acked.map Ack.reader).Perm (List.range nr)) ∧
    w.listener.length ≤ nr ∧
    ∀ j < nr, (w.readers j).unfinished ≤ 1 := by
  have hsize : w.nrsReaders = nr ∧ w.capacity = capacity := run_nrsReaders hrun
  rcases hsize with ⟨rfl, rfl⟩
  rcases run_firstCall hnr hcapacity hrun with hnew | ⟨filenames, h⟩
  · rw [hnew]
    refine ⟨fun _ _ hmain ↦ (by cases hmain), fun _ ha ↦ absurd ha List.not_mem_nil,
      fun _ hmain ↦ (by cases hmain), Nat.zero_le _, fun _ _ ↦ Nat.zero_le _⟩
  · refine ⟨fun i locked hmain ↦ ⟨h.bankRead, fun j hj hbusy ↦ ?_⟩, fun a ha ↦ (h.acked a ha).2,
      fun i hmain ↦ ?_, h.listener_length, fun j hj ↦ h.unfinished_le hj⟩
    · rw [h.other_bank hmain hj hbusy, h.bankRead, slot_eq, slot_eq, slot_eq]
      omega
    · have hphase := h.main
      rw [hmain] at hphase
      exact hphase.2.2

/-- The main thread holds one bank while the reader reads into the other one. -/
theorem work_run_exclusive_reading :
    ∃ w, Guarded step OneCall (EceWorker.new 1 2) w ∧ w.main = .processWriter 0 true ∧
      (w.readers 0).Busy ∧ slot (w.readers 0).firstBank ≠ slot w.bankRead := by
  have hround : ∃ w, exec step OneCall (EceWorker.new 1 2)
      [.work ["a"], .main, .main, .main, .main, .recv 0 true, .recv 0 true, .lock 0,
        .read 0 (some [7]), .ack 0, .main, .main, .main, .main, .recv 0 true, .lock 0] = some w ∧
      w.main = .processWriter 0 true ∧ (w.readers 0).pc = .read (⟨2, 2, false, none⟩) :=
    ⟨_, rfl, rfl, rfl⟩
  rcases hround with ⟨w, hexec, hmain, hpc⟩
  have hrun := Guarded.of_exec hexec
  have hbusy : (w.readers 0).Busy := Or.inl (by simp [hpc])
  exact ⟨w, hrun, hmain, hbusy, ((work_run_exclusive (by decide) (by decide) hrun).1 0 true hmain).2
    0 (by decide) hbusy⟩

end EceWorker

end Divers.DoubleBuffering
