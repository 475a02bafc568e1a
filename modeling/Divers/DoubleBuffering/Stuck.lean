import Divers.DoubleBuffering.Measure
import Divers.DoubleBuffering.Progress

/-! When the main thread can wait for ever: the acknowledgements that the readers owe it, against
those it expects. -/

open Divers.Library

namespace Divers.DoubleBuffering

namespace EceWorker

variable {w w' : EceWorker} {e : Event} {nr capacity sends waits i j : ℕ}

/-! ## Acknowledgements in total -/

theorem sum_firstBank_setReader {n : ℕ} {r : EceReader}
    (hfirst : r.firstBank = (w.readers j).firstBank) :
    ∑ k ∈ Finset.range n, ((w.setReader j r).readers k).firstBank =
      ∑ k ∈ Finset.range n, (w.readers k).firstBank := by
  refine Finset.sum_congr rfl fun k _ ↦ ?_
  rw [setReader_readers]
  split
  next heq => rw [hfirst, heq]
  next => rfl

theorem sum_firstBank_send (w : EceWorker) (i n : ℕ) (job : EceJob) :
    ∑ k ∈ Finset.range n, ((w.send i job).readers k).firstBank =
      ∑ k ∈ Finset.range n, (w.readers k).firstBank :=
  sum_firstBank_setReader rfl

theorem sum_firstBank_ack {n : ℕ} {r : EceReader} (hj : j < n)
    (hfirst : r.firstBank = (w.readers j).firstBank + 1) :
    ∑ k ∈ Finset.range n, ((w.setReader j r).readers k).firstBank =
      ∑ k ∈ Finset.range n, (w.readers k).firstBank + 1 := by
  have hsum := sum_range_change (f := fun k ↦ (w.readers k).firstBank)
    (g := fun k ↦ ((w.setReader j r).readers k).firstBank) hj fun k hk ↦ by
      simp only [setReader_readers, if_neg hk]
  have hself : ((w.setReader j r).readers j).firstBank = (w.readers j).firstBank + 1 := by
    rw [setReader_readers, if_pos rfl, hfirst]
  rw [hself] at hsum
  omega

/-! ## Enough files -/

/-- The read jobs of an unfinished `send_work`. -/
def sending (w : EceWorker) (j : ℕ) : ℕ :=
  match w.main with
  | .sendWork i _ => if j < i then 1 else 0
  | _ => 0

/-- The acknowledgements taken by an unfinished `wait_readers`. -/
def jobDone (w : EceWorker) : ℕ :=
  match w.main with
  | .waitReaders jobDone => jobDone
  | _ => 0

/-- How far `send_work` is ahead of `wait_readers`. -/
def ahead (w : EceWorker) : ℕ :=
  match w.main with
  | .waitReaders _ | .processWriter _ _ => 1
  | _ => 0

/-- After `sends` completed calls of `send_work` and `waits` of `wait_readers`. -/
structure Counted (sends waits : ℕ) (w : EceWorker) : Prop where
  nrsReaders : 0 < w.nrsReaders
  capacity : 0 < w.capacity
  active : w.Active
  openFirst : ∀ j < w.nrsReaders, (w.readers j).file = none →
    (∃ job queue, (w.readers j).queue = job :: queue ∧ job.filename ≠ none) ∨
    (w.readers j).queue = [] ∧ ∃ filenames i, w.main = .openFiles filenames i ∧ i ≤ j ∧
      w.nrsReaders ≤ i + filenames.length
  promised : ∀ j < w.nrsReaders, (w.readers j).promised = sends + w.sending j
  total : ∑ j ∈ Finset.range w.nrsReaders, (w.readers j).firstBank =
    w.listener.length + w.nrsReaders * waits + w.jobDone
  ahead : waits + w.ahead ≤ sends
  waiting : ∀ jobDone, w.main = .waitReaders jobDone → jobDone < w.nrsReaders

namespace Counted

theorem work {filenames : List String} (hnr : 0 < nr) (hcapacity : 0 < capacity)
    (henough : nr ≤ filenames.length) :
    Counted 0 0 ((EceWorker.new nr capacity).work filenames) where
  nrsReaders := hnr
  capacity := hcapacity
  active := ⟨fun _ _ ↦ EceReader.Running.new capacity, rfl⟩
  openFirst j hj _ :=
    Or.inr ⟨rfl, filenames, 0, rfl, Nat.zero_le j, by rw [Nat.zero_add]; exact henough⟩
  promised j _ := rfl
  total := sum_range_const (fun _ _ ↦ rfl)
  ahead := Nat.le_refl 0
  waiting _ h := by cases h

/-- The main thread expects fewer acknowledgements than the readers owe. -/
theorem not_stuck (h : Counted sends waits w) : ¬ w.Stuck := by
  intro hstuck
  rcases hstuck.main with ⟨jobDone, hmain⟩
  have hlt := h.waiting jobDone hmain
  have hahead := h.ahead
  have htotal := h.total
  -- a reader with nothing to do has acknowledged every job it was sent
  have hfirst : ∀ j < w.nrsReaders, (w.readers j).firstBank = sends := by
    intro j hj
    have hpromised := h.promised j hj
    unfold sending at hpromised
    rw [hmain] at hpromised
    unfold EceReader.promised EceReader.unfinished at hpromised
    rw [hstuck.queues j hj, hstuck.idle j hj] at hpromised
    exact hpromised
  rw [sum_range_const hfirst, hstuck.listener] at htotal
  simp only [EceWorker.ahead, EceWorker.jobDone, hmain, List.length_nil, Nat.zero_add]
    at hahead htotal
  -- as many acknowledgements from each reader as `send_work` calls, which are one ahead
  have := Nat.mul_le_mul_left w.nrsReaders hahead
  rw [Nat.mul_add, Nat.mul_one] at this
  omega

/-- A step of reader `j` that opens a file, or leaves the queue alone as long as it has none. -/
theorem openFirst_setReader (h : Counted sends waits w) {r : EceReader}
    (hfile : r.file = none → (w.readers j).file = none ∧ r.queue = (w.readers j).queue) :
    ∀ k < w.nrsReaders, ((w.setReader j r).readers k).file = none →
      (∃ job queue, ((w.setReader j r).readers k).queue = job :: queue ∧ job.filename ≠ none) ∨
      ((w.setReader j r).readers k).queue = [] ∧ ∃ filenames i, w.main = .openFiles filenames i ∧
        i ≤ k ∧ w.nrsReaders ≤ i + filenames.length := by
  apply setReader_forall (P := fun k r ↦ r.file = none →
    (∃ job queue, r.queue = job :: queue ∧ job.filename ≠ none) ∨
    r.queue = [] ∧ ∃ filenames i, w.main = .openFiles filenames i ∧ i ≤ k ∧
      w.nrsReaders ≤ i + filenames.length) h.openFirst
  intro hold hnone
  rcases hfile hnone with ⟨hnone, hqueue⟩
  rw [hqueue]
  exact hold hnone

theorem promised_setReader (h : Counted sends waits w) {r : EceReader}
    (hpromised : r.promised = (w.readers j).promised) :
    ∀ k < w.nrsReaders, ((w.setReader j r).readers k).promised = sends + w.sending k :=
  setReader_forall (P := fun k r ↦ r.promised = sends + w.sending k) h.promised
    fun hold ↦ hpromised.trans hold

theorem setReader (h : Counted sends waits w) {r : EceReader}
    (hrunning : (w.readers j).Running w.capacity → r.Running w.capacity)
    (hfile : r.file = none → (w.readers j).file = none ∧ r.queue = (w.readers j).queue)
    (hpromised : r.promised = (w.readers j).promised)
    (hfirst : r.firstBank = (w.readers j).firstBank) :
    Counted sends waits (w.setReader j r) where
  nrsReaders := h.nrsReaders
  capacity := h.capacity
  active := h.active.setReader hrunning
  openFirst := h.openFirst_setReader hfile
  promised := h.promised_setReader hpromised
  total := (sum_firstBank_setReader hfirst).trans h.total
  ahead := h.ahead
  waiting := h.waiting

theorem ack (h : Counted sends waits w) (hj : j < w.nrsReaders) {job : EceJob} {r : EceReader}
    (hack : (w.readers j).sendAck = some (job, r)) :
    Counted sends waits { w.setReader j r with listener := w.listener ++ [⟨j, job⟩] } := by
  rcases EceReader.sendAck_promised hack with ⟨hpromised, hfirst⟩
  have hfile : r.file = none → (w.readers j).file = none ∧ r.queue = (w.readers j).queue := by
    rcases EceReader.sendAck_cases hack with ⟨-, rfl⟩
    exact fun hnone ↦ ⟨hnone, rfl⟩
  have hactive := h.active.setReader fun hold ↦ hold.sendAck hack
  refine ⟨h.nrsReaders, h.capacity, ⟨hactive.readers, hactive.main⟩, h.openFirst_setReader hfile,
    h.promised_setReader hpromised, ?_, h.ahead, h.waiting⟩
  show ∑ k ∈ Finset.range w.nrsReaders, ((w.setReader j r).readers k).firstBank =
    (w.listener ++ [(⟨j, job⟩ : Ack)]).length + w.nrsReaders * waits + w.jobDone
  rw [sum_firstBank_ack hj hfirst, h.total, List.length_append, List.length_singleton]
  omega

/-! ### The main thread -/

/-- A step of the main thread that sends nothing. -/
theorem of_main (h : Counted sends waits w) {sends' waits' : ℕ} (hstep : w.MainStep w')
    (hreaders : w'.readers = w.readers) (hnrs : w'.nrsReaders = w.nrsReaders)
    (hcapacity : w'.capacity = w.capacity)
    (hopen : ∀ filenames i, w.main = .openFiles filenames i →
      w.nrsReaders ≤ i + filenames.length → w.nrsReaders ≤ i)
    (hsent : ∀ j < w.nrsReaders, sends + w.sending j = sends' + w'.sending j)
    (htotal : w.listener.length + w.nrsReaders * waits + w.jobDone =
      w'.listener.length + w.nrsReaders * waits' + w'.jobDone)
    (hahead : waits' + w'.ahead ≤ sends')
    (hwaiting : ∀ jobDone, w'.main = .waitReaders jobDone → jobDone < w.nrsReaders) :
    Counted sends' waits' w' := by
  refine ⟨hnrs ▸ h.nrsReaders, hcapacity ▸ h.capacity, h.active.mainStep hstep,
    fun j hj hnone ↦ ?_, fun j hj ↦ ?_, ?_, hahead, hnrs ▸ hwaiting⟩
  · rw [hnrs] at hj
    rw [hreaders] at hnone ⊢
    rcases h.openFirst j hj hnone with hfirst | ⟨-, filenames, i, hmain, hij, hlen⟩
    · exact Or.inl hfirst
    · have := hopen filenames i hmain hlen
      omega
  · rw [hnrs] at hj
    rw [hreaders, h.promised j hj, hsent j hj]
  · rw [hreaders, hnrs, h.total, htotal]

/-- The same once the files have been handed out. -/
theorem of_opened (h : Counted sends waits w) {sends' waits' : ℕ} (hstep : w.MainStep w')
    (hreaders : w'.readers = w.readers) (hnrs : w'.nrsReaders = w.nrsReaders)
    (hcapacity : w'.capacity = w.capacity)
    (hopened : ∀ filenames i, w.main ≠ .openFiles filenames i)
    (hsent : ∀ j < w.nrsReaders, sends + w.sending j = sends' + w'.sending j)
    (htotal : w.listener.length + w.nrsReaders * waits + w.jobDone =
      w'.listener.length + w.nrsReaders * waits' + w'.jobDone)
    (hahead : waits' + w'.ahead ≤ sends')
    (hwaiting : ∀ jobDone, w'.main = .waitReaders jobDone → jobDone < w.nrsReaders) :
    Counted sends' waits' w' :=
  h.of_main hstep hreaders hnrs hcapacity (fun _ _ hopen ↦ absurd hopen (hopened _ _))
    hsent htotal hahead hwaiting

/-- A step of the main thread that sends a job to reader `i`. -/
theorem of_send (h : Counted sends waits w) {job : EceJob} {pc : MainPc}
    (hstep : w.MainStep { w.send i job with main := pc })
    (hopen : ∀ j < w.nrsReaders, ∀ filenames k, w.main = .openFiles filenames k → k ≤ j →
      w.nrsReaders ≤ k + filenames.length →
      j = i ∧ job.filename ≠ none ∨ j ≠ i ∧ ∃ filenames k, pc = .openFiles filenames k ∧ k ≤ j ∧
        w.nrsReaders ≤ k + filenames.length)
    (hsent : ∀ j < w.nrsReaders, (sends + w.sending j +
      if j = i ∧ job.filename = none then 1 else 0) =
        sends + sending { w.send i job with main := pc } j)
    (hdone : jobDone { w.send i job with main := pc } = w.jobDone)
    (hahead : waits + EceWorker.ahead { w.send i job with main := pc } ≤ sends)
    (hwaiting : ∀ jobDone, pc ≠ .waitReaders jobDone) :
    Counted sends waits { w.send i job with main := pc } := by
  refine ⟨h.nrsReaders, h.capacity, h.active.mainStep hstep, fun j hj hnone ↦ ?_, fun j hj ↦ ?_, ?_,
    hahead, fun jobDone hmain ↦ absurd hmain (hwaiting jobDone)⟩
  · change ((w.send i job).readers j).file = none at hnone
    change (∃ job' queue, ((w.send i job).readers j).queue = job' :: queue ∧ _) ∨
      ((w.send i job).readers j).queue = [] ∧ _
    have hold : (w.readers j).file = none := by
      rw [send_readers] at hnone
      split at hnone <;> exact hnone
    rw [send_readers]
    rcases h.openFirst j hj hold with
      ⟨job', queue, hqueue, hjob'⟩ | ⟨hqueue, names, k, hmain, hkj, hlen⟩
    · left
      split
      next => exact ⟨job', queue ++ [job], by rw [hqueue]; rfl, hjob'⟩
      next => exact ⟨job', queue, hqueue, hjob'⟩
    · rcases hopen j hj names k hmain hkj hlen with ⟨hji, hjob⟩ | ⟨hji, hrest⟩
      · rw [if_pos hji]
        exact Or.inl ⟨job, [], by rw [hqueue]; rfl, hjob⟩
      · rw [if_neg hji]
        exact Or.inr ⟨hqueue, hrest⟩
  · show ((w.send i job).readers j).promised = _
    rw [← hsent j hj, ← h.promised j hj, send_readers]
    by_cases hji : j = i
    · simp only [hji, if_true, true_and]
      exact EceReader.promised_send ..
    · simp only [hji, if_false, false_and, Nat.add_zero]
  · show ∑ k ∈ Finset.range w.nrsReaders, ((w.send i job).readers k).firstBank = _
    rw [sum_firstBank_send, h.total, hdone]
    rfl

theorem mainStep (h : Counted sends waits w) (hstep : w.MainStep w') :
    ∃ sends waits, Counted sends waits w' := by
  have hahead := h.ahead
  have hphase := h.active.main
  have hnrs := h.nrsReaders
  cases hcase : hstep with
  | @openSend filename rest i hmain hlt =>
      refine ⟨sends, waits, h.of_send hstep (fun j hj names k hmain' hkj hlen ↦ ?_) (fun j hj ↦ ?_)
        ?_ ?_ fun _ ↦ (by simp)⟩
      · rw [hmain] at hmain'
        cases hmain'
        by_cases hji : j = i
        · exact Or.inl ⟨hji, Option.some_ne_none _⟩
        · refine Or.inr ⟨hji, rest, i + 1, rfl, by omega, ?_⟩
          rw [List.length_cons] at hlen
          omega
      · simp [sending, hmain]
      · simp [EceWorker.jobDone, hmain]
      · simpa [EceWorker.ahead, hmain] using hahead
  | @workSend i inLoop hmain hlt =>
      refine ⟨sends, waits, h.of_send hstep (fun j hj names k hmain' ↦ ?_) (fun j hj ↦ ?_) ?_ ?_
        fun _ ↦ (by simp)⟩
      · rw [hmain] at hmain'
        cases hmain'
      · simp only [sending, hmain, and_true]
        split <;> split <;> split <;> omega
      · simp [EceWorker.jobDone, hmain]
      · simpa [EceWorker.ahead, hmain] using hahead
  | @openEnd rest i hmain hend =>
      refine ⟨sends, waits, h.of_main hstep rfl rfl rfl (fun names k hmain' hlen ↦ ?_)
        (fun j hj ↦ ?_) ?_ ?_ fun _ ↦ (by simp)⟩
      · rw [hmain] at hmain'
        cases hmain'
        rcases hend with rfl | hend
        · exact hlen
        · omega
      · simp [sending, hmain]
      · simp [EceWorker.jobDone, hmain]
      · simpa [EceWorker.ahead, hmain] using hahead
  | @workEnd i inLoop hmain hend =>
      refine ⟨sends + 1, waits, h.of_opened hstep rfl rfl rfl (by simp [hmain])
        (fun j hj ↦ ?_) ?_ ?_ fun k hk ↦ ?_⟩
      · have hji : j < i := by omega
        cases inLoop <;> simp [sending, hmain, hji]
      · cases inLoop <;> simp [EceWorker.jobDone, hmain]
      · simp only [EceWorker.ahead, hmain] at hahead
        cases inLoop <;> simp [EceWorker.ahead] <;> omega
      · cases inLoop with
        | false =>
            cases hk
            exact hnrs
        | true => cases hk
  | noReaders hmain hnone => omega
  | @takeAck jobDone ack listener hmain hsome hlistener =>
      have hlt := h.waiting jobDone hmain
      simp only [EceWorker.ahead, hmain] at hahead
      -- the last acknowledgement completes one more `wait_readers`
      by_cases hlast : jobDone + 1 = w.nrsReaders
      · rw [if_pos hlast] at hstep ⊢
        refine ⟨sends, waits + 1, h.of_opened hstep rfl rfl rfl (by simp [hmain])
          (fun j hj ↦ ?_) ?_ ?_ fun _ ↦ (by simp)⟩
        · simp [sending, hmain]
        · simp only [EceWorker.jobDone, hmain, hlistener, List.length_cons]
          rw [Nat.mul_add, Nat.mul_one]
          omega
        · simpa [EceWorker.ahead] using hahead
      · rw [if_neg hlast] at hstep ⊢
        refine ⟨sends, waits, h.of_opened hstep rfl rfl rfl (by simp [hmain])
          (fun j hj ↦ ?_) ?_ ?_ fun k hk ↦ ?_⟩
        · simp [sending, hmain]
        · simp only [EceWorker.jobDone, hmain, hlistener, List.length_cons]
          omega
        · simpa [EceWorker.ahead] using hahead
        · cases hk
          omega
  | lockBank hmain | readBank hmain =>
      refine ⟨sends, waits, h.of_opened hstep rfl rfl rfl (by simp [hmain])
        (fun j hj ↦ ?_) ?_ ?_ fun _ ↦ (by simp)⟩
      · simp [sending, hmain]
      · simp [EceWorker.jobDone, hmain]
      · simpa [EceWorker.ahead, hmain] using hahead
  | @endRound i hmain hend =>
      simp only [EceWorker.ahead, hmain] at hahead
      by_cases hlen : w.len < w.capacity
      · rw [if_pos hlen] at hstep ⊢
        refine ⟨sends, waits, h.of_opened hstep rfl rfl rfl (by simp [hmain])
          (fun j hj ↦ ?_) ?_ ?_ fun _ ↦ (by simp)⟩
        · simp [sending, hmain]
        · simp [EceWorker.jobDone, hmain]
        · simp only [EceWorker.ahead]
          omega
      · rw [if_neg hlen] at hstep ⊢
        refine ⟨sends, waits, h.of_opened hstep rfl rfl rfl (by simp [hmain])
          (fun j hj ↦ ?_) ?_ ?_ fun k hk ↦ ?_⟩
        · simp [sending, hmain]
        · simp [EceWorker.jobDone, hmain]
        · simpa [EceWorker.ahead] using hahead
        · cases hk
          exact hnrs
  | dropSend hmain | dropSent hmain | joined hmain | joinPanicked hmain | dropEnd hmain =>
      rw [hmain] at hphase
      cases hphase

theorem step (h : Counted sends waits w) (hallow : w.FilesOpen e) (hstep : w.step e = some w') :
    ∃ sends waits, Counted sends waits w' := by
  have hcases := step_cases hstep
  cases e with
  | work filenames =>
      rcases hcases with ⟨hmain, rfl⟩
      refine ⟨sends, waits, h.nrsReaders, h.capacity, ⟨h.active.readers, rfl⟩, fun j hj hnone ↦ ?_,
        fun j hj ↦ ?_, ?_, ?_, fun _ h ↦ by cases h⟩
      · rcases h.openFirst j hj hnone with hfirst | ⟨-, names, k, hmain', -⟩
        · exact Or.inl hfirst
        · rw [hmain] at hmain'
          cases hmain'
      · have := h.promised j hj
        simp only [sending, hmain] at this
        exact this
      · have := h.total
        simp only [EceWorker.jobDone, hmain] at this
        exact this
      · have := h.ahead
        simp only [EceWorker.ahead, hmain] at this
        exact this
  | drop => exact hallow.elim
  | main => exact h.mainStep (mainStep_cases hcases)
  | recv j opened =>
      cases hallow
      rcases hcases with ⟨hj, r, hr, rfl⟩
      have hrunning := h.active.readers j hj
      -- a reader without a file finds the file to open first
      have hopen : (w.readers j).file = none →
          ∃ job queue, (w.readers j).queue = job :: queue ∧ job.filename ≠ none := by
        intro hnone
        rcases h.openFirst j hj hnone with hfirst | ⟨hempty, -⟩
        · exact hfirst
        · rcases EceReader.recv_cases hr with ⟨job, queue, -, hqueue, -⟩
          rw [hempty] at hqueue
          cases hqueue
      refine ⟨sends, waits, h.setReader (fun hold ↦ hold.recv hr) (fun hnone ↦ ?_)
        ((hrunning.recv_promised hr).2 h.capacity hopen) (EceReader.recv_firstBank hr)⟩
      rcases hrunning.recv_cases hr with ⟨job, queue, -, hqueue, ⟨name, -, rfl⟩ | ⟨hname, -, rfl⟩⟩
      · cases hnone
      · have hfile : (w.readers j).file = none := by
          split at hnone <;> exact hnone
        rcases hopen hfile with ⟨job', queue', hqueue', hjob'⟩
        rw [hqueue] at hqueue'
        cases hqueue'
        exact absurd hname hjob'
  | lock j =>
      rcases hcases with ⟨-, r, hr, rfl⟩
      refine ⟨sends, waits, h.setReader (fun hold ↦ hold.lockBank hr) (fun hnone ↦ ?_)
        (EceReader.lockBank_promised hr) (EceReader.lockBank_firstBank hr)⟩
      rcases EceReader.lockBank_cases hr with ⟨job, -, rfl⟩
      exact ⟨hnone, rfl⟩
  | read j res =>
      rcases hcases with ⟨-, r, hr, rfl⟩
      refine ⟨sends, waits, h.setReader (fun hold ↦ hold.readFile hr) (fun hnone ↦ ?_)
        (EceReader.readFile_promised hr) (EceReader.readFile_firstBank hr)⟩
      rcases EceReader.readFile_cases hr with ⟨job, f, -, -, ⟨bytes, -, -, rfl⟩ | ⟨-, rfl⟩⟩
      · cases hnone
      · cases hnone
  | ack j =>
      rcases hcases with ⟨hj, job, r, hr, rfl⟩
      exact ⟨sends, waits, h.ack hj hr⟩

end Counted

end EceWorker

/-! ## Too few files -/

/-- A reader that never acknowledges: it is not given a file, or its reads have no length. -/
structure EceReader.Mute (capacity : ℕ) (r : EceReader) : Prop where
  pc : r.pc = .recv
  firstBank : r.firstBank = 0
  silent : capacity = 0 ∨ r.file = none ∧ ∀ job ∈ r.queue, job.filename = none

theorem EceReader.Mute.send {capacity : ℕ} {r : EceReader} {job : EceJob} (h : r.Mute capacity)
    (hjob : capacity = 0 ∨ job.filename = none) :
    Mute capacity { r with queue := r.queue ++ [job] } := by
  refine ⟨h.pc, h.firstBank, ?_⟩
  rcases h.silent with hzero | ⟨hfile, hsilent⟩
  · exact Or.inl hzero
  · refine hjob.imp id fun hname ↦ ⟨hfile, fun job' hjob' ↦ ?_⟩
    rcases List.mem_append.mp hjob' with hold | hnew
    · exact hsilent job' hold
    · rw [List.mem_singleton.mp hnew]
      exact hname

theorem EceReader.Mute.recv {capacity : ℕ} {r r' : EceReader} (h : r.Mute capacity)
    (hrunning : r.Running capacity) (hrecv : r.recv true = some r') : r'.Mute capacity := by
  rcases hrunning.recv_cases hrecv with ⟨job, queue, -, hqueue, ⟨name, hname, rfl⟩ | ⟨-, -, rfl⟩⟩
  · refine ⟨rfl, h.firstBank, ?_⟩
    rcases h.silent with hzero | ⟨-, hsilent⟩
    · exact Or.inl hzero
    · rw [hsilent job (by simp [hqueue])] at hname
      cases hname
  · -- a read job is dropped without an acknowledgement
    have hdrop : capacity = 0 ∨ r.file = none := h.silent.imp id And.left
    rw [if_pos hdrop]
    refine ⟨rfl, h.firstBank, h.silent.imp id fun hsilent ↦ ⟨hsilent.1, fun job' hjob' ↦ ?_⟩⟩
    exact hsilent.2 job' (by simp [hqueue, hjob'])

namespace EceWorker

variable {w w' : EceWorker} {e : Event} {nr capacity i j : ℕ}

/-- The read jobs that the readers have been sent, at most one each. -/
def owed (w : EceWorker) (j : ℕ) : ℕ :=
  match w.main with
  | .sendWork i _ => if j < i then 1 else 0
  | .waitReaders _ => 1
  | _ => 0

/-- One reader, `mute`, never acknowledges, so the first `wait_readers` does not end. -/
structure Starved (mute : ℕ) (w : EceWorker) : Prop where
  lt : mute < w.nrsReaders
  active : w.Active
  main :
    match w.main with
    | .openFiles rest i => w.capacity = 0 ∨ i + rest.length ≤ mute
    | .sendWork _ inLoop => inLoop = false
    | .waitReaders jobDone => jobDone < w.nrsReaders
    | _ => False
  promised : ∀ j < w.nrsReaders, (w.readers j).promised ≤ w.owed j
  mute : (w.readers mute).Mute w.capacity
  total : ∑ j ∈ Finset.range w.nrsReaders, (w.readers j).firstBank = w.listener.length + w.jobDone

namespace Starved

variable {mute : ℕ}

theorem work {filenames : List String} (hnr : 0 < nr)
    (hshort : capacity = 0 ∨ filenames.length < nr) :
    Starved (nr - 1) ((EceWorker.new nr capacity).work filenames) where
  lt := Nat.sub_lt hnr Nat.one_pos
  active := ⟨fun _ _ ↦ EceReader.Running.new capacity, rfl⟩
  main := hshort.imp id fun hlt ↦ by omega
  promised j _ := Nat.le_refl 0
  mute := ⟨rfl, rfl, Or.inr ⟨rfl, fun _ h ↦ absurd h List.not_mem_nil⟩⟩
  total := sum_range_const fun _ _ ↦ rfl

/-- Fewer acknowledgements than readers. -/
theorem total_lt (h : Starved mute w) : w.listener.length + w.jobDone < w.nrsReaders := by
  rw [← h.total]
  apply sum_range_lt _ h.lt h.mute.firstBank
  intro j hj
  have hpromised := h.promised j hj
  have howed : w.owed j ≤ 1 := by
    unfold owed
    split
    · split <;> omega
    · omega
    · omega
  unfold EceReader.promised at hpromised
  omega

theorem mute_send (h : Starved mute w) {job : EceJob}
    (hjob : i = mute → w.capacity = 0 ∨ job.filename = none) :
    ((w.send i job).readers mute).Mute w.capacity := by
  rw [send_readers]
  split
  next heq => exact h.mute.send (hjob heq.symm)
  next => exact h.mute

theorem mainStep (h : Starved mute w) (hstep : w.MainStep w') : Starved mute w' := by
  have hactive := h.active.mainStep hstep
  have hphase := h.main
  have htotal := h.total
  have hlt := h.total_lt
  cases hstep with
  | @openSend filename rest i hmain hi =>
      rw [hmain] at hphase
      dsimp only at hphase
      rw [List.length_cons] at hphase
      refine ⟨h.lt, hactive, hphase.imp id fun hlen ↦ by omega, fun j hj ↦ ?_, ?_, ?_⟩
      · have hpromised := h.promised j hj
        unfold owed at hpromised
        rw [hmain] at hpromised
        show ((w.send i _).readers j).promised ≤ 0
        rw [send_readers]
        split
        next =>
          rw [EceReader.promised_send]
          exact hpromised
        next => exact hpromised
      · exact h.mute_send fun heq ↦ hphase.imp_right fun hlen ↦ by omega
      · show ∑ j ∈ Finset.range w.nrsReaders, ((w.send i _).readers j).firstBank =
          w.listener.length + 0
        rw [sum_firstBank_send, htotal]
        simp only [EceWorker.jobDone, hmain]
  | @openEnd rest i hmain hend =>
      refine ⟨h.lt, hactive, rfl, fun j hj ↦ ?_, h.mute, ?_⟩
      · have hpromised := h.promised j hj
        simp only [owed, hmain] at hpromised
        exact Nat.le_trans hpromised (Nat.zero_le _)
      · show ∑ j ∈ Finset.range w.nrsReaders, (w.readers j).firstBank = w.listener.length + 0
        rw [htotal]
        simp only [EceWorker.jobDone, hmain]
  | @workSend i inLoop hmain hi =>
      rw [hmain] at hphase
      refine ⟨h.lt, hactive, hphase, fun j hj ↦ ?_, ?_, ?_⟩
      · have hpromised := h.promised j hj
        simp only [owed, hmain] at hpromised ⊢
        show ((w.send i _).readers j).promised ≤ if j < i + 1 then 1 else 0
        rw [send_readers]
        split
        next heq =>
          rw [EceReader.promised_send]
          subst heq
          rw [if_neg (Nat.lt_irrefl j)] at hpromised
          simp only [if_true, Nat.lt_succ_self]
          omega
        next hne =>
          have hlater : (if j < i + 1 then 1 else 0) = if j < i then 1 else 0 := by
            split <;> split <;> omega
          rwa [hlater]
      · exact h.mute_send fun _ ↦ Or.inr rfl
      · show ∑ j ∈ Finset.range w.nrsReaders, ((w.send i _).readers j).firstBank =
          w.listener.length + 0
        rw [sum_firstBank_send, htotal]
        simp only [EceWorker.jobDone, hmain]
  | @workEnd i inLoop hmain hend =>
      rw [hmain] at hphase
      subst hphase
      refine ⟨h.lt, hactive, Nat.zero_lt_of_lt h.lt, fun j hj ↦ ?_, h.mute, ?_⟩
      · have hpromised := h.promised j hj
        have hji : j < i := by
          have : j < w.nrsReaders := hj
          omega
        simp only [owed, hmain, if_pos hji] at hpromised
        exact hpromised
      · show ∑ j ∈ Finset.range w.nrsReaders, (w.readers j).firstBank = w.listener.length + 0
        rw [htotal]
        simp only [EceWorker.jobDone, hmain]
  | noReaders hmain hnone =>
      have := h.lt
      omega
  | @takeAck jobDone ack listener hmain hsome hlistener =>
      simp only [EceWorker.jobDone, hmain, hlistener, List.length_cons] at hlt htotal
      -- the mute reader's acknowledgement is missing
      have hmore : jobDone + 1 ≠ w.nrsReaders := by omega
      rw [if_neg hmore] at hactive ⊢
      refine ⟨h.lt, hactive, ?_, fun j hj ↦ ?_, h.mute, ?_⟩
      · show jobDone + 1 < w.nrsReaders
        omega
      · have hpromised := h.promised j hj
        simp only [owed, hmain] at hpromised
        exact hpromised
      · show ∑ j ∈ Finset.range w.nrsReaders, (w.readers j).firstBank =
          listener.length + (jobDone + 1)
        omega
  | lockBank hmain | readBank hmain | endRound hmain | dropSend hmain | dropSent hmain
  | joined hmain | joinPanicked hmain | dropEnd hmain =>
      rw [hmain] at hphase
      exact hphase.elim

theorem promised_setReader (h : Starved mute w) {r : EceReader}
    (hpromised : r.promised ≤ (w.readers j).promised) :
    ∀ k < w.nrsReaders, ((w.setReader j r).readers k).promised ≤ w.owed k :=
  setReader_forall (P := fun k r ↦ r.promised ≤ w.owed k) h.promised
    fun hold ↦ Nat.le_trans hpromised hold

theorem setReader (h : Starved mute w) {r : EceReader}
    (hrunning : (w.readers j).Running w.capacity → r.Running w.capacity)
    (hpromised : r.promised ≤ (w.readers j).promised)
    (hfirst : r.firstBank = (w.readers j).firstBank)
    (hmute : j = mute → r.Mute w.capacity) : Starved mute (w.setReader j r) where
  lt := h.lt
  active := h.active.setReader hrunning
  main := h.main
  promised := h.promised_setReader hpromised
  mute := by
    rw [setReader_readers]
    split
    next heq => exact hmute heq.symm
    next => exact h.mute
  total := (sum_firstBank_setReader hfirst).trans h.total

theorem ack (h : Starved mute w) (hj : j < w.nrsReaders) {job : EceJob} {r : EceReader}
    (hack : (w.readers j).sendAck = some (job, r)) :
    Starved mute { w.setReader j r with listener := w.listener ++ [⟨j, job⟩] } := by
  rcases EceReader.sendAck_promised hack with ⟨hpromised, hfirst⟩
  have hactive := h.active.setReader fun hold ↦ hold.sendAck hack
  -- it is another reader that acknowledges
  have hne : mute ≠ j := by
    intro heq
    subst heq
    have hpc := (EceReader.sendAck_cases hack).1
    rw [h.mute.pc] at hpc
    cases hpc
  refine ⟨h.lt, ⟨hactive.readers, hactive.main⟩, h.main, h.promised_setReader hpromised.le, ?_, ?_⟩
  · show ((w.setReader j r).readers mute).Mute w.capacity
    rw [setReader_readers, if_neg hne]
    exact h.mute
  · show ∑ k ∈ Finset.range w.nrsReaders, ((w.setReader j r).readers k).firstBank =
      (w.listener ++ [(⟨j, job⟩ : Ack)]).length + w.jobDone
    rw [sum_firstBank_ack hj hfirst, h.total, List.length_append, List.length_singleton]
    omega

theorem step (h : Starved mute w) (hallow : w.FilesOpen e) (hcall : e.isCall = false)
    (hstep : w.step e = some w') : Starved mute w' := by
  have hcases := step_cases hstep
  cases e with
  | work filenames => cases hcall
  | drop => cases hcall
  | main => exact h.mainStep (mainStep_cases hcases)
  | recv j opened =>
      cases hallow
      rcases hcases with ⟨hj, r, hr, rfl⟩
      have hrunning := h.active.readers j hj
      refine h.setReader (fun hold ↦ hold.recv hr) (hrunning.recv_promised hr).1
        (EceReader.recv_firstBank hr) ?_
      intro heq
      subst heq
      exact h.mute.recv hrunning hr
  | lock j =>
      rcases hcases with ⟨-, r, hr, rfl⟩
      refine h.setReader (fun hold ↦ hold.lockBank hr) (EceReader.lockBank_promised hr).le
        (EceReader.lockBank_firstBank hr) ?_
      intro heq
      subst heq
      rcases EceReader.lockBank_cases hr with ⟨job, hpc, -⟩
      rw [h.mute.pc] at hpc
      cases hpc
  | read j res =>
      rcases hcases with ⟨-, r, hr, rfl⟩
      refine h.setReader (fun hold ↦ hold.readFile hr) (EceReader.readFile_promised hr).le
        (EceReader.readFile_firstBank hr) ?_
      intro heq
      subst heq
      rcases EceReader.readFile_cases hr with ⟨job, f, hpc, -⟩
      rw [h.mute.pc] at hpc
      cases hpc
  | ack j =>
      rcases hcases with ⟨hj, job, r, hr, rfl⟩
      exact h.ack hj hr

/-- A state in which no thread goes on is stuck. -/
theorem stuck (h : Starved mute w)
    (hnone : ∀ e, w.FilesOpen e ∧ e.isCall = false → w.step e = none) : w.Stuck := by
  have hmain : w.step .main = none := hnone .main ⟨trivial, rfl⟩
  apply h.active.stuck _ hmain
  · intro j hj
    exact h.active.reader_idle hmain (fun k ↦ hnone (.recv k true) ⟨rfl, rfl⟩)
      (fun k ↦ hnone (.lock k) ⟨trivial, rfl⟩)
      (fun k _ _ ↦ ⟨[], Nat.zero_le _, hnone (.read k (some [])) ⟨trivial, rfl⟩⟩)
      (fun k ↦ hnone (.ack k) ⟨trivial, rfl⟩) hj
  · intro hidle
    have hphase := h.main
    rw [hidle] at hphase
    exact hphase

end Starved

/-! ## Runs -/

theorem work_run_stuck (filenames : List String) (hnr : 0 < nr)
    (hshort : capacity = 0 ∨ filenames.length < nr) :
    ∃ w, Guarded step FilesOpen ((EceWorker.new nr capacity).work filenames) w ∧ w.Stuck := by
  -- run until no thread goes on
  have hterminal : ∃ w, Guarded step (fun w e ↦ w.FilesOpen e ∧ e.isCall = false)
      ((EceWorker.new nr capacity).work filenames) w ∧ Starved (nr - 1) w ∧
      ∀ e, w.FilesOpen e ∧ e.isCall = false → w.step e = none := by
    apply Guarded.exists_terminal (EceWorker.cost 0) (Starved.work hnr hshort)
    intro w e w' h hallow hstep
    refine ⟨h.step hallow.1 hallow.2 hstep, cost_step hallow.2 hstep (fun k hmain ↦ ?_)
      fun k hmain ↦ ?_⟩
    · have hphase := h.main
      rw [hmain] at hphase
      exact Or.inl hphase
    · have hphase := h.main
      rw [hmain] at hphase
      exact hphase.elim
  rcases hterminal with ⟨w, hrun, h, hnone⟩
  exact ⟨w, hrun.mono fun _ _ hallow ↦ hallow.1, h.stuck hnone⟩

theorem not_stuck_of_no_readers (hnrs : w.nrsReaders = 0) : ¬ w.Stuck := by
  intro hstuck
  -- the channel has no sender
  rcases hstuck.main with ⟨jobDone, hmain⟩
  have hblocked := hstuck.blocked
  unfold EceWorker.mainStep EceWorker.waitReaders at hblocked
  rw [hmain] at hblocked
  dsimp only at hblocked
  rw [if_pos hnrs] at hblocked
  cases hblocked

theorem work_run_counted {filenames : List String} (hnr : 0 < nr) (hcapacity : 0 < capacity)
    (henough : nr ≤ filenames.length)
    (hrun : Guarded step FilesOpen ((EceWorker.new nr capacity).work filenames) w) :
    ∃ sends waits, Counted sends waits w := by
  apply hrun.invariant (I := fun w ↦ ∃ sends waits, Counted sends waits w)
    ⟨0, 0, Counted.work hnr hcapacity henough⟩
  intro w e w' hinv hallow hstep
  obtain ⟨sends, waits, h⟩ := hinv
  exact h.step hallow hstep

/-- No run that begins with a call of `work` for these files gets stuck if and only if there are no
readers, or the banks have room and there is a file for every reader. -/
theorem work_run_not_stuck_iff (nr capacity : ℕ) (filenames : List String) :
    (∀ w, Guarded step FilesOpen ((EceWorker.new nr capacity).work filenames) w → ¬ w.Stuck) ↔
      nr = 0 ∨ 0 < capacity ∧ nr ≤ filenames.length := by
  constructor
  · intro hsafe
    by_contra hshort
    obtain ⟨w, hrun, hstuck⟩ := work_run_stuck filenames (show 0 < nr by omega)
      (show capacity = 0 ∨ filenames.length < nr by omega)
    exact hsafe w hrun hstuck
  · intro henough w hrun
    -- without readers `wait_readers` does not block
    rcases Nat.eq_zero_or_pos nr with rfl | hnr
    · exact not_stuck_of_no_readers (run_nrsReaders hrun).1
    · rcases henough.resolve_left (Nat.ne_of_gt hnr) with ⟨hcapacity, hfiles⟩
      rcases work_run_counted hnr hcapacity hfiles hrun with ⟨sends, waits, h⟩
      exact h.not_stuck

/-- Two readers, one file: the second reader has nothing to read. -/
theorem work_run_stuck_one_file :
    ¬ ∀ nr capacity filenames w,
      Guarded step FilesOpen ((EceWorker.new nr capacity).work filenames) w → ¬ w.Stuck := by
  intro hclaim
  have hcall : ∃ w, exec step FilesOpen ((EceWorker.new 2 1).work ["a"])
      [.main, .main, .main, .main, .main, .recv 0 true, .recv 0 true, .lock 0, .read 0 (some []),
        .ack 0, .recv 1 true, .main] = some w ∧
      w.main = .waitReaders 1 ∧ w.mainStep = none ∧ w.listener = [] ∧ w.nrsReaders = 2 ∧
      (w.readers 0).queue = [] ∧ (w.readers 1).queue = [] ∧
      (w.readers 0).pc = .recv ∧ (w.readers 1).pc = .recv :=
    ⟨_, rfl, rfl, rfl, rfl, rfl, rfl, rfl, rfl, rfl⟩
  rcases hcall with ⟨w, hexec, hmain, hblocked, hlistener, hnrs, hqueue₀, hqueue₁, hpc₀, hpc₁⟩
  refine hclaim 2 1 ["a"] w (Guarded.of_exec hexec)
    ⟨⟨1, hmain⟩, hblocked, hlistener, fun j hj ↦ ?_, fun j hj ↦ ?_⟩
  · rcases (show j = 0 ∨ j = 1 by omega) with rfl | rfl
    · exact hqueue₀
    · exact hqueue₁
  · rcases (show j = 0 ∨ j = 1 by omega) with rfl | rfl
    · exact hpc₀
    · exact hpc₁

end EceWorker

end Divers.DoubleBuffering
