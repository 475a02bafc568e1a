import Divers.DoubleBuffering.Contents
import Divers.DoubleBuffering.Stuck

/-! Runs in which a file may fail to open.  A thread that panics has not acknowledged anything, so
the others do as if it had never been scheduled: the main thread waits for it and processes no
bank. -/

open Divers.Library

namespace Divers.DoubleBuffering

/-! ## A thread that panics -/

namespace EceReader

variable {r r' u : EceReader} {job : EceJob}

/-- `r` has panicked at the file that `r'` is yet to receive. -/
def Behind (r' r : EceReader) : Prop :=
  r.pc = .panicked ∧ ∃ job : EceJob, job.filename ≠ none ∧
    r' = { r with pc := .recv, queue := job :: r.queue }

theorem Behind.send (h : Behind r' r) :
    Behind { r' with queue := r'.queue ++ [job] } { r with queue := r.queue ++ [job] } := by
  obtain ⟨hpc, first, hname, rfl⟩ := h
  exact ⟨hpc, first, hname, rfl⟩

theorem Behind.banks (h : Behind r' r) : r'.banks = r.banks := by
  obtain ⟨-, first, -, rfl⟩ := h
  rfl

theorem Behind.holds (h : Behind r' r) (s : ℕ) : r'.holds s = r.holds s := by
  obtain ⟨hpc, first, -, rfl⟩ := h
  unfold EceReader.holds
  rw [hpc]

/-- The outcome of `File::open` matters only where there is a file to open, and there a failure
leaves the thread behind. -/
theorem recv_failed (h : r.recv false = some u) : r.recv true = some u ∨ Behind r u := by
  have hcases := recv_cases h
  obtain ⟨job, queue, hpc, hqueue, hr'⟩ := hcases
  obtain ⟨hfinished, rfl⟩ | ⟨hfinished, hname, rfl⟩ | ⟨-, name, hname, ⟨hopened, -⟩ | ⟨-, rfl⟩⟩ :=
    hr'
  · left
    unfold recv
    rw [hpc, hqueue]
    simp [hfinished]
  · left
    unfold recv
    rw [hpc, hqueue]
    simp [hfinished, hname]
  · cases hopened
  · right
    refine ⟨rfl, job, by simp [hname], ?_⟩
    cases r
    simp_all

end EceReader

namespace EceWorker

variable {readers : ℕ → EceReader} {filenames : List String} {w w' u : EceWorker} {e : Event}
  {nr capacity i j : ℕ}

/-- The readers are those of `w`, but those that have panicked in `w` have not gone that far. -/
def Lags (readers : ℕ → EceReader) (w : EceWorker) : Prop :=
  ∀ j, readers j = w.readers j ∨ j < w.nrsReaders ∧ (readers j).Behind (w.readers j)

/-- One call of `work` in which every file opens. -/
abbrev Opening (w : EceWorker) (e : Event) : Prop := w.FilesOpen e ∧ w.FirstWork e

namespace Lags

theorem banks (h : Lags readers w) (j : ℕ) : (readers j).banks = (w.readers j).banks := by
  obtain heq | ⟨-, hbehind⟩ := h j
  · rw [heq]
  · exact hbehind.banks

theorem holds (h : Lags readers w) (j s : ℕ) : (readers j).holds s = (w.readers j).holds s := by
  obtain heq | ⟨-, hbehind⟩ := h j
  · rw [heq]
  · exact hbehind.holds s

theorem eq_of_pc (h : Lags readers w) (hpc : (w.readers j).pc ≠ .panicked) :
    readers j = w.readers j := by
  obtain heq | ⟨-, hpc', -⟩ := h j
  · exact heq
  · exact absurd hpc' hpc

theorem send (h : Lags readers w) (i : ℕ) (job : EceJob) :
    Lags (EceWorker.send { w with readers := readers } i job).readers (w.send i job) := by
  intro j
  rw [send_readers, send_readers]
  obtain heq | ⟨hlt, hbehind⟩ := h j
  · dsimp only
    rw [heq]
    exact Or.inl rfl
  · refine Or.inr ⟨hlt, ?_⟩
    split
    next => exact hbehind.send
    next => exact hbehind

/-- Readers that go on are those of `w`. -/
theorem setReader (h : Lags readers w) (r : EceReader) :
    Lags (EceWorker.setReader { w with readers := readers } j r).readers (w.setReader j r) := by
  intro k
  rw [setReader_readers, setReader_readers]
  split
  next => exact Or.inl rfl
  next => exact h k

/-- The main thread sees no difference before `drop`. -/
theorem mainStep (h : Lags readers w) (hlive : w.main.dropping = false) (hstep : w.MainStep u) :
    ∃ readers', MainStep { w with readers := readers } { u with readers := readers' } ∧
      Lags readers' u := by
  cases hstep with
  | openSend hmain hlt => exact ⟨_, .openSend hmain hlt, h.send _ _⟩
  | workSend hmain hlt => exact ⟨_, .workSend hmain hlt, h.send _ _⟩
  | openEnd hmain hend => exact ⟨_, .openEnd hmain hend, h⟩
  | workEnd hmain hend => exact ⟨_, .workEnd hmain hend, h⟩
  | noReaders hmain hnone => exact ⟨_, .noReaders hmain hnone, h⟩
  | takeAck hmain hsome hlistener => exact ⟨_, .takeAck hmain hsome hlistener, h⟩
  | endRound hmain hend => exact ⟨_, .endRound hmain hend, h⟩
  | lockBank hmain hlt hfree =>
      exact ⟨_, .lockBank hmain hlt ((h.holds _ _).trans hfree), h⟩
  | @readBank i hmain =>
      refine ⟨readers, ?_, h⟩
      have hread : MainStep { w with readers := readers } _ := .readBank hmain
      dsimp only at hread
      rw [h.banks i] at hread
      exact hread
  | dropSend hmain | dropSent hmain | joined hmain | joinPanicked hmain | dropEnd hmain =>
      rw [hmain] at hlive
      cases hlive

theorem step (h : Lags readers w) (hlive : w.main.dropping = false) (hdrop : e ≠ .drop)
    (hallow : w.FirstWork e) (hstep : w.step e = some u) :
    ∃ readers', Guarded EceWorker.step Opening { w with readers := readers }
      { u with readers := readers' } ∧ Lags readers' u := by
  have hcases := step_cases hstep
  cases e with
  | work names =>
      obtain ⟨hidle, rfl⟩ := hcases
      refine ⟨readers, .next (.work names) .refl ⟨trivial, hallow⟩ ?_, h⟩
      exact if_pos hidle
  | drop => exact absurd rfl hdrop
  | main =>
      obtain ⟨readers', hmain, hlags⟩ := h.mainStep hlive (mainStep_cases hcases)
      exact ⟨readers', .next .main .refl ⟨trivial, trivial⟩ hmain.mainStep_eq, hlags⟩
  | recv j opened =>
      obtain ⟨hj, r, hr, rfl⟩ := hcases
      have heq := h.eq_of_pc (EceReader.recv_live hr).2
      have hopen : (w.readers j).recv true = some r ∨ (w.readers j).Behind r := by
        cases opened with
        | true => exact Or.inl hr
        | false => exact EceReader.recv_failed hr
      obtain hr | hbehind := hopen
      · refine ⟨_, .next (.recv j true) .refl ⟨rfl, trivial⟩ ?_, h.setReader r⟩
        show (if j < w.nrsReaders then ((readers j).recv true).map _ else none) = _
        rw [if_pos hj, heq, hr]
        rfl
      · -- the thread stays where it is
        refine ⟨readers, .refl, fun k ↦ ?_⟩
        rw [setReader_readers]
        split
        next hk =>
          subst hk
          rw [heq]
          exact Or.inr ⟨hj, hbehind⟩
        next => exact h k
  | lock j =>
      obtain ⟨⟨hj, hfree⟩, r, hr, rfl⟩ := hcases
      have heq := h.eq_of_pc (EceReader.lockBank_live hr).2
      refine ⟨_, .next (.lock j) .refl ⟨trivial, trivial⟩ ?_, h.setReader r⟩
      show (if j < w.nrsReaders ∧ w.mainHolds j (slot (readers j).firstBank) = false then
        ((readers j).lockBank).map _ else none) = _
      rw [heq, if_pos ⟨hj, hfree⟩, hr]
      rfl
  | read j res =>
      obtain ⟨hj, r, hr, rfl⟩ := hcases
      have heq := h.eq_of_pc (EceReader.readFile_live hr).2
      refine ⟨_, .next (.read j res) .refl ⟨trivial, trivial⟩ ?_, h.setReader r⟩
      show (if j < w.nrsReaders then ((readers j).readFile w.capacity res).map _ else none) = _
      rw [if_pos hj, heq, hr]
      rfl
  | ack j =>
      obtain ⟨hj, job, r, hr, rfl⟩ := hcases
      have heq := h.eq_of_pc (EceReader.sendAck_live hr).2
      refine ⟨_, .next (.ack j) .refl ⟨trivial, trivial⟩ ?_, h.setReader r⟩
      show (if j < w.nrsReaders then ((readers j).sendAck).map _ else none) = _
      rw [if_pos hj, heq, hr]
      rfl

end Lags

/-! ## Runs -/

theorem step_dropping (hdropping : w.main.dropping = true) (hstep : w.step e = some w') :
    w'.main.dropping = true := by
  have hcases := step_cases hstep
  cases e with
  | work filenames | drop =>
      rw [hcases.1] at hdropping
      cases hdropping
  | main =>
      cases mainStep_cases hcases with
      | dropSend | dropSent | joined | joinPanicked | dropEnd => rfl
      | openSend hmain | openEnd hmain | workSend hmain | workEnd hmain | noReaders hmain
      | takeAck hmain | lockBank hmain | readBank hmain | endRound hmain =>
          rw [hmain] at hdropping
          cases hdropping
  | recv j opened | lock j | read j res =>
      obtain ⟨-, r, -, rfl⟩ := hcases
      exact hdropping
  | ack j =>
      obtain ⟨-, job, r, -, rfl⟩ := hcases
      exact hdropping

/-- `v` is `w` with every file open, up to threads left behind, as long as `w` is not dropped. -/
def Shadows (w v : EceWorker) : Prop :=
  w.main.dropping = true ∨ ∃ readers, v = { w with readers := readers } ∧ Lags readers w

theorem Shadows.step {v : EceWorker} (hshadows : Shadows w v) (hallow : FirstWork w e)
    (hstep : w.step e = some w') : ∃ v', Guarded EceWorker.step Opening v v' ∧ Shadows w' v' := by
  by_cases hdropping : w.main.dropping = true
  · exact ⟨v, .refl, Or.inl (step_dropping hdropping hstep)⟩
  · obtain ⟨readers, rfl, hlags⟩ := hshadows.resolve_left hdropping
    by_cases hdrop : e = .drop
    · subst hdrop
      rw [(step_cases hstep).2]
      exact ⟨_, .refl, Or.inl rfl⟩
    · obtain ⟨readers', hmore, hlags'⟩ :=
        hlags.step (Bool.eq_false_iff.mpr hdropping) hdrop hallow hstep
      exact ⟨_, hmore, Or.inr ⟨readers', rfl, hlags'⟩⟩

/-- A run with one call goes the same way with every file open, up to threads left behind. -/
theorem run_lags (hrun : Guarded step FirstWork (EceWorker.new nr capacity) w) :
    w.main.dropping = true ∨ ∃ readers, Lags readers w ∧
      Guarded step Opening (EceWorker.new nr capacity) { w with readers := readers } := by
  have hstart : Shadows (EceWorker.new nr capacity) (EceWorker.new nr capacity) :=
    Or.inr ⟨_, rfl, fun _ ↦ Or.inl rfl⟩
  obtain ⟨v, hv, hdropping | ⟨readers, rfl, hlags⟩⟩ :=
    Guarded.simulate hstart (fun _ _ _ _ hshadows hallow ↦ hshadows.step hallow) hrun
  · exact Or.inl hdropping
  · exact Or.inr ⟨readers, hlags, hv⟩

theorem step_calls (hcall : e.isCall = false) (hstep : w.step e = some w') :
    w'.calls = w.calls := by
  have hcases := step_cases hstep
  cases e with
  | work filenames | drop => cases hcall
  | main => cases mainStep_cases hcases <;> rfl
  | recv j opened | lock j | read j res =>
      obtain ⟨-, r, -, rfl⟩ := hcases
      rfl
  | ack j =>
      obtain ⟨-, job, r, -, rfl⟩ := hcases
      rfl

/-- The bank that the main thread holds is that of a reader. -/
theorem run_locked {allow : EceWorker → Event → Prop}
    (hrun : Guarded step allow (EceWorker.new nr capacity) w)
    (hmain : w.main = .processWriter i true) : i < nr := by
  have hlocked : w.nrsReaders = nr ∧ ∀ i, w.main = .processWriter i true → i < nr := by
    apply hrun.invariant (I := fun w ↦ w.nrsReaders = nr ∧
      ∀ i, w.main = .processWriter i true → i < nr) ⟨rfl, fun _ hmain ↦ by cases hmain⟩
    intro w e w' hinv _ hstep
    obtain ⟨hnrs, hold⟩ := hinv
    refine ⟨(step_nrsReaders hstep).1.trans hnrs, fun i hmain ↦ ?_⟩
    have hcases := step_cases hstep
    cases e with
    | work filenames | drop =>
        rw [hcases.2] at hmain
        cases hmain
    | main =>
        cases mainStep_cases hcases with
        | lockBank _ hlt =>
            cases hmain
            exact hnrs ▸ hlt
        | workEnd | takeAck | endRound =>
            dsimp only at hmain
            split at hmain <;> cases hmain
        | _ => cases hmain
    | recv j opened | lock j | read j res =>
        obtain ⟨-, r, -, rfl⟩ := hcases
        exact hold i hmain
    | ack j =>
        obtain ⟨-, job, r, -, rfl⟩ := hcases
        exact hold i hmain
  exact hlocked.2 i hmain

/-- Such a run begins with its call. -/
theorem run_opening (hrun : Guarded step Opening (EceWorker.new nr capacity) w) :
    w = EceWorker.new nr capacity ∨ ∃ filenames,
      Guarded step (fun w e ↦ w.FilesOpen e ∧ e.isCall = false)
        ((EceWorker.new nr capacity).work filenames) w ∧ w.calls ≠ 0 := by
  apply hrun.invariant (I := fun w ↦ w = EceWorker.new nr capacity ∨ ∃ filenames,
    Guarded step (fun w e ↦ w.FilesOpen e ∧ e.isCall = false)
      ((EceWorker.new nr capacity).work filenames) w ∧ w.calls ≠ 0) (Or.inl rfl)
  intro w e w' hinv hallow hstep
  have hcases := step_cases hstep
  obtain rfl | ⟨filenames, hrun, hcalls⟩ := hinv
  · cases e with
    | work filenames => exact Or.inr ⟨filenames, hcases.2 ▸ .refl, hcases.2 ▸ Nat.one_ne_zero⟩
    | drop => exact hallow.1.elim
    | main => cases hcases
    | recv j opened =>
        obtain ⟨-, r, hr, -⟩ := hcases
        cases hr
    | lock j =>
        obtain ⟨-, r, hr, -⟩ := hcases
        cases hr
    | read j res =>
        obtain ⟨-, r, hr, -⟩ := hcases
        cases hr
    | ack j =>
        obtain ⟨-, job, r, hr, -⟩ := hcases
        cases hr
  · have hcall : e.isCall = false := by
      cases e with
      | work filenames => exact absurd hallow.2 hcalls
      | drop => exact hallow.1.elim
      | _ => rfl
    refine Or.inr ⟨filenames, .next e hrun ⟨hallow.1, hcall⟩ hstep, ?_⟩
    rw [step_calls hcall hstep]
    exact hcalls

/-- Where a bank is processed, there are readers, the banks have room, and there was a file for
every reader. -/
theorem run_processing (hrun : Guarded step Opening (EceWorker.new nr capacity) w)
    (hmain : w.main = .processWriter i true) :
    0 < nr ∧ 0 < capacity ∧ Guarded step OneCall (EceWorker.new nr capacity) w := by
  have hnr : 0 < nr := Nat.zero_lt_of_lt (run_locked hrun hmain)
  obtain rfl | ⟨filenames, hcall, -⟩ := run_opening hrun
  · cases hmain
  · by_cases hshort : capacity = 0 ∨ filenames.length < nr
    · -- the main thread waits for ever
      have hstarved : Starved (nr - 1) w :=
        hcall.invariant (Starved.work hnr hshort) fun _ _ _ h hallow hstep ↦
          h.step hallow.1 hallow.2 hstep
      have hphase := hstarved.main
      rw [hmain] at hphase
      exact hphase.elim
    · refine ⟨hnr, by omega, Guarded.trans (.next (.work filenames) .refl ⟨rfl, ?_⟩ rfl)
        (hcall.mono fun v e hallow ↦ ?_)⟩
      · show nr ≤ filenames.length
        omega
      · obtain ⟨hopen, hcall⟩ := hallow
        cases e with
        | work filenames | drop => cases hcall
        | recv j opened => exact hopen
        | _ => trivial

/-- Where a bank is processed, every file has been opened. -/
theorem run_oneCall (hrun : Guarded step FirstWork (EceWorker.new nr capacity) w)
    (hmain : w.main = .processWriter i true) :
    0 < nr ∧ 0 < capacity ∧ Guarded step OneCall (EceWorker.new nr capacity) w := by
  obtain hdropping | ⟨readers, hlags, hopening⟩ := run_lags hrun
  · rw [hmain] at hdropping
    cases hdropping
  · have hone := run_processing hopening hmain
    obtain ⟨hnr, hcapacity, hone⟩ := hone
    have hsame : readers = w.readers := by
      funext j
      refine (hlags j).resolve_right fun hbehind ↦ ?_
      obtain ⟨hj, -, job, hname, heq⟩ := hbehind
      obtain hnew | ⟨filenames, h⟩ := run_firstCall hnr hcapacity hone
      · have hidle : w.main = .idle := congrArg EceWorker.main hnew
        rw [hmain] at hidle
        cases hidle
      · -- the reader has acknowledged a read, so no file is left to open
        obtain ⟨name, -, hfollows⟩ := h.follows j hj
        have hfirst := h.firstBank j hj
        have hfile : (readers j).file ≠ none := by
          intro hnone
          have hzero : (readers j).firstBank = 0 := (hfollows.unopened hnone).1
          simp only [ackRound, hmain, hzero] at hfirst
          omega
        have hjobs := hfollows.jobs
        simp only [heq] at hjobs hfile
        rw [if_neg fun hboth ↦ hfile hboth.1, List.nil_append] at hjobs
        split at hjobs
        next =>
          rw [(List.cons.inj hjobs).1] at hname
          exact hname rfl
        next => exact absurd hjobs (List.cons_ne_nil _ _)
    subst hsame
    exact ⟨hnr, hcapacity, hone⟩

end EceWorker

end Divers.DoubleBuffering
