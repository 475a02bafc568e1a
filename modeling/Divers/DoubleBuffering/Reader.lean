import Divers.DoubleBuffering.Steps

/-! One reader thread during the first call of `work`: which jobs it holds, given how many the main
thread has sent, and what its two banks hold. -/

open Divers.Library

namespace Divers.DoubleBuffering

/-! ## Jobs -/

def openJob (name : String) : EceJob := ⟨0, 0, false, some name⟩

/-- The read job of round `t`. -/
def readJob (capacity t : ℕ) : EceJob := ⟨t * capacity, capacity, false, none⟩

namespace EceReader

/-- The reads done, acknowledged or not. -/
def done (r : EceReader) : ℕ :=
  match r.pc with
  | .ack _ => r.firstBank + 1
  | _ => r.firstBank

/-- The thread is at work on a job, or will be without another message. -/
def Busy (r : EceReader) : Prop := r.pc ≠ .recv ∨ r.queue ≠ []

/-- The read jobs sent to the thread and not yet acknowledged. -/
def unfinished (r : EceReader) : ℕ :=
  (r.queue.countP fun job ↦ job.filename = none) +
    match r.pc with
    | .lock _ | .read _ | .ack _ => 1
    | _ => 0

/-- A reader that the main thread has asked to open `name`, if `asked`, and then `sent` read jobs.
At most one of the read jobs is unfinished. -/
structure Follows (capacity : ℕ) (name : String) (asked : Bool) (sent : ℕ) (r : EceReader) :
    Prop where
  le_sent : r.firstBank ≤ sent
  sent_le : sent ≤ r.firstBank + 1
  asked_of_sent : 0 < sent → asked = true
  asked_of_file : r.file ≠ none → asked = true
  unopened : r.file = none → r.firstBank = 0 ∧ r.opened = 0
  jobs :
    match r.pc with
    | .recv => r.queue =
        (if r.file = none ∧ asked = true then [openJob name] else []) ++
          if r.firstBank < sent then [readJob capacity r.firstBank] else []
    | .lock job | .read job =>
        job = readJob capacity r.firstBank ∧ r.firstBank < sent ∧ r.queue = [] ∧ r.file ≠ none
    | .ack job =>
        job.offset = r.firstBank * capacity ∧ r.firstBank < sent ∧ r.queue = [] ∧ r.file ≠ none
    | .exited | .panicked => False
  opened : ∀ f, r.file = some f → f.name = name ∧ r.opened = 1 ∧ f.reads.length = r.done

namespace Follows

variable {capacity sent : ℕ} {name : String} {asked : Bool} {r r' : EceReader} {job : EceJob}

theorem new : (EceReader.new capacity).Follows capacity name false 0 where
  le_sent := Nat.le_refl 0
  sent_le := Nat.zero_le _
  asked_of_sent h := absurd h (Nat.lt_irrefl 0)
  asked_of_file h := absurd rfl h
  unopened _ := ⟨rfl, rfl⟩
  jobs := rfl
  opened _ h := by cases h

/-! ### The main thread sends -/

/-- Without an unfinished job the thread is at `recv`. -/
theorem pc_eq_recv (h : r.Follows capacity name asked sent) (hidle : r.firstBank = sent) :
    r.pc = .recv := by
  have hjobs := h.jobs
  cases hpc : r.pc with
  | recv => rfl
  | lock job =>
      rw [hpc] at hjobs
      exact absurd hidle (Nat.ne_of_lt hjobs.2.1)
  | read job =>
      rw [hpc] at hjobs
      exact absurd hidle (Nat.ne_of_lt hjobs.2.1)
  | ack job =>
      rw [hpc] at hjobs
      exact absurd hidle (Nat.ne_of_lt hjobs.2.1)
  | exited => rw [hpc] at hjobs; exact hjobs.elim
  | panicked => rw [hpc] at hjobs; exact hjobs.elim

theorem not_busy (h : r.Follows capacity name asked sent) (hfirst : 0 < r.firstBank)
    (hidle : r.firstBank = sent) : ¬ r.Busy := by
  have hpc := h.pc_eq_recv hidle
  have hjobs := h.jobs
  have hfile : r.file ≠ none := by
    intro hnone
    have := (h.unopened hnone).1
    omega
  rw [hpc] at hjobs
  simp only [hfile, false_and, if_false, List.nil_append, hidle, Nat.lt_irrefl] at hjobs
  simp [Busy, hpc, hjobs]

theorem done_le (h : r.Follows capacity name asked sent) :
    r.firstBank ≤ r.done ∧ r.done ≤ sent := by
  have hjobs := h.jobs
  have hle := h.le_sent
  unfold done
  cases hpc : r.pc with
  | ack job =>
      rw [hpc] at hjobs
      exact ⟨Nat.le_succ _, hjobs.2.1⟩
  | _ => exact ⟨Nat.le_refl _, hle⟩

theorem unfinished_eq (h : r.Follows capacity name asked sent) :
    r.unfinished = sent - r.firstBank := by
  have hjobs := h.jobs
  have hsent := h.sent_le
  unfold unfinished
  cases hpc : r.pc with
  | recv =>
      rw [hpc] at hjobs
      simp only [hjobs]
      rw [List.countP_append]
      -- the job with the file name is not a read job
      have hopen : List.countP (fun job : EceJob ↦ job.filename = none)
          (if r.file = none ∧ asked = true then [openJob name] else []) = 0 := by
        split <;> rfl
      rw [hopen]
      split
      next hlt =>
        have : sent - r.firstBank = 1 := by omega
        rw [this]
        rfl
      next hge =>
        have : sent - r.firstBank = 0 := by omega
        rw [this]
        rfl
  | lock job | read job =>
      rw [hpc] at hjobs
      rw [hjobs.2.2.1]
      have := hjobs.2.1
      show 0 + 1 = sent - r.firstBank
      omega
  | ack job =>
      rw [hpc] at hjobs
      rw [hjobs.2.2.1]
      have := hjobs.2.1
      show 0 + 1 = sent - r.firstBank
      omega
  | exited | panicked =>
      rw [hpc] at hjobs
      exact hjobs.elim

theorem send_open (h : r.Follows capacity name false 0) :
    Follows capacity name true 0 { r with queue := r.queue ++ [openJob name] } := by
  have hfile : r.file = none := by
    by_contra hfile
    exact absurd (h.asked_of_file hfile) (by decide)
  have hpc : r.pc = .recv := h.pc_eq_recv (h.unopened hfile).1
  have hjobs := h.jobs
  rw [hpc] at hjobs
  simp only [hfile, (h.unopened hfile).1, Bool.false_eq_true, and_false, if_false, Nat.lt_irrefl,
    List.append_nil] at hjobs
  refine ⟨h.le_sent, h.sent_le, fun _ ↦ rfl, fun _ ↦ rfl, h.unopened, ?_, ?_⟩
  · rw [hpc]
    simp [hjobs, hfile, (h.unopened hfile).1]
  · intro f hf
    rw [hfile] at hf
    cases hf

theorem send_read (h : r.Follows capacity name true sent) (hidle : r.firstBank = sent) :
    Follows capacity name true (sent + 1)
      { r with queue := r.queue ++ [readJob capacity sent] } := by
  have hpc := h.pc_eq_recv hidle
  have hjobs := h.jobs
  rw [hpc] at hjobs
  simp only [hidle, Nat.lt_irrefl, if_false, List.append_nil] at hjobs
  refine ⟨?_, ?_, fun _ ↦ rfl, fun _ ↦ rfl, h.unopened, ?_, ?_⟩
  · show r.firstBank ≤ sent + 1
    omega
  · show sent + 1 ≤ r.firstBank + 1
    omega
  · rw [hpc]
    simp [hjobs, hidle]
  · exact h.opened

/-! ### The thread acts -/

theorem recv (h : r.Follows capacity name asked sent) (hcapacity : 0 < capacity)
    (hrecv : r.recv true = some r') : r'.Follows capacity name asked sent := by
  rcases recv_cases hrecv with ⟨job, queue, hpc, hqueue, hr'⟩
  have hjobs := h.jobs
  rw [hpc] at hjobs
  simp only [hqueue] at hjobs
  by_cases hopen : r.file = none ∧ asked = true
  · -- the file is opened
    rw [if_pos hopen, List.singleton_append, List.cons.injEq] at hjobs
    rcases hjobs with ⟨rfl, hrest⟩
    rcases h.unopened hopen.1 with ⟨hfirst, hcount⟩
    -- the job of `open_files` has length 0, so the loop goes back to `recv`
    have hr' : r' = { r with
        queue := queue
        file := some ⟨name, []⟩
        opened := r.opened + 1
        pc := .recv } := by
      simpa [openJob, dispatch] using hr'
    subst hr'
    refine ⟨h.le_sent, h.sent_le, h.asked_of_sent, fun _ ↦ hopen.2,
      fun hnone ↦ absurd hnone (Option.some_ne_none _), ?_, fun f hf ↦ ?_⟩
    · simpa using hrest
    · cases hf
      exact ⟨rfl, by simp [hcount], hfirst.symm⟩
  · -- a read job goes to the bank
    rw [if_neg hopen, List.nil_append] at hjobs
    split at hjobs
    next hlt =>
      rw [List.cons.injEq] at hjobs
      rcases hjobs with ⟨rfl, rfl⟩
      -- a read job behind the job of `open_files` finds the file open
      have hfile : r.file ≠ none := fun hnone ↦ hopen ⟨hnone, h.asked_of_sent (by omega)⟩
      have hr' : r' = { r with queue := [], pc := .lock (readJob capacity r.firstBank) } := by
        simpa [readJob, dispatch, Nat.ne_of_gt hcapacity, Option.isSome_iff_ne_none.mpr hfile]
          using hr'
      have hopened := h.opened
      unfold done at hopened
      rw [hpc] at hopened
      subst hr'
      exact ⟨h.le_sent, h.sent_le, h.asked_of_sent, h.asked_of_file, h.unopened,
        ⟨rfl, hlt, rfl, hfile⟩, hopened⟩
    next => cases hjobs

theorem lockBank (h : r.Follows capacity name asked sent) (hlock : r.lockBank = some r') :
    r'.Follows capacity name asked sent := by
  rcases lockBank_cases hlock with ⟨job, hpc, rfl⟩
  have hjobs := h.jobs
  have hopened := h.opened
  unfold done at hopened
  rw [hpc] at hjobs hopened
  exact ⟨h.le_sent, h.sent_le, h.asked_of_sent, h.asked_of_file, h.unopened, hjobs, hopened⟩

theorem readFile (h : r.Follows capacity name asked sent) {res : Option (List UInt8)}
    (hread : r.readFile capacity res = some r') : r'.Follows capacity name asked sent := by
  rcases readFile_cases hread with ⟨job, f, hpc, hfile, hr'⟩
  have hjobs := h.jobs
  have hopened := h.opened f hfile
  unfold done at hopened
  rw [hpc] at hjobs hopened
  rcases hjobs with ⟨rfl, hlt, hqueue, -⟩
  have hasked := h.asked_of_sent (by omega)
  rcases hr' with ⟨bytes, -, -, rfl⟩ | ⟨-, rfl⟩
  all_goals
    refine ⟨h.le_sent, h.sent_le, h.asked_of_sent, fun _ ↦ hasked,
      fun hnone ↦ absurd hnone (Option.some_ne_none _),
      ⟨rfl, hlt, hqueue, Option.some_ne_none _⟩, fun f' hf' ↦ ?_⟩
    cases hf'
    refine ⟨hopened.1, hopened.2.1, ?_⟩
    rw [List.length_append, hopened.2.2]
    rfl

theorem sendAck (h : r.Follows capacity name asked sent) (hack : r.sendAck = some (job, r')) :
    r'.Follows capacity name asked sent ∧ job.offset = r.firstBank * capacity ∧
      r'.firstBank = r.firstBank + 1 := by
  rcases sendAck_cases hack with ⟨hpc, rfl⟩
  have hjobs := h.jobs
  have hopened := h.opened
  have hsent := h.sent_le
  unfold done at hopened
  rw [hpc] at hjobs hopened
  rcases hjobs with ⟨hoffset, hlt, hqueue, hfile⟩
  refine ⟨⟨hlt, ?_, h.asked_of_sent, h.asked_of_file, fun hnone ↦ absurd hnone hfile, ?_,
    hopened⟩, hoffset, rfl⟩
  · show sent ≤ r.firstBank + 1 + 1
    omega
  · show r.queue = _
    dsimp only
    rw [hqueue, if_neg (fun h ↦ hfile h.1), if_neg (by omega)]
    rfl

end Follows

/-! ## The banks -/

/-- The last two successful reads are still in the banks. -/
def Keeps (r : EceReader) : Prop :=
  ∀ f t bytes, r.file = some f → f.reads[t]? = some (some bytes) → f.reads.length ≤ t + 2 →
    (r.banks (slot t)).len = bytes.length ∧ (r.banks (slot t)).buffer.take bytes.length = bytes

namespace Keeps

variable {r r' : EceReader} {job : EceJob}

theorem new (capacity : ℕ) : (EceReader.new capacity).Keeps := fun _ _ _ hf ↦ by cases hf

theorem of_eq (h : r.Keeps) (hfile : r'.file = r.file) (hbanks : r'.banks = r.banks) :
    r'.Keeps := by
  unfold Keeps
  rw [hfile, hbanks]
  exact h

theorem recv {opened : Bool} (h : r.Keeps) (hrecv : r.recv opened = some r') : r'.Keeps := by
  rcases recv_cases hrecv with ⟨job, queue, -, -, hr'⟩
  rcases hr' with ⟨-, rfl⟩ | ⟨-, -, rfl⟩ | ⟨-, name, -, ⟨-, rfl⟩ | ⟨-, rfl⟩⟩
  · exact h
  · apply h.of_eq <;> simp
  · -- a file just opened has no reads
    intro f t bytes hf hread
    rw [dispatch_file] at hf
    cases hf
    cases hread
  · exact h

theorem lockBank (h : r.Keeps) (hlock : r.lockBank = some r') : r'.Keeps := by
  rcases lockBank_cases hlock with ⟨job, -, rfl⟩
  exact h

/-- A read fills the bank that holds the read before the last. -/
theorem readFile {capacity : ℕ} {res : Option (List UInt8)} (h : r.Keeps)
    (hcount : ∀ f, r.file = some f → f.reads.length = r.firstBank)
    (hread : r.readFile capacity res = some r') : r'.Keeps := by
  rcases readFile_cases hread with ⟨job, f, -, hfile, hr'⟩
  have hlength := hcount f hfile
  intro f' t bytes hf' hreads hrecent
  -- every read but the new one is an old one
  have hold : ∀ {bytes}, t ≠ r.firstBank → f' = { f with reads := f.reads ++ [res] } →
      f'.reads[t]? = some (some bytes) → f'.reads.length ≤ t + 2 →
      slot t ≠ slot r.firstBank ∧ (r.banks (slot t)).len = bytes.length ∧
        (r.banks (slot t)).buffer.take bytes.length = bytes := by
    intro bytes hne heq hreads hrecent
    subst heq
    rw [List.length_append, List.length_singleton, hlength] at hrecent
    have hlt : t < f.reads.length := by
      rcases List.getElem?_eq_some_iff.mp hreads with ⟨hlt, -⟩
      rw [List.length_append, List.length_singleton, hlength] at hlt
      omega
    rw [List.getElem?_append_left hlt] at hreads
    refine ⟨?_, h f t bytes hfile hreads (by omega)⟩
    rw [slot_eq, slot_eq]
    omega
  rcases hr' with ⟨read, rfl, hlen, rfl⟩ | ⟨rfl, rfl⟩
  · cases hf'
    by_cases ht : t = r.firstBank
    · subst ht
      rw [← hlength, List.getElem?_concat_length] at hreads
      cases hreads
      -- the read itself, in the bank it filled
      dsimp only
      rw [Function.update_self]
      exact ⟨rfl, List.take_left⟩
    · rcases hold ht rfl hreads hrecent with ⟨hslot, hbank⟩
      -- the read before it, in the other bank
      dsimp only
      rw [Function.update_of_ne hslot]
      exact hbank
  · cases hf'
    by_cases ht : t = r.firstBank
    · subst ht
      rw [← hlength, List.getElem?_concat_length] at hreads
      cases hreads
    · exact (hold ht rfl hreads hrecent).2

theorem sendAck (h : r.Keeps) (hack : r.sendAck = some (job, r')) : r'.Keeps := by
  rcases sendAck_cases hack with ⟨-, rfl⟩
  exact h

end Keeps

end EceReader

end Divers.DoubleBuffering
