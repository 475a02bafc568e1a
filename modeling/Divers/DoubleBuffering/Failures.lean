import Divers.DoubleBuffering.Opening
import Mathlib.Data.List.Basic

/-! Reads that fail: the acknowledgement says 0, but the bank keeps the length of the read before
it. -/

open Divers.Library

namespace Divers.DoubleBuffering

/-! ## Lengths by the outcomes of the reads -/

/-- What the acknowledgement of a read says. -/
def readLen (res : Option (List UInt8)) : ℕ := (res.getD []).length

/-- The length that bank `s` shows after these reads: that of the last one into it that
succeeded. -/
def bankLen (reads : List (Option (List UInt8))) (s : ℕ) : ℕ :=
  reads.zipIdx.foldl
    (fun len (res, t) ↦ if slot t = s then (res.map List.length).getD len else len) 0

/-- The length that the rounds before `t` have left in the bank of round `t`. -/
def staleLen (reads : List (Option (List UInt8))) (t : ℕ) : ℕ := bankLen (reads.take t) (slot t)

section Lengths

variable (reads : List (Option (List UInt8))) (res : Option (List UInt8)) (s : ℕ)

theorem bankLen_append : bankLen (reads ++ [res]) s =
    if slot reads.length = s then (res.map List.length).getD (bankLen reads s)
    else bankLen reads s := by
  unfold bankLen
  rw [List.zipIdx_append, List.foldl_append, Nat.zero_add]
  rfl

/-- The next read goes to the other bank. -/
theorem bankLen_recent {reads : List (Option (List UInt8))} {t : ℕ} (hlt : t < reads.length)
    (hrecent : reads.length ≤ t + 2) :
    bankLen reads (slot t) = (reads[t].map List.length).getD (staleLen reads t) := by
  have hthis : bankLen (reads.take (t + 1)) (slot t) =
      (reads[t].map List.length).getD (staleLen reads t) := by
    rw [List.take_succ_eq_append_getElem hlt, bankLen_append, List.length_take_of_le (by omega),
      if_pos rfl]
    rfl
  rw [← hthis]
  by_cases hlast : reads.length = t + 1
  · rw [← hlast, List.take_length]
  · have hnext : t + 1 < reads.length := by omega
    have hreads : reads = reads.take (t + 1) ++ [reads[t + 1]] := by
      rw [← List.take_succ_eq_append_getElem hnext, List.take_of_length_le hrecent]
    have hother : slot (t + 1) ≠ slot t := by
      rw [slot_eq, slot_eq]
      omega
    conv_lhs => rw [hreads]
    rw [bankLen_append, List.length_take_of_le (by omega), if_neg hother]

/-- A failed read tells the truth only over an empty bank. -/
theorem bankLen_eq_iff : (res.map List.length).getD s = readLen res ↔ (res = none → s = 0) := by
  cases res with
  | none => simp [readLen]
  | some bytes => simp [readLen]

end Lengths

/-! ## One thread -/

namespace EceReader

/-- The reads of the file that is open. -/
def reads (r : EceReader) : List (Option (List UInt8)) := (r.file.map EceFile.reads).getD []

/-- The banks show what the reads have left there, and a read that has been done is acknowledged
with its own length. -/
structure Shows (r : EceReader) : Prop where
  banks : ∀ s, (r.banks s).len = bankLen r.reads s
  answer : ∀ job, r.pc = .ack job → (r.reads[r.firstBank]?).map readLen = some job.len

namespace Shows

variable {capacity sent : ℕ} {name : String} {asked : Bool} {r r' : EceReader} {job : EceJob}

theorem new (capacity : ℕ) : (EceReader.new capacity).Shows :=
  ⟨fun _ ↦ rfl, fun _ hpc ↦ by cases hpc⟩

theorem of_eq (h : r.Shows) (hfile : r'.reads = r.reads) (hbanks : r'.banks = r.banks)
    (hpc : ∀ job, r'.pc ≠ .ack job) : r'.Shows := by
  refine ⟨fun s ↦ ?_, fun job heq ↦ absurd heq (hpc job)⟩
  rw [hbanks, hfile]
  exact h.banks s

end Shows

variable {capacity sent : ℕ} {name : String} {asked : Bool} {r r' : EceReader} {job : EceJob}

/-- The one file of the call is opened before the first read. -/
theorem Follows.recv_reads (h : r.Follows capacity name asked sent) {opened : Bool}
    (hrecv : r.recv opened = some r') : r'.reads = r.reads := by
  obtain ⟨job, queue, hpc, hqueue, heq⟩ := recv_cases hrecv
  have hjobs := h.jobs
  rw [hpc] at hjobs
  simp only [hqueue] at hjobs
  obtain ⟨-, rfl⟩ | ⟨-, -, rfl⟩ | ⟨-, name', hname, ⟨-, rfl⟩ | ⟨-, rfl⟩⟩ := heq
  · rfl
  · unfold reads
    rw [dispatch_file]
  · unfold reads
    rw [dispatch_file]
    split at hjobs
    next hopen =>
      rw [hopen.1]
      rfl
    next =>
      -- a read job names no file
      rw [List.nil_append] at hjobs
      split at hjobs
      next =>
        rw [(List.cons.inj hjobs).1] at hname
        cases hname
      next => exact absurd hjobs (List.cons_ne_nil _ _)
  · rfl

theorem readFile_reads {res : Option (List UInt8)} (hread : r.readFile capacity res = some r') :
    r'.reads = r.reads ++ [res] := by
  obtain ⟨job, f, -, hfile, ⟨bytes, -, -, rfl⟩ | ⟨-, rfl⟩⟩ := readFile_cases hread
  all_goals
    unfold reads
    rw [hfile]
    rfl

namespace Shows

theorem recv (h : r.Shows) (hfollows : r.Follows capacity name asked sent) {opened : Bool}
    (hrecv : r.recv opened = some r') : r'.Shows := by
  have hbanks : r'.banks = r.banks ∧ ∀ job, r'.pc ≠ .ack job := by
    obtain ⟨job, queue, -, -, heq⟩ := recv_cases hrecv
    obtain ⟨-, rfl⟩ | ⟨-, -, rfl⟩ | ⟨-, name', -, ⟨-, rfl⟩ | ⟨-, rfl⟩⟩ := heq
    · exact ⟨rfl, fun _ hpc ↦ by cases hpc⟩
    · exact ⟨dispatch_banks .., dispatch_pc _ _⟩
    · exact ⟨dispatch_banks .., dispatch_pc _ _⟩
    · exact ⟨rfl, fun _ hpc ↦ by cases hpc⟩
  exact h.of_eq (hfollows.recv_reads hrecv) hbanks.1 hbanks.2

theorem lockBank (h : r.Shows) (hlock : r.lockBank = some r') : r'.Shows := by
  obtain ⟨job, -, rfl⟩ := lockBank_cases hlock
  exact h.of_eq rfl rfl fun _ hpc ↦ by cases hpc

theorem sendAck (h : r.Shows) (hack : r.sendAck = some (job, r')) : r'.Shows := by
  obtain ⟨-, rfl⟩ := sendAck_cases hack
  exact h.of_eq rfl rfl fun _ hpc ↦ by cases hpc

theorem readFile (h : r.Shows) (hcount : r.reads.length = r.firstBank)
    {res : Option (List UInt8)} (hread : r.readFile capacity res = some r') : r'.Shows := by
  have hreads := readFile_reads hread
  have hget : ((r.reads ++ [res])[r.firstBank]?).map readLen = some (readLen res) := by
    rw [← hcount, List.getElem?_concat_length]
    rfl
  obtain ⟨job, f, -, -, ⟨bytes, rfl, -, rfl⟩ | ⟨rfl, rfl⟩⟩ := readFile_cases hread
  · refine ⟨fun s ↦ ?_, fun job' hjob' ↦ ?_⟩
    · rw [hreads, bankLen_append, hcount]
      dsimp only
      by_cases hs : s = slot r.firstBank
      · subst hs
        rw [Function.update_self, if_pos rfl]
        rfl
      · rw [Function.update_of_ne hs, if_neg (Ne.symm hs)]
        exact h.banks s
    · cases hjob'
      rw [hreads]
      exact hget
  · -- the bank is left as it was
    refine ⟨fun s ↦ ?_, fun job' hjob' ↦ ?_⟩
    · rw [hreads, bankLen_append]
      split
      next => exact h.banks s
      next => exact h.banks s
    · cases hjob'
      rw [hreads]
      exact hget

end Shows

end EceReader

/-! ## The first call -/

namespace EceWorker

variable {filenames : List String} {w w' : EceWorker} {e : Event} {nr capacity i j : ℕ}

/-- Every acknowledgement in flight or taken says what its read delivered. -/
structure Tells (w : EceWorker) : Prop where
  shows : ∀ j < w.nrsReaders, (w.readers j).Shows
  acks : ∀ a, a ∈ w.listener ∨ a ∈ w.acked → a.reader < w.nrsReaders ∧
    ∃ t, a.job.offset = t * w.capacity ∧
      ((w.readers a.reader).reads[t]?).map readLen = some a.job.len

/-- An acknowledgement is an old one or has just been sent. -/
theorem step_acks (hstep : w.step e = some w') {a : Ack} (ha : a ∈ w'.listener ∨ a ∈ w'.acked) :
    (a ∈ w.listener ∨ a ∈ w.acked) ∨
    a.reader < w.nrsReaders ∧ ∃ r, (w.readers a.reader).sendAck = some (a.job, r) := by
  have hcases := step_cases hstep
  cases e with
  | work filenames | drop =>
      rw [hcases.2] at ha
      exact Or.inl ha
  | main =>
      left
      cases mainStep_cases hcases with
      | @takeAck jobDone ack listener hmain hsome hlistener =>
          rw [hlistener]
          obtain ha | ha := ha
          · exact Or.inl (List.mem_cons_of_mem _ ha)
          · obtain ha | ha := List.mem_append.mp ha
            · exact Or.inr ha
            · exact Or.inl (List.mem_singleton.mp ha ▸ List.mem_cons_self)
      | @workEnd i inLoop hmain hend =>
          cases inLoop with
          | false => exact ha.imp_right fun ha ↦ absurd ha List.not_mem_nil
          | true => exact ha
      | endRound hmain hend => exact ha.imp_right fun ha ↦ absurd ha List.not_mem_nil
      | _ => exact ha
  | recv j opened | lock j | read j res =>
      obtain ⟨-, r, -, rfl⟩ := hcases
      exact Or.inl ha
  | ack j =>
      obtain ⟨hj, job, r, hr, rfl⟩ := hcases
      obtain ha | ha := ha
      · obtain ha | ha := List.mem_append.mp ha
        · exact Or.inl (Or.inl ha)
        · rw [List.mem_singleton.mp ha]
          exact Or.inr ⟨hj, r, hr⟩
      · exact Or.inl (Or.inr ha)

namespace FirstCall

/-- A step adds at most a read. -/
theorem reads_prefix (h : FirstCall filenames w) (hj : j < w.nrsReaders)
    (hstep : w.step e = some w') : (w.readers j).reads <+: (w'.readers j).reads := by
  obtain ⟨queue, heq⟩ | ⟨opened, -, hrecv⟩ | ⟨-, hlock⟩ | ⟨res, -, hread⟩ | ⟨job, -, hack⟩ :=
    step_readers hstep j
  · rw [heq]
    exact List.prefix_rfl
  · obtain ⟨name, -, hfollows⟩ := h.follows j hj
    rw [hfollows.recv_reads hrecv]
  · obtain ⟨job, -, heq⟩ := EceReader.lockBank_cases hlock
    rw [heq]
    exact List.prefix_rfl
  · rw [EceReader.readFile_reads hread]
    exact List.prefix_append ..
  · obtain ⟨-, heq⟩ := EceReader.sendAck_cases hack
    rw [heq]
    exact List.prefix_rfl

theorem tells_step (h : FirstCall filenames w) (htells : w.Tells) (hstep : w.step e = some w') :
    w'.Tells := by
  obtain ⟨hnrs, hcapacity⟩ := step_nrsReaders hstep
  refine ⟨fun j hj ↦ ?_, fun a ha ↦ ?_⟩
  · rw [hnrs] at hj
    have hold := htells.shows j hj
    obtain ⟨name, -, hfollows⟩ := h.follows j hj
    obtain ⟨queue, heq⟩ | ⟨opened, -, hrecv⟩ | ⟨-, hlock⟩ | ⟨res, -, hread⟩ | ⟨job, -, hack⟩ :=
      step_readers hstep j
    · rw [heq]
      exact ⟨hold.banks, hold.answer⟩
    · exact hold.recv hfollows hrecv
    · exact hold.lockBank hlock
    · refine hold.readFile ?_ hread
      obtain ⟨job, f, hpc, hfile, -⟩ := EceReader.readFile_cases hread
      have hlength := (hfollows.opened f hfile).2.2
      unfold EceReader.done at hlength
      rw [hpc] at hlength
      unfold EceReader.reads
      rw [hfile]
      exact hlength
    · exact hold.sendAck hack
  · rw [hnrs, hcapacity]
    have hread : ∃ t, a.reader < w.nrsReaders ∧ a.job.offset = t * w.capacity ∧
        ((w.readers a.reader).reads[t]?).map readLen = some a.job.len := by
      obtain hold | ⟨hreader, r, hack⟩ := step_acks hstep ha
      · obtain ⟨hreader, t, hboth⟩ := htells.acks a hold
        exact ⟨t, hreader, hboth⟩
      · obtain ⟨name, -, hfollows⟩ := h.follows a.reader hreader
        exact ⟨_, hreader, (hfollows.sendAck hack).2.1,
          (htells.shows a.reader hreader).answer a.job (EceReader.sendAck_cases hack).1⟩
    -- the read stays on record
    obtain ⟨t, hreader, hoffset, hlen⟩ := hread
    refine ⟨hreader, t, hoffset, ?_⟩
    obtain ⟨res, hres, hlen⟩ := Option.map_eq_some_iff.mp hlen
    obtain ⟨later, hlater⟩ := h.reads_prefix hreader hstep
    obtain ⟨hlt, -⟩ := List.getElem?_eq_some_iff.mp hres
    rw [← hlater, List.getElem?_append_left hlt, hres]
    exact congrArg some hlen

/-- The bank of the round shows what its read left there, and no later read has touched it. -/
theorem bank_len (h : FirstCall filenames w) (htells : w.Tells)
    (hmain : w.main = .processWriter i true) :
    ∃ res, (w.readers i).reads[w.round]? = some res ∧
      ((w.readers i).banks (slot w.bankRead)).len =
        (res.map List.length).getD (staleLen (w.readers i).reads w.round) := by
  have hphase := h.main
  rw [hmain] at hphase
  have hi : i < w.nrsReaders := hphase.2.1 rfl
  obtain ⟨name, -, hfollows⟩ := h.follows i hi
  have hfirst := h.firstBank i hi
  have hdone := hfollows.done_le
  simp only [EceWorker.sent, ackRound, hmain] at hfirst hdone
  cases hfile : (w.readers i).file with
  | none =>
      have := (hfollows.unopened hfile).1
      omega
  | some f =>
      have hreads : (w.readers i).reads = f.reads := by
        unfold EceReader.reads
        rw [hfile]
        rfl
      have hlength := (hfollows.opened f hfile).2.2
      have hlt : w.round < f.reads.length := by omega
      have hslot : slot w.bankRead = slot w.round := by
        rw [h.bankRead, slot_eq, slot_eq]
        omega
      rw [hslot, (htells.shows i hi).banks, hreads]
      exact ⟨_, List.getElem?_eq_getElem hlt, bankLen_recent hlt (by omega)⟩

/-- The one acknowledgement of the round carries the length of its read. -/
theorem acked_len (h : FirstCall filenames w) (htells : w.Tells) {a : Ack} (ha : a ∈ w.acked)
    {res : Option (List UInt8)} (hres : (w.readers a.reader).reads[w.round]? = some res) :
    a.job.len = readLen res := by
  obtain ⟨-, t, hoffset, hlen⟩ := htells.acks a (Or.inr ha)
  have ht : t = w.round := by
    rw [(h.acked a ha).2] at hoffset
    exact (Nat.eq_of_mul_eq_mul_right h.capacity hoffset).symm
  rw [ht, hres] at hlen
  exact (Option.some.inj hlen).symm

end FirstCall

/-! ## Runs -/

/-- The length that `process_writer` reads is the one acknowledged in that round, unless the read
of the round failed and an earlier round has left a length in the bank. -/
theorem work_run_len_iff (nr capacity : ℕ) (w : EceWorker)
    (hrun : Guarded step FirstWork (EceWorker.new nr capacity) w) (j : ℕ)
    (hmain : w.main = .processWriter j true) :
    (∃ a ∈ w.acked, a.reader = j) ∧
    ∀ a ∈ w.acked, a.reader = j → a.job.offset = w.round * capacity ∧
      (((w.readers j).banks (slot w.bankRead)).len = a.job.len ↔
        ((w.readers j).reads[w.round]? = some none →
          staleLen (w.readers j).reads w.round = 0)) := by
  obtain ⟨hnr, hcapacity, hone⟩ := run_oneCall hrun hmain
  obtain ⟨rfl, rfl⟩ := run_nrsReaders hrun
  have hinvariant : w = EceWorker.new w.nrsReaders w.capacity ∨
      ∃ filenames, FirstCall filenames w ∧ w.Tells := by
    apply hone.invariant (I := fun v ↦ v = EceWorker.new w.nrsReaders w.capacity ∨
      ∃ filenames, FirstCall filenames v ∧ v.Tells) (Or.inl rfl)
    intro v e v' hinv hallow hstep
    obtain rfl | ⟨filenames, h, htells⟩ := hinv
    · obtain ⟨filenames, -, henough, rfl⟩ := new_step hallow hstep
      exact Or.inr ⟨filenames, FirstCall.work hnr hcapacity henough,
        fun _ _ ↦ EceReader.Shows.new _, fun _ ha ↦ by obtain ha | ha := ha <;> cases ha⟩
    · exact Or.inr ⟨filenames, h.step hallow hstep, h.tells_step htells hstep⟩
  obtain hnew | ⟨filenames, h, htells⟩ := hinvariant
  · rw [hnew] at hmain
    cases hmain
  · have hphase := h.main
    rw [hmain] at hphase
    obtain ⟨-, hlt, hcomplete, -⟩ := hphase
    obtain ⟨res, hres, hlen⟩ := h.bank_len htells hmain
    refine ⟨?_, fun a ha hreader ↦ ⟨(h.acked a ha).2, ?_⟩⟩
    · have hmem : j ∈ w.acked.map Ack.reader := by
        rw [hcomplete.mem_iff]
        exact List.mem_range.mpr (hlt rfl)
      exact List.mem_map.mp hmem
    · subst hreader
      rw [hlen, h.acked_len htells ha hres, bankLen_eq_iff, hres, Option.some.injEq]

theorem work_run_len_iff_empty :
    ∃ w, Guarded step FirstWork (EceWorker.new 1 2) w ∧ w.main = .processWriter 0 true ∧
      (w.readers 0).reads[w.round]? = some none ∧
      ∀ a ∈ w.acked, a.reader = 0 → ((w.readers 0).banks (slot w.bankRead)).len = a.job.len := by
  have hround : ∃ w, exec step FirstWork (EceWorker.new 1 2)
      [.work ["a"], .main, .main, .main, .main, .recv 0 true, .recv 0 true, .lock 0,
        .read 0 none, .ack 0, .main, .main, .main, .main] = some w ∧
      w.main = .processWriter 0 true ∧ w.round = 0 ∧ (w.readers 0).reads = [none] :=
    ⟨_, rfl, rfl, rfl, rfl⟩
  obtain ⟨w, hexec, hmain, hzero, hreads⟩ := hround
  have hrun := Guarded.of_exec hexec
  refine ⟨w, hrun, hmain, by rw [hzero, hreads]; rfl, fun a ha hreader ↦ ?_⟩
  refine (((work_run_len_iff 1 2 w hrun 0 hmain).2 a ha hreader).2).mpr fun _ ↦ ?_
  rw [hzero, hreads]
  rfl

/-- The third read fails: the bank still shows the length of the first. -/
theorem work_run_len_stale :
    ¬ ∀ (nr capacity : ℕ) (w : EceWorker),
      Guarded step FirstWork (EceWorker.new nr capacity) w →
      ∀ j, w.main = .processWriter j true → ∀ a ∈ w.acked, a.reader = j →
        ((w.readers j).banks (slot w.bankRead)).len = a.job.len := by
  intro hclaim
  have hcall : ∃ w, exec step FirstWork (EceWorker.new 1 1)
      [.work ["a"], .main, .main, .main, .main, .recv 0 true, .recv 0 true, .lock 0,
        .read 0 (some [1]), .ack 0, .main, .main, .main, .main, .main, .main,
        .recv 0 true, .lock 0, .read 0 (some [2]), .ack 0, .main, .main, .main, .main, .main, .main,
        .recv 0 true, .lock 0, .read 0 none, .ack 0, .main, .main, .main, .main] = some w ∧
      w.main = .processWriter 0 true ∧ w.acked = [⟨0, 2, 0, false, none⟩] ∧
      ((w.readers 0).banks (slot w.bankRead)).len = 1 := ⟨_, rfl, rfl, rfl, rfl⟩
  obtain ⟨w, hexec, hmain, hacked, hlen⟩ := hcall
  have hsame := hclaim 1 1 w (Guarded.of_exec hexec) 0 hmain _
    (by rw [hacked]; exact List.mem_singleton_self _) rfl
  rw [hlen] at hsame
  cases hsame

end EceWorker

end Divers.DoubleBuffering
