import Divers.DoubleBuffering.Reader
import Mathlib.Data.List.Range
import Mathlib.Data.List.Perm.Subperm
import Mathlib.Data.List.NodupEquivFin

/-! The first call of `work`: what the counters of the threads say about each other. -/

open Divers.Library

namespace Divers.DoubleBuffering

/-! ## Counting -/

theorem nodup_of_count_le_one {l : List ℕ} {n : ℕ} (hlt : ∀ j ∈ l, j < n)
    (hcount : ∀ j < n, l.count j ≤ 1) : l.Nodup := by
  rw [List.nodup_iff_count_le_one]
  intro j
  by_cases hj : j ∈ l
  · exact hcount j (hlt j hj)
  · rw [List.count_eq_zero_of_not_mem hj]
    exact Nat.zero_le 1

theorem subperm_range_of_count_le_one {l : List ℕ} {n : ℕ} (hlt : ∀ j ∈ l, j < n)
    (hcount : ∀ j < n, l.count j ≤ 1) : l.Subperm (List.range n) :=
  List.subperm_of_subset (nodup_of_count_le_one hlt hcount) fun j hj ↦
    List.mem_range.mpr (hlt j hj)

namespace EceWorker

/-! ## What the main thread has done -/

/-- The main thread has sent reader `j` the file to open. -/
def asked (w : EceWorker) (j : ℕ) : Bool :=
  match w.main with
  | .openFiles _ i => j < i
  | _ => true

/-- The round of the acknowledgements that the channel may hold. -/
def ackRound (w : EceWorker) : ℕ :=
  match w.main with
  | .sendWork _ true | .processWriter _ _ => w.round + 1
  | _ => w.round

/-- The read jobs sent to reader `j`. -/
def sent (w : EceWorker) (j : ℕ) : ℕ :=
  match w.main with
  | .openFiles _ _ => w.ackRound
  | .sendWork i _ => w.ackRound + if j < i then 1 else 0
  | _ => w.ackRound + 1

/-- The acknowledgements of this round that `wait_readers` has taken from reader `j`. -/
def taken (w : EceWorker) (j : ℕ) : ℕ :=
  match w.main with
  | .waitReaders _ => (w.acked.map Ack.reader).count j
  | _ => 0

/-- One acknowledgement of every reader. -/
def Complete (w : EceWorker) : Prop := (w.acked.map Ack.reader).Perm (List.range w.nrsReaders)

structure FirstCall (filenames : List String) (w : EceWorker) : Prop where
  readers : 0 < w.nrsReaders
  capacity : 0 < w.capacity
  enough : w.nrsReaders ≤ filenames.length
  calls : w.calls = 1
  follows : ∀ j < w.nrsReaders, ∃ name, filenames[j]? = some name ∧
    (w.readers j).Follows w.capacity name (w.asked j) (w.sent j)
  firstBank : ∀ j < w.nrsReaders, (w.readers j).firstBank =
    w.ackRound + w.taken j + (w.listener.map Ack.reader).count j
  listener : ∀ a ∈ w.listener, a.reader < w.nrsReaders ∧ a.job.offset = w.ackRound * w.capacity
  acked : ∀ a ∈ w.acked, a.reader < w.nrsReaders ∧ a.job.offset = w.round * w.capacity
  bankRead : w.bankRead = slot w.round
  main :
    match w.main with
    | .openFiles rest i =>
        rest = filenames.drop i ∧ i ≤ w.nrsReaders ∧ w.round = 0 ∧ w.offset = 0
    | .sendWork i inLoop =>
        i ≤ w.nrsReaders ∧ w.offset = w.ackRound * w.capacity ∧
          if inLoop then w.Complete else w.round = 0
    | .waitReaders jobDone =>
        jobDone = w.acked.length ∧ jobDone < w.nrsReaders ∧
          w.offset = (w.ackRound + 1) * w.capacity
    | .processWriter i locked =>
        i ≤ w.nrsReaders ∧ (locked = true → i < w.nrsReaders) ∧ w.Complete ∧
          w.offset = (w.ackRound + 1) * w.capacity
    | .idle => True
    | _ => False

/-- The scheduler is free, but `work` is called on a fresh worker only, with a file for every
reader, and the files open. -/
def OneCall (w : EceWorker) : Event → Prop
  | .work filenames => w.calls = 0 ∧ w.nrsReaders ≤ filenames.length
  | .drop => False
  | .recv _ opened => opened = true
  | _ => True

instance (w : EceWorker) : (e : Event) → Decidable (w.OneCall e)
  | .work filenames => inferInstanceAs (Decidable (w.calls = 0 ∧ w.nrsReaders ≤ filenames.length))
  | .drop => inferInstanceAs (Decidable False)
  | .recv _ opened => inferInstanceAs (Decidable (opened = true))
  | .main | .lock _ | .read _ _ | .ack _ => inferInstanceAs (Decidable True)

namespace FirstCall

variable {filenames : List String} {w w' : EceWorker} {nr capacity i j : ℕ}

theorem work (hnr : 0 < nr) (hcapacity : 0 < capacity) (hfilenames : nr ≤ filenames.length) :
    FirstCall filenames ((EceWorker.new nr capacity).work filenames) where
  readers := hnr
  capacity := hcapacity
  enough := hfilenames
  calls := rfl
  follows j hj := by
    have hlt : j < filenames.length := Nat.lt_of_lt_of_le hj hfilenames
    exact ⟨filenames[j], List.getElem?_eq_getElem hlt, EceReader.Follows.new⟩
  firstBank _ _ := rfl
  listener _ h := absurd h List.not_mem_nil
  acked _ h := absurd h List.not_mem_nil
  bankRead := (slot_eq 0).symm
  main := ⟨rfl, Nat.zero_le _, rfl, rfl⟩

/-! ### The reader threads -/

/-- A step of one thread that sends no acknowledgement. -/
theorem setReader (h : FirstCall filenames w) {r : EceReader}
    (hfollows : ∀ name, (w.readers j).Follows w.capacity name (w.asked j) (w.sent j) →
      r.Follows w.capacity name (w.asked j) (w.sent j))
    (hfirstBank : r.firstBank = (w.readers j).firstBank) :
    FirstCall filenames (w.setReader j r) where
  readers := h.readers
  capacity := h.capacity
  enough := h.enough
  calls := h.calls
  follows :=
    setReader_forall (P := fun k r ↦ ∃ name, filenames[k]? = some name ∧
        r.Follows w.capacity name (w.asked k) (w.sent k)) h.follows
      fun ⟨name, hname, hold⟩ ↦ ⟨name, hname, hfollows name hold⟩
  firstBank :=
    setReader_forall (P := fun k r ↦ r.firstBank =
        w.ackRound + w.taken k + (w.listener.map Ack.reader).count k) h.firstBank
      fun hold ↦ hfirstBank.trans hold
  listener := h.listener
  acked := h.acked
  bankRead := h.bankRead
  main := h.main

theorem ack (h : FirstCall filenames w) (hj : j < w.nrsReaders) {job : EceJob} {r : EceReader}
    (hack : (w.readers j).sendAck = some (job, r)) :
    FirstCall filenames { w.setReader j r with listener := w.listener ++ [⟨j, job⟩] } := by
  rcases h.follows j hj with ⟨name, hname, hfollows⟩
  rcases hfollows.sendAck hack with ⟨hfollows', hoffset, hfirst⟩
  -- the thread had not acknowledged in this round
  have hround : (w.readers j).firstBank = w.ackRound := by
    have hbank := h.firstBank j hj
    have hle := hfollows'.le_sent
    have hsent : w.sent j ≤ w.ackRound + 1 := by
      unfold sent
      split
      · omega
      · split <;> omega
      · omega
    omega
  refine ⟨h.readers, h.capacity, h.enough, h.calls, fun k hk ↦ ?_, fun k hk ↦ ?_, fun a ha ↦ ?_,
    h.acked, h.bankRead, h.main⟩
  · rcases h.follows k hk with ⟨name', hname', hk'⟩
    refine ⟨name', hname', ?_⟩
    show Function.update w.readers j r k |>.Follows w.capacity name' (w.asked k) (w.sent k)
    by_cases hkj : k = j
    · subst hkj
      rw [hname] at hname'
      cases hname'
      rwa [Function.update_self]
    · rwa [Function.update_of_ne hkj]
  · show (Function.update w.readers j r k).firstBank =
      w.ackRound + w.taken k + ((w.listener ++ [(⟨j, job⟩ : Ack)]).map Ack.reader).count k
    have hbank := h.firstBank k hk
    rw [List.map_append, List.count_append]
    by_cases hkj : k = j
    · subst hkj
      rw [Function.update_self, hfirst, hbank]
      simp
      omega
    · rw [Function.update_of_ne hkj, hbank]
      simp [Ne.symm hkj]
  · rcases List.mem_append.mp ha with ha | ha
    · exact h.listener a ha
    · rw [List.mem_singleton] at ha
      subst ha
      exact ⟨hj, by rw [hoffset, hround]; rfl⟩

/-! ### The main thread -/

theorem openFiles (h : FirstCall filenames w) {rest : List String}
    (hmain : w.main = .openFiles rest i) : FirstCall filenames (w.openFiles rest i) := by
  have hphase := h.main
  rw [hmain] at hphase
  rcases hphase with ⟨hrest, hi, hround, hoffset⟩
  -- the invariant at this phase, its counters evaluated
  have hackRound : w.ackRound = w.round := by
    unfold ackRound
    rw [hmain]
  have hfollows : ∀ j < w.nrsReaders, ∃ name, filenames[j]? = some name ∧
      (w.readers j).Follows w.capacity name (j < i) 0 := by
    intro j hj
    have := h.follows j hj
    unfold asked sent at this
    simpa only [hmain, hackRound, hround] using this
  have hfirst : ∀ j < w.nrsReaders,
      (w.readers j).firstBank = (w.listener.map Ack.reader).count j := by
    intro j hj
    have := h.firstBank j hj
    unfold taken at this
    simpa only [hmain, hackRound, hround, Nat.zero_add] using this
  have hlistener := h.listener
  rw [hackRound] at hlistener
  by_cases hlt : i < w.nrsReaders
  · -- reader `i` gets its file
    have hlen : i < filenames.length := Nat.lt_of_lt_of_le hlt h.enough
    rw [List.drop_eq_getElem_cons hlen] at hrest
    have heq : w.openFiles rest i =
        { w.send i (openJob filenames[i]) with
          main := .openFiles (filenames.drop (i + 1)) (i + 1) } := by
      unfold EceWorker.openFiles
      rw [hrest]
      exact if_pos hlt
    rw [heq]
    refine ⟨h.readers, h.capacity, h.enough, h.calls, fun j hj ↦ ?_, fun j hj ↦ ?_, hlistener,
      h.acked, h.bankRead, ⟨rfl, hlt, hround, hoffset⟩⟩
    · rcases hfollows j hj with ⟨name, hname, hold⟩
      refine ⟨name, hname, ?_⟩
      show ((w.send i (openJob filenames[i])).readers j).Follows w.capacity name
        (decide (j < i + 1)) w.round
      rw [send_readers, hround]
      split
      next heq =>
        subst heq
        rw [List.getElem?_eq_getElem hlen, Option.some.injEq] at hname
        subst hname
        rw [decide_eq_false (Nat.lt_irrefl j)] at hold
        rw [decide_eq_true (Nat.lt_succ_self j)]
        exact hold.send_open
      next hne =>
        have hasked : decide (j < i + 1) = decide (j < i) := by
          rw [decide_eq_decide]
          omega
        rwa [hasked]
    · show ((w.send i (openJob filenames[i])).readers j).firstBank =
        w.round + 0 + (w.listener.map Ack.reader).count j
      rw [send_readers, hround, Nat.zero_add, ← hfirst j hj]
      split <;> rfl
  · -- every reader has its file
    have heq : w.openFiles rest i = { w with main := .sendWork 0 false } := by
      unfold EceWorker.openFiles
      split
      next => rfl
      next => exact if_neg hlt
    rw [heq]
    refine ⟨h.readers, h.capacity, h.enough, h.calls, fun j hj ↦ ?_, fun j hj ↦ ?_, hlistener,
      h.acked, h.bankRead, Nat.zero_le _, ?_, hround⟩
    · rcases hfollows j hj with ⟨name, hname, hold⟩
      refine ⟨name, hname, ?_⟩
      show (w.readers j).Follows w.capacity name true (w.round + 0)
      have hlt : j < i := by
        have : j < w.nrsReaders := hj
        omega
      rw [hround]
      rwa [decide_eq_true hlt] at hold
    · show (w.readers j).firstBank = w.round + 0 + (w.listener.map Ack.reader).count j
      rw [hround, Nat.zero_add, ← hfirst j hj]
    · show w.offset = w.round * w.capacity
      rw [hoffset, hround, Nat.zero_mul]

theorem sendWork (h : FirstCall filenames w) {inLoop : Bool}
    (hmain : w.main = .sendWork i inLoop) : FirstCall filenames (w.sendWork i inLoop) := by
  have hphase := h.main
  rw [hmain] at hphase
  rcases hphase with ⟨hi, hoffset, hround⟩
  have hackRound : w.ackRound = if inLoop then w.round + 1 else w.round := by
    unfold ackRound
    rw [hmain]
    cases inLoop <;> rfl
  have hfollows : ∀ j < w.nrsReaders, ∃ name, filenames[j]? = some name ∧
      (w.readers j).Follows w.capacity name true (w.ackRound + if j < i then 1 else 0) := by
    intro j hj
    have := h.follows j hj
    unfold asked sent at this
    simpa only [hmain] using this
  have hfirst : ∀ j < w.nrsReaders,
      (w.readers j).firstBank = w.ackRound + 0 + (w.listener.map Ack.reader).count j := by
    intro j hj
    have := h.firstBank j hj
    unfold taken at this
    simpa only [hmain] using this
  by_cases hlt : i < w.nrsReaders
  · -- reader `i` gets the read job of the round after its last acknowledgement
    have heq : w.sendWork i inLoop =
        { w.send i (readJob w.capacity w.ackRound) with main := .sendWork (i + 1) inLoop } := by
      unfold EceWorker.sendWork readJob
      rw [if_pos hlt, hoffset]
    have hackRound' : { w.send i (readJob w.capacity w.ackRound) with
        main := .sendWork (i + 1) inLoop }.ackRound = w.ackRound := by
      rw [hackRound]
      cases inLoop <;> rfl
    rw [heq]
    refine ⟨h.readers, h.capacity, h.enough, h.calls, fun j hj ↦ ?_, fun j hj ↦ ?_, ?_,
      h.acked, h.bankRead, hlt, ?_, hround⟩
    · rcases hfollows j hj with ⟨name, hname, hold⟩
      refine ⟨name, hname, ?_⟩
      show ((w.send i (readJob w.capacity w.ackRound)).readers j).Follows w.capacity name true
        (_ + if j < i + 1 then 1 else 0)
      rw [hackRound', send_readers]
      by_cases hji : j = i
      · -- the reader has acknowledged every job it was sent
        subst hji
        rw [if_neg (Nat.lt_irrefl j), Nat.add_zero] at hold
        rw [if_pos rfl, if_pos (Nat.lt_succ_self j)]
        apply hold.send_read
        have := hold.le_sent
        have := hfirst j hj
        omega
      · have hsame : (if j < i + 1 then 1 else 0) = if j < i then 1 else 0 := by
          split <;> split <;> omega
        rwa [if_neg hji, hsame]
    · show ((w.send i (readJob w.capacity w.ackRound)).readers j).firstBank =
        _ + 0 + (w.listener.map Ack.reader).count j
      rw [hackRound', ← hfirst j hj, send_readers]
      split <;> rfl
    · rw [hackRound']
      exact h.listener
    · rw [hackRound']
      exact hoffset
  · -- every reader has its job; only the next phase differs
    have hij : ∀ j < w.nrsReaders, j < i := by
      intro j hj
      omega
    have hlistener := h.listener
    have hbefore : ∀ j < w.nrsReaders, ∃ name, filenames[j]? = some name ∧
        (w.readers j).Follows w.capacity name true (w.ackRound + 1) := by
      intro j hj
      have := hfollows j hj
      rwa [if_pos (hij j hj)] at this
    have hnext : w.offset + w.capacity = (w.ackRound + 1) * w.capacity := by
      rw [hoffset, Nat.succ_mul]
    unfold EceWorker.sendWork
    rw [if_neg hlt]
    cases inLoop with
    | false =>
        rw [if_neg Bool.false_ne_true] at hackRound
        rw [hackRound] at hbefore hfirst hlistener hnext
        exact ⟨h.readers, h.capacity, h.enough, h.calls, hbefore, hfirst, hlistener,
          fun _ ha ↦ absurd ha List.not_mem_nil, h.bankRead, rfl, h.readers, hnext⟩
    | true =>
        rw [if_pos rfl] at hackRound
        rw [hackRound] at hbefore hfirst hlistener hnext
        exact ⟨h.readers, h.capacity, h.enough, h.calls, hbefore, hfirst, hlistener, h.acked,
          h.bankRead, Nat.zero_le _, fun h ↦ absurd h Bool.false_ne_true, hround, hnext⟩

theorem waitReaders (h : FirstCall filenames w) (hmain : w.main = .waitReaders i)
    (hwait : w.waitReaders i = some w') : FirstCall filenames w' := by
  have hphase := h.main
  rw [hmain] at hphase
  rcases hphase with ⟨hi, hlt, hoffset⟩
  have hackRound : w.ackRound = w.round := by
    unfold ackRound
    rw [hmain]
  have hfollows : ∀ j < w.nrsReaders, ∃ name, filenames[j]? = some name ∧
      (w.readers j).Follows w.capacity name true (w.round + 1) := by
    intro j hj
    have := h.follows j hj
    unfold asked sent at this
    simpa only [hmain, hackRound] using this
  have hfirst : ∀ j < w.nrsReaders, (w.readers j).firstBank =
      w.round + (w.acked.map Ack.reader).count j + (w.listener.map Ack.reader).count j := by
    intro j hj
    have := h.firstBank j hj
    unfold taken at this
    simpa only [hmain, hackRound] using this
  rw [hackRound] at hoffset
  unfold EceWorker.waitReaders at hwait
  rw [if_neg (Nat.ne_of_gt h.readers)] at hwait
  split at hwait
  next => cases hwait
  next a listener hlistener =>
    have ha := h.listener a (by simp [hlistener])
    have hacked : ∀ b ∈ w.acked ++ [a],
        b.reader < w.nrsReaders ∧ b.job.offset = w.round * w.capacity := by
      intro b hb
      rcases List.mem_append.mp hb with hb | hb
      · exact h.acked b hb
      · rw [List.mem_singleton.mp hb, ← hackRound]
        exact ha
    -- `a` moves from one list to the other
    have hfirst' : ∀ j < w.nrsReaders, (w.readers j).firstBank =
        w.round + ((w.acked ++ [a]).map Ack.reader).count j +
          (listener.map Ack.reader).count j := by
      intro j hj
      rw [hfirst j hj, hlistener, List.map_append, List.count_append, List.map_cons,
        List.count_cons, List.map_singleton, List.count_singleton]
      omega
    -- a reader was sent one job more than it has acknowledged in earlier rounds
    have hone : ∀ j < w.nrsReaders,
        ((w.acked ++ [a]).map Ack.reader).count j + (listener.map Ack.reader).count j ≤ 1 := by
      intro j hj
      rcases hfollows j hj with ⟨name, -, hold⟩
      have := hold.le_sent
      have := hfirst' j hj
      omega
    cases hwait
    split
    next hlast =>
      -- every reader has acknowledged, so the channel is empty
      have hcomplete : ((w.acked ++ [a]).map Ack.reader).Perm (List.range w.nrsReaders) := by
        apply (subperm_range_of_count_le_one _ _).perm_of_length_le
        · rw [List.length_range, List.length_map, List.length_append, List.length_singleton]
          omega
        · intro j hj
          rcases List.mem_map.mp hj with ⟨b, hb, rfl⟩
          exact (hacked b hb).1
        · intro j hj
          have := hone j hj
          omega
      have hcount : ∀ j < w.nrsReaders, ((w.acked ++ [a]).map Ack.reader).count j = 1 := by
        intro j hj
        rw [hcomplete.count_eq, List.count_range, if_pos hj]
      have hempty : listener = [] := by
        apply List.eq_nil_iff_forall_not_mem.mpr
        intro b hb
        have hlt := (h.listener b (by simp [hlistener, hb])).1
        have hpos := List.count_pos_iff.mpr (List.mem_map_of_mem (f := Ack.reader) hb)
        have := hone b.reader hlt
        have := hcount b.reader hlt
        omega
      subst hempty
      refine ⟨h.readers, h.capacity, h.enough, h.calls, hfollows, fun j hj ↦ ?_,
        fun _ hb ↦ absurd hb List.not_mem_nil, hacked, h.bankRead, Nat.zero_le _, hoffset,
        hcomplete⟩
      show (w.readers j).firstBank = w.round + 1 + 0 + 0
      rw [hfirst' j hj, hcount j hj]
      rfl
    next hmore =>
      refine ⟨h.readers, h.capacity, h.enough, h.calls, hfollows, hfirst', fun b hb ↦ ?_, hacked,
        h.bankRead, ?_, ?_, hoffset⟩
      · have := h.listener b (by simp [hlistener, hb])
        rwa [hackRound] at this
      · rw [List.length_append, List.length_singleton, hi]
      · show i + 1 < w.nrsReaders
        omega

theorem processWriter (h : FirstCall filenames w) {locked : Bool}
    (hmain : w.main = .processWriter i locked) (hprocess : w.processWriter i locked = some w') :
    FirstCall filenames w' := by
  have hphase := h.main
  rw [hmain] at hphase
  rcases hphase with ⟨hi, hlock, hcomplete, hoffset⟩
  have hackRound : w.ackRound = w.round + 1 := by
    unfold ackRound
    rw [hmain]
  have hfollows : ∀ j < w.nrsReaders, ∃ name, filenames[j]? = some name ∧
      (w.readers j).Follows w.capacity name true (w.round + 1 + 1) := by
    intro j hj
    have := h.follows j hj
    unfold asked sent at this
    simpa only [hmain, hackRound] using this
  have hfirst : ∀ j < w.nrsReaders,
      (w.readers j).firstBank = w.round + 1 + 0 + (w.listener.map Ack.reader).count j := by
    intro j hj
    have := h.firstBank j hj
    unfold taken at this
    simpa only [hmain, hackRound] using this
  have hlistener := h.listener
  rw [hackRound] at hlistener hoffset
  unfold EceWorker.processWriter at hprocess
  split at hprocess
  next hlocked =>
    cases hprocess
    exact ⟨h.readers, h.capacity, h.enough, h.calls, hfollows, hfirst, hlistener, h.acked,
      h.bankRead, hlock hlocked, fun h ↦ absurd h Bool.false_ne_true, hcomplete, hoffset⟩
  next =>
  split at hprocess
  next hlt =>
    split at hprocess
    next => cases hprocess
    next =>
      cases hprocess
      exact ⟨h.readers, h.capacity, h.enough, h.calls, hfollows, hfirst, hlistener, h.acked,
        h.bankRead, hi, fun _ ↦ hlt, hcomplete, hoffset⟩
  next =>
    -- the end of the round
    cases hprocess
    -- `bank_read` and the round keep the same parity
    have hbank : (w.bankRead + 1) &&& 1 = slot (w.round + 1) := by
      rw [h.bankRead]
      show slot (slot w.round + 1) = _
      rw [slot_eq, slot_eq, slot_eq]
      omega
    split
    next =>
      exact ⟨h.readers, h.capacity, h.enough, h.calls, hfollows, hfirst, hlistener,
        fun _ ha ↦ absurd ha List.not_mem_nil, hbank, trivial⟩
    next =>
      exact ⟨h.readers, h.capacity, h.enough, h.calls, hfollows, hfirst, hlistener,
        fun _ ha ↦ absurd ha List.not_mem_nil, hbank, rfl, h.readers, hoffset⟩

/-! ### Steps and runs -/

/-- The call that is going on is the only one. -/
theorem not_work (h : FirstCall filenames w) {e : Event} (hallow : w.OneCall e) :
    ∀ names, e ≠ .work names := by
  intro names heq
  subst heq
  have hfirst := h.calls
  have hnone := hallow.1
  omega

theorem step (h : FirstCall filenames w) {e : Event} (hallow : w.OneCall e)
    (hstep : w.step e = some w') : FirstCall filenames w' := by
  cases e with
  | work names => exact absurd rfl (h.not_work hallow names)
  | drop => exact hallow.elim
  | main =>
      have hphase := h.main
      have hcases : w.mainStep = some w' := step_cases hstep
      unfold mainStep at hcases
      cases hmain : w.main with
      | openFiles rest i =>
          rw [hmain] at hcases
          cases hcases
          exact h.openFiles hmain
      | sendWork i inLoop =>
          rw [hmain] at hcases
          cases hcases
          exact h.sendWork hmain
      | waitReaders jobDone =>
          rw [hmain] at hcases
          exact h.waitReaders hmain hcases
      | processWriter i locked =>
          rw [hmain] at hcases
          exact h.processWriter hmain hcases
      | idle =>
          rw [hmain] at hcases
          cases hcases
      | dropSend i | dropJoin i | dropped | panicked =>
          rw [hmain] at hphase
          exact hphase.elim
  | recv j opened =>
      cases hallow
      rcases step_cases hstep with ⟨-, r, hrecv, rfl⟩
      exact h.setReader (fun name hold ↦ hold.recv h.capacity hrecv)
        (EceReader.recv_firstBank hrecv)
  | lock j =>
      rcases step_cases hstep with ⟨-, r, hlock, rfl⟩
      exact h.setReader (fun name hold ↦ hold.lockBank hlock) (EceReader.lockBank_firstBank hlock)
  | read j res =>
      rcases step_cases hstep with ⟨-, r, hread, rfl⟩
      exact h.setReader (fun name hold ↦ hold.readFile hread) (EceReader.readFile_firstBank hread)
  | ack j =>
      rcases step_cases hstep with ⟨hj, job, r, hack, rfl⟩
      exact h.ack hj hack

end FirstCall

end EceWorker

end Divers.DoubleBuffering
