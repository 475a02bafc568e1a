import Divers.DoubleBuffering.Coverage

/-! What `process_writer` prints: whole banks, of which the read of the round has filled the
beginning, and U+FFFD for what is no character in them. -/

open Divers.Library

namespace Divers.DoubleBuffering

/-! ## Sizes of banks -/

theorem EceBuffer.fill_length {b : EceBuffer} {bytes : List UInt8} {capacity : ℕ}
    (hsize : b.buffer.length = capacity) (hlen : bytes.length ≤ capacity) :
    (b.fill bytes).buffer.length = capacity := by
  show (bytes ++ b.buffer.drop bytes.length).length = capacity
  rw [List.length_append, List.length_drop]
  omega

/-- The banks keep the size they were built with. -/
def EceReader.Sized (capacity : ℕ) (r : EceReader) : Prop :=
  ∀ s, (r.banks s).buffer.length = capacity

theorem EceReader.Sized.new (capacity : ℕ) : (EceReader.new capacity).Sized capacity :=
  fun _ ↦ List.length_replicate

theorem EceReader.Sized.readFile {capacity : ℕ} {r r' : EceReader} {res : Option (List UInt8)}
    (h : r.Sized capacity) (hread : r.readFile capacity res = some r') : r'.Sized capacity := by
  obtain ⟨job, f, -, -, ⟨bytes, -, hlen, rfl⟩ | ⟨-, rfl⟩⟩ := readFile_cases hread
  · intro s
    show (Function.update r.banks (slot r.firstBank) _ s).buffer.length = capacity
    by_cases hs : s = slot r.firstBank
    · subst hs
      rw [Function.update_self]
      exact EceBuffer.fill_length (h _) hlen
    · rw [Function.update_of_ne hs]
      exact h s
  · exact h

namespace EceWorker

variable {content : String → List UInt8} {filenames : List String} {w w' : EceWorker} {e : Event}
  {nr capacity i j : ℕ}

theorem sized_step (h : (w.readers j).Sized w.capacity) (hstep : w.step e = some w') :
    (w'.readers j).Sized w'.capacity := by
  rw [(step_nrsReaders hstep).2]
  obtain hsame | ⟨res, hread⟩ := step_banks hstep j
  · unfold EceReader.Sized
    rw [hsame]
    exact h
  · exact h.readFile hread

/-! ## Lines -/

/-- The bytes of the line are those that the read of its round obtained. -/
def Exact (w : EceWorker) (line : Line) : Prop :=
  ∃ f bytes, (w.readers line.reader).file = some f ∧
    f.reads[line.round]? = some (some bytes) ∧ line.printed = println bytes

/-- One line for every round of every reader: it shows the bank, which begins with the chunk of that
round. -/
structure Prints (content : String → List UInt8) (filenames : List String) (w : EceWorker) :
    Prop extends Covers content filenames w where
  sized : ∀ j < w.nrsReaders, (w.readers j).Sized w.capacity
  lines : ∀ line ∈ w.output, line.reader < w.nrsReaders ∧ line.round < w.rounds line.reader ∧
    line.buffer.length = w.capacity ∧ line.printed = println (Utf8.fromUtf8Lossy line.buffer) ∧
    ∀ name, filenames[line.reader]? = some name →
      chunk (content name) w.capacity line.round <+: line.buffer
  printed : ∀ j < w.nrsReaders, ∀ k < w.rounds j, ∃ line ∈ w.output,
    line.reader = j ∧ line.round = k

namespace Prints

theorem work (hnr : 0 < nr) (hcapacity : 0 < capacity) (henough : nr ≤ filenames.length) :
    Prints content filenames ((EceWorker.new nr capacity).work filenames) where
  toCovers := Covers.work hnr hcapacity henough
  sized _ _ := EceReader.Sized.new capacity
  lines _ hline := absurd hline List.not_mem_nil
  printed _ _ k hk := absurd hk (Nat.not_lt_zero k)

theorem readBank (h : Prints content filenames w) (hallow : w.Regular content e)
    (hstep : w.step e = some w') (hmain : w.main = .processWriter i true)
    (heq : w' = { w with
      len := ((w.readers i).banks (slot w.bankRead)).len
      output := w.output ++ [w.line i]
      main := .processWriter (i + 1) false }) : Prints content filenames w' := by
  have hphase := h.firstCall.main
  rw [hmain] at hphase
  have hi : i < w.nrsReaders := hphase.2.1 rfl
  -- the line is the round of reader `i` that was missing
  have hrounds : ∀ k, w.rounds k = w.round + if k < i then 1 else 0 := by
    intro k
    unfold rounds
    rw [hmain]
  have hrounds' : ∀ k, w'.rounds k = w.round + if k < i + 1 then 1 else 0 := by
    intro k
    rw [heq]
    rfl
  have hle : ∀ k, w.rounds k ≤ w'.rounds k := by
    intro k
    rw [hrounds, hrounds']
    split <;> split <;> omega
  refine ⟨h.toCovers.step hallow hstep, fun j hj ↦ ?_, fun line hline ↦ ?_, fun j hj k hk ↦ ?_⟩
  · rw [(step_nrsReaders hstep).1] at hj
    exact sized_step (h.sized j hj) hstep
  · rw [(step_nrsReaders hstep).1, (step_nrsReaders hstep).2]
    rw [heq] at hline
    rcases List.mem_append.mp hline with hold | hnew
    · obtain ⟨hreader, hround, hrest⟩ := h.lines line hold
      exact ⟨hreader, Nat.lt_of_lt_of_le hround (hle _), hrest⟩
    · rw [List.mem_singleton] at hnew
      subst hnew
      refine ⟨hi, ?_, h.sized i hi _, rfl, fun name hname ↦ ?_⟩
      · show w.round < w'.rounds i
        rw [hrounds', if_pos (Nat.lt_succ_self i)]
        exact Nat.lt_succ_self _
      · show chunk (content name) w.capacity w.round <+:
          ((w.readers i).banks (slot w.bankRead)).buffer
        rw [← (h.bank hmain hname).2]
        exact List.take_prefix ..
  · have houtput : w'.output = w.output ++ [w.line i] := by rw [heq]
    rw [(step_nrsReaders hstep).1] at hj
    rw [houtput]
    by_cases hold : k < w.rounds j
    · obtain ⟨line, hline, hboth⟩ := h.printed j hj k hold
      exact ⟨line, List.mem_append_left _ hline, hboth⟩
    · refine ⟨w.line i, List.mem_append_right _ (List.mem_singleton_self _), ?_⟩
      rw [hrounds] at hold
      rw [hrounds'] at hk
      show i = j ∧ w.round = k
      split at hold <;> split at hk <;> omega

theorem step (h : Prints content filenames w) (hallow : w.Regular content e)
    (hstep : w.step e = some w') : Prints content filenames w' := by
  obtain ⟨houtput, hrounds⟩ | ⟨i, hmain, heq⟩ := step_output (h.firstCall.not_work hallow.1) hstep
  · obtain ⟨hnrs, hcapacity⟩ := step_nrsReaders hstep
    refine ⟨h.toCovers.step hallow hstep, fun j hj ↦ ?_, fun line hline ↦ ?_, fun j hj k hk ↦ ?_⟩
    · rw [hnrs] at hj
      exact sized_step (h.sized j hj) hstep
    · rw [houtput] at hline
      obtain ⟨hreader, hrest⟩ := h.lines line hline
      rw [hnrs, hcapacity, hrounds _ hreader]
      exact ⟨hreader, hrest⟩
    · rw [hnrs] at hj
      rw [hrounds j hj] at hk
      rw [houtput]
      exact h.printed j hj k hk
  · exact h.readBank hallow hstep hmain heq

/-- The rounds printed are rounds that the reader has read. -/
theorem rounds_le (h : Prints content filenames w) (hj : j < w.nrsReaders) :
    w.rounds j ≤ (w.readers j).firstBank := by
  rw [h.firstCall.firstBank j hj]
  unfold rounds ackRound
  split
  next i locked hmain =>
    simp only [hmain]
    split <;> omega
  next => split <;> omega

/-- A line shows the chunk of its round, and what an earlier read or none has left behind it. -/
theorem exact_iff (h : Prints content filenames w) {line : Line} (hline : line ∈ w.output)
    {name : String} (hname : filenames[line.reader]? = some name) :
    w.Exact line ↔ (line.round + 1) * w.capacity ≤ (content name).length ∧
      Utf8.IsText (chunk (content name) w.capacity line.round) := by
  obtain ⟨hreader, hround, hsize, hprinted, hbegins⟩ := h.lines line hline
  obtain ⟨name', hname', hfollows⟩ := h.firstCall.follows line.reader hreader
  rw [hname, Option.some.injEq] at hname'
  subst hname'
  have hbank := Nat.lt_of_lt_of_le hround (h.rounds_le hreader)
  cases hfile : (w.readers line.reader).file with
  | none =>
      have := (hfollows.unopened hfile).1
      omega
  | some f =>
      obtain ⟨hfname, -, hlength⟩ := hfollows.opened f hfile
      have hlt : line.round < f.reads.length := by
        have := hfollows.done_le
        omega
      -- what the read of that round obtained
      have hread : f.reads[line.round]? =
          some (some (chunk (content name) w.capacity line.round)) := by
        rw [h.chunks line.reader hreader f hfile, List.getElem?_map, List.getElem?_range hlt,
          hfname]
        rfl
      have hexact : w.Exact line ↔
          Utf8.fromUtf8Lossy line.buffer = chunk (content name) w.capacity line.round := by
        unfold Exact
        rw [hprinted]
        constructor
        · intro hexists
          obtain ⟨f', bytes, hfile', hreads, hshown⟩ := hexists
          rw [hfile, Option.some.injEq] at hfile'
          rw [← hfile', hread, Option.some.injEq, Option.some.injEq] at hreads
          rw [hreads]
          exact List.append_cancel_right hshown
        · intro heq
          exact ⟨f, _, hfile, hread, by rw [heq]⟩
      have hfull : w.capacity ≤ (chunk (content name) w.capacity line.round).length ↔
          (line.round + 1) * w.capacity ≤ (content name).length := by
        rw [chunk_length, Nat.succ_mul]
        have := h.firstCall.capacity
        omega
      rw [hexact, Utf8.fromUtf8Lossy_eq_prefix_iff (hbegins name hname), hsize, hfull]

end Prints

/-! ## Runs -/

/-- A line shows exactly what the read of its round obtained if and only if that read filled the
bank with text; the last line of a call never does. -/
theorem work_run_prints_iff (content : String → List UInt8) (filenames : List String)
    (hnr : 0 < nr) (hcapacity : 0 < capacity) (henough : nr ≤ filenames.length) (w : EceWorker)
    (hrun : Guarded step (Regular content) ((EceWorker.new nr capacity).work filenames) w) :
    (∀ line ∈ w.output, ∀ name, filenames[line.reader]? = some name →
      (w.Exact line ↔ (line.round + 1) * capacity ≤ (content name).length ∧
        Utf8.IsText (chunk (content name) capacity line.round))) ∧
    (w.main = .idle → ∃ line ∈ w.output, ¬ w.Exact line) := by
  have h : Prints content filenames w :=
    hrun.invariant (Prints.work hnr hcapacity henough) fun _ _ _ h hallow hstep ↦
      h.step hallow hstep
  obtain ⟨rfl, rfl⟩ := run_nrsReaders hrun
  refine ⟨fun line hline name hname ↦ h.exact_iff hline hname, fun hidle ↦ ?_⟩
  -- the round in which the last file ended
  have hlast : w.nrsReaders - 1 < filenames.length := by
    have := h.firstCall.enough
    omega
  obtain ⟨name, hname⟩ : ∃ name, filenames[w.nrsReaders - 1]? = some name :=
    ⟨_, List.getElem?_eq_getElem hlast⟩
  obtain ⟨k, hround, -, hlt⟩ := by
    simpa only [hidle, if_true] using h.last name hname
  have hrounds : w.rounds (w.nrsReaders - 1) = k + 1 := by
    unfold rounds
    rw [hidle]
    exact hround
  obtain ⟨line, hline, hreader, rfl⟩ := h.printed (w.nrsReaders - 1)
    (Nat.sub_lt h.firstCall.readers Nat.one_pos) k (by omega)
  refine ⟨line, hline, fun hexact ↦ ?_⟩
  rw [← hreader] at hname
  have := ((h.exact_iff hline hname).mp hexact).1
  omega

theorem work_run_prints_iff_two :
    ∃ w, Guarded step (Regular fun _ ↦ [1, 2, 3]) ((EceWorker.new 1 2).work ["a"]) w ∧
      w.main = .idle ∧ w.output.map Line.printed = [[1, 2, 10], [3, 0, 10]] ∧
      (∃ line ∈ w.output, w.Exact line) ∧ ∃ line ∈ w.output, ¬ w.Exact line := by
  have hcall : ∃ w, exec step (Regular fun _ ↦ [1, 2, 3]) ((EceWorker.new 1 2).work ["a"])
      [.main, .main, .main, .main, .recv 0 true, .recv 0 true, .lock 0, .read 0 (some [1, 2]),
        .ack 0, .main, .main, .main, .main, .main, .main, .recv 0 true, .lock 0,
        .read 0 (some [3]), .ack 0, .main, .main, .main, .main, .main, .main] = some w ∧
      w.main = .idle ∧
      w.output = [⟨1, 0, 0, [1, 2], 2, [1, 2, 10]⟩, ⟨1, 1, 0, [3, 0], 1, [3, 0, 10]⟩] :=
    ⟨_, rfl, rfl, rfl⟩
  obtain ⟨w, hexec, hidle, houtput⟩ := hcall
  have hrun := Guarded.of_exec hexec
  obtain ⟨hiff, hinexact⟩ := work_run_prints_iff (fun _ ↦ [1, 2, 3]) ["a"] (by decide) (by decide)
    (by decide) w hrun
  have hfirst : (⟨1, 0, 0, [1, 2], 2, [1, 2, 10]⟩ : Line) ∈ w.output := by simp [houtput]
  exact ⟨w, hrun, hidle, by rw [houtput]; rfl,
    ⟨_, hfirst, (hiff _ hfirst "a" rfl).mpr (by decide)⟩, hinexact hidle⟩

/-- A file of one byte: the zero behind it in the bank is printed as well. -/
theorem work_run_prints_short :
    ¬ ∀ (nr capacity : ℕ) (content : String → List UInt8) (filenames : List String)
        (w : EceWorker), 0 < nr → 0 < capacity → filenames.length = nr →
      Guarded step (Regular content) ((EceWorker.new nr capacity).work filenames) w →
      ∀ line ∈ w.output, w.Exact line := by
  intro hclaim
  have hcall : ∃ w, exec step (Regular fun _ ↦ [7]) ((EceWorker.new 1 2).work ["a"])
      [.main, .main, .main, .main, .recv 0 true, .recv 0 true, .lock 0, .read 0 (some [7]),
        .ack 0, .main, .main, .main, .main, .main] = some w ∧
      w.output = [⟨1, 0, 0, [7, 0], 1, [7, 0, 10]⟩] ∧
      (w.readers 0).file = some ⟨"a", [some [7]]⟩ := ⟨_, rfl, rfl, rfl⟩
  obtain ⟨w, hexec, houtput, hfile⟩ := hcall
  obtain ⟨f, bytes, hf, hread, hprinted⟩ := hclaim 1 2 _ ["a"] w (by decide) (by decide) rfl
    (Guarded.of_exec hexec) _ (by rw [houtput]; exact List.mem_singleton_self _)
  rw [hfile, Option.some.injEq] at hf
  subst hf
  rw [← Option.some.inj (Option.some.inj hread)] at hprinted
  exact absurd hprinted (by decide)

end EceWorker

end Divers.DoubleBuffering
