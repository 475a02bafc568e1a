import Divers.DoubleBuffering.Contents
import Divers.DoubleBuffering.Stuck
import Divers.Library.Chunks

/-! One call of `work` on regular files: what has been written when it returns. -/

open Divers.Library

namespace Divers.DoubleBuffering

/-! ## Reads of regular files -/

/-- The reads so far are the chunks of the file in order. -/
def EceReader.ReadsChunks (content : String → List UInt8) (capacity : ℕ) (r : EceReader) : Prop :=
  ∀ f, r.file = some f →
    f.reads = (List.range f.reads.length).map fun t ↦ some (chunk (content f.name) capacity t)

theorem EceFile.pos_eq {f : EceFile} {bytes : List UInt8} {capacity : ℕ}
    (h : f.reads = (List.range f.reads.length).map fun t ↦ some (chunk bytes capacity t)) :
    f.pos = min (f.reads.length * capacity) bytes.length := by
  unfold pos
  rw [h, List.map_map, ← chunks_length_sum, List.length_map, List.length_range]
  rfl

namespace EceWorker

/-- A read delivers what is left of the file, up to the capacity. -/
def Delivers (content : String → List UInt8) (w : EceWorker) : Event → Prop
  | .read j res => ∀ f ∈ (w.readers j).file,
      res = some (((content f.name).drop f.pos).take w.capacity)
  | _ => True

instance (content : String → List UInt8) (w : EceWorker) :
    (e : Event) → Decidable (w.Delivers content e)
  | .read j res => inferInstanceAs (Decidable (∀ f ∈ (w.readers j).file,
      res = some (((content f.name).drop f.pos).take w.capacity)))
  | .work _ | .drop | .main | .recv _ _ | .lock _ | .ack _ => inferInstanceAs (Decidable True)

/-- One call of `work` on regular files. -/
abbrev Regular (content : String → List UInt8) (w : EceWorker) (e : Event) : Prop :=
  w.OneCall e ∧ w.Delivers content e

/-- What `process_writer` prints for reader `i`. -/
def line (w : EceWorker) (i : ℕ) : Line :=
  ⟨w.calls, w.round, i, ((w.readers i).banks (slot w.bankRead)).buffer,
    ((w.readers i).banks (slot w.bankRead)).len,
    println (Utf8.fromUtf8Lossy ((w.readers i).banks (slot w.bankRead)).buffer)⟩

/-- What `process_writer` has taken from the banks of reader `j`: the first `len` bytes of each. -/
def written (w : EceWorker) (j : ℕ) : List UInt8 :=
  ((w.output.filter fun line ↦ line.reader = j).map fun line ↦ line.buffer.take line.len).flatten

theorem written_append (w : EceWorker) (len : ℕ) (line : Line) (pc : MainPc) (j : ℕ) :
    written { w with len := len, output := w.output ++ [line], main := pc } j =
      w.written j ++ if line.reader = j then line.buffer.take line.len else [] := by
  unfold written
  dsimp only
  rw [List.filter_append, List.map_append, List.flatten_append]
  by_cases hj : line.reader = j
  · simp [hj]
  · simp [hj]

/-- The rounds written for reader `j`. -/
def rounds (w : EceWorker) (j : ℕ) : ℕ :=
  match w.main with
  | .processWriter i _ => w.round + if j < i then 1 else 0
  | _ => w.round

/-- The first call is going on and every reader has read chunks of its file in order. -/
structure Fetches (content : String → List UInt8) (filenames : List String) (w : EceWorker) :
    Prop where
  firstCall : FirstCall filenames w
  active : w.Active
  intact : w.Intact
  chunks : ∀ j < w.nrsReaders, (w.readers j).ReadsChunks content w.capacity

/-- The chunks written so far, and what the last file says about the number of rounds. -/
structure Covers (content : String → List UInt8) (filenames : List String) (w : EceWorker) :
    Prop extends Fetches content filenames w where
  written : ∀ j < w.nrsReaders, ∀ name, filenames[j]? = some name →
    w.written j = (content name).take (w.rounds j * w.capacity)
  len : ∀ i locked, w.main = .processWriter i locked → 0 < i → ∀ name,
    filenames[i - 1]? = some name → w.len = (chunk (content name) w.capacity w.round).length
  last : ∀ name, filenames[w.nrsReaders - 1]? = some name →
    if w.main = .idle then
      ∃ k, w.round = k + 1 ∧ k * w.capacity ≤ (content name).length ∧
        (content name).length < (k + 1) * w.capacity
    else w.round * w.capacity ≤ (content name).length

variable {content : String → List UInt8} {filenames : List String} {w w' : EceWorker} {e : Event}
  {nr capacity i j : ℕ}

theorem Regular.filesOpen (h : w.Regular content e) : w.FilesOpen e := by
  have honce := h.1
  cases e with
  | drop => exact honce.elim
  | recv j opened => exact honce
  | _ => trivial

theorem Regular.succeeds (h : w.Regular content e) (hstep : w.step e = some w') :
    w.Succeeds e := by
  have honce := h.1
  have hcases := step_cases hstep
  cases e with
  | work filenames => exact honce.2
  | drop => exact honce.elim
  | recv j opened => exact honce
  | read j res =>
      rcases hcases with ⟨-, r, hr, -⟩
      rcases EceReader.readFile_cases hr with ⟨job, f, -, hfile, -⟩
      rw [h.2 f hfile]
      exact Option.some_ne_none _
  | _ => trivial

/-- Within a call only `process_writer` prints, and each line is the next round of its reader. -/
theorem step_output (hwork : ∀ filenames, e ≠ .work filenames) (hstep : w.step e = some w') :
    (w'.output = w.output ∧ ∀ j < w.nrsReaders, w'.rounds j = w.rounds j) ∨
    ∃ i, w.main = .processWriter i true ∧ w' = { w with
      len := ((w.readers i).banks (slot w.bankRead)).len
      output := w.output ++ [w.line i]
      main := .processWriter (i + 1) false } := by
  have hcases := step_cases hstep
  cases e with
  | work filenames => exact absurd rfl (hwork filenames)
  | drop =>
      obtain ⟨hidle, rfl⟩ := hcases
      exact Or.inl ⟨rfl, fun j _ ↦ by simp [rounds, hidle]⟩
  | recv j opened | lock j | read j res =>
      obtain ⟨-, r, -, rfl⟩ := hcases
      exact Or.inl ⟨rfl, fun _ _ ↦ rfl⟩
  | ack j =>
      obtain ⟨-, job, r, -, rfl⟩ := hcases
      exact Or.inl ⟨rfl, fun _ _ ↦ rfl⟩
  | main =>
      cases mainStep_cases hcases with
      | readBank hmain => exact Or.inr ⟨_, hmain, rfl⟩
      | @endRound i hmain hend =>
          -- every reader has been printed
          refine Or.inl ⟨rfl, fun j hj ↦ ?_⟩
          have hji : j < i := by omega
          simp only [rounds, hmain, if_pos hji]
          by_cases hlen : w.len < w.capacity
          · simp only [if_pos hlen]
          · simp only [if_neg hlen]
      | @workEnd i inLoop hmain hend =>
          refine Or.inl ⟨rfl, fun j hj ↦ ?_⟩
          cases inLoop <;> simp [rounds, hmain]
      | @takeAck jobDone ack listener hmain hsome hlistener =>
          refine Or.inl ⟨rfl, fun j hj ↦ ?_⟩
          simp only [rounds, hmain]
          by_cases hdone : jobDone + 1 = w.nrsReaders
          · simp only [if_pos hdone]
          · simp only [if_neg hdone]
      | openSend hmain hlt | openEnd hmain hend | workSend hmain hlt | noReaders hmain hnone
      | lockBank hmain hlt hfree | dropSend hmain hlt | dropSent hmain hend
      | joined hmain hlt hpc | joinPanicked hmain hlt hpc | dropEnd hmain hend =>
          exact Or.inl ⟨rfl, fun j hj ↦ by simp [rounds, hmain, send, setReader]⟩

theorem rounds_eq (hwork : ∀ filenames, e ≠ .work filenames) (hstep : w.step e = some w')
    (houtput : w'.output = w.output) (hj : j < w.nrsReaders) : w'.rounds j = w.rounds j := by
  obtain ⟨-, hrounds⟩ | ⟨i, -, rfl⟩ := step_output hwork hstep
  · exact hrounds j hj
  · exact absurd houtput (by simp)

namespace Fetches

theorem work (hnr : 0 < nr) (hcapacity : 0 < capacity) (henough : nr ≤ filenames.length) :
    Fetches content filenames ((EceWorker.new nr capacity).work filenames) where
  firstCall := FirstCall.work hnr hcapacity henough
  active := ⟨fun _ _ ↦ EceReader.Running.new capacity, rfl⟩
  intact := new_intact nr capacity
  chunks _ _ _ hf := by cases hf

/-- Every read delivers the next chunk. -/
theorem chunks_step (h : Fetches content filenames w) (hallow : w.Regular content e)
    (hstep : w.step e = some w') :
    ∀ j < w'.nrsReaders, (w'.readers j).ReadsChunks content w'.capacity := by
  intro j hj
  rw [(step_nrsReaders hstep).1] at hj
  rw [(step_nrsReaders hstep).2]
  have hold := h.chunks j hj
  intro f hf
  obtain hfile | hnone | ⟨res, f₀, rfl, hfile, rfl⟩ := step_file hstep hf
  · exact hold f hfile
  · rw [hnone]
    rfl
  · -- the read that has just been done
    have hreads := hold f₀ hfile
    have hres := hallow.2 f₀ hfile
    rw [EceFile.pos_eq hreads, chunk_eq_drop_min] at hres
    dsimp only
    rw [List.length_append, List.length_singleton, List.range_succ, List.map_append, ← hreads,
      List.map_singleton, hres]

theorem step (h : Fetches content filenames w) (hallow : w.Regular content e)
    (hstep : w.step e = some w') : Fetches content filenames w' where
  firstCall := h.firstCall.step hallow.1 hstep
  active := h.active.step hallow.filesOpen hstep
  intact := h.firstCall.intact_step h.intact (Regular.succeeds hallow hstep) hstep
  chunks := h.chunks_step hallow hstep

/-- The bank that `process_writer` prints holds the chunk of this round. -/
theorem bank (h : Fetches content filenames w) (hmain : w.main = .processWriter i true)
    {name : String} (hname : filenames[i]? = some name) :
    let b := (w.readers i).banks (slot w.bankRead)
    b.len = (chunk (content name) w.capacity w.round).length ∧
      b.buffer.take b.len = chunk (content name) w.capacity w.round := by
  have hphase := h.firstCall.main
  rw [hmain] at hphase
  have hi : i < w.nrsReaders := hphase.2.1 rfl
  rcases h.firstCall.findsRead h.intact i hmain with ⟨f, bytes, hfile, -, hread, hlen, hbuffer⟩
  rcases h.firstCall.follows i hi with ⟨name', hname', hfollows⟩
  rw [hname', Option.some.injEq] at hname
  -- the file of reader `i` is the one this call named
  have hbytes : bytes = chunk (content name) w.capacity w.round := by
    rcases List.getElem?_eq_some_iff.mp hread with ⟨hround, -⟩
    rw [h.chunks i hi f hfile, List.getElem?_map, List.getElem?_range hround] at hread
    rw [← hname, ← (hfollows.opened f hfile).1]
    exact (Option.some.inj (Option.some.inj hread)).symm
  dsimp only
  rw [hlen, ← hbytes]
  exact ⟨rfl, hbuffer⟩

end Fetches

namespace Covers

theorem work (hnr : 0 < nr) (hcapacity : 0 < capacity) (henough : nr ≤ filenames.length) :
    Covers content filenames ((EceWorker.new nr capacity).work filenames) where
  toFetches := Fetches.work hnr hcapacity henough
  written j _ name _ := by
    show [] = (content name).take (0 * capacity)
    rw [Nat.zero_mul, List.take_zero]
  len _ _ hmain := by cases hmain
  last name _ := by
    rw [if_neg (by simp [EceWorker.work])]
    show 0 * capacity ≤ _
    rw [Nat.zero_mul]
    exact Nat.zero_le _

/-- A step that writes nothing and ends no round. -/
theorem of_silent (h : Covers content filenames w) (hallow : w.Regular content e)
    (hstep : w.step e = some w') (houtput : w'.output = w.output) (hround : w'.round = w.round)
    (hlen : ∀ i locked, w'.main = .processWriter i locked → 0 < i →
      (∃ locked', w.main = .processWriter i locked') ∧ w'.len = w.len)
    (hidle : w'.main = .idle ↔ w.main = .idle) : Covers content filenames w' := by
  rcases step_nrsReaders hstep with ⟨hnrs, hcapacity⟩
  refine ⟨h.toFetches.step hallow hstep, fun j hj name hname ↦ ?_,
    fun i locked hmain hi name hname ↦ ?_, fun name hname ↦ ?_⟩
  · rw [hnrs] at hj
    rw [rounds_eq (h.firstCall.not_work hallow.1) hstep houtput hj, hcapacity,
      ← h.written j hj name hname]
    unfold EceWorker.written
    rw [houtput]
  · rcases hlen i locked hmain hi with ⟨⟨locked', hmain'⟩, hlen⟩
    rw [hlen, hcapacity, hround]
    exact h.len i locked' hmain' hi name hname
  · rw [hnrs] at hname
    rw [hcapacity, hround]
    simp only [hidle]
    exact h.last name hname

theorem readBank (h : Covers content filenames w) (hallow : w.Regular content e)
    (hstep : w.step e = some w') (hmain : w.main = .processWriter i true)
    (heq : w' = { w with
      len := ((w.readers i).banks (slot w.bankRead)).len
      output := w.output ++ [w.line i]
      main := .processWriter (i + 1) false }) : Covers content filenames w' := by
  refine ⟨h.toFetches.step hallow hstep, ?_, ?_, ?_⟩
  all_goals subst heq
  · intro j hj name hname
    have hold := h.written j hj name hname
    -- the readers before `i` have been written in this round already
    have hrounds : w.rounds j = w.round + if j < i then 1 else 0 := by
      unfold rounds
      rw [hmain]
    rw [hrounds] at hold
    rw [written_append, hold]
    show _ = (content name).take ((w.round + if j < i + 1 then 1 else 0) * w.capacity)
    unfold line
    dsimp only
    by_cases hji : i = j
    · subst hji
      rw [if_pos rfl, if_neg (Nat.lt_irrefl i), if_pos (Nat.lt_succ_self i),
        (h.bank hmain hname).2]
      exact take_append_chunk ..
    · rw [if_neg hji, List.append_nil]
      have hiff : j < i ↔ j < i + 1 := by omega
      simp only [hiff]
  · intro k locked hmain' _ name hname
    cases hmain'
    exact (h.bank hmain hname).1
  · intro name hname
    have hlast := h.last name hname
    rw [hmain] at hlast
    exact hlast

/-- `len` is what the last reader read, so the last file decides whether there is another round. -/
theorem len_lt_capacity (h : Covers content filenames w) (hmain : w.main = .processWriter i false)
    (hend : ¬ i < w.nrsReaders) {name : String}
    (hname : filenames[w.nrsReaders - 1]? = some name) :
    w.round * w.capacity ≤ (content name).length ∧
      (w.len < w.capacity ↔ (content name).length < (w.round + 1) * w.capacity) := by
  have hphase := h.firstCall.main
  rw [hmain] at hphase
  have hi : i = w.nrsReaders := Nat.le_antisymm hphase.1 (Nat.not_lt.mp hend)
  have hpos : 0 < i := hi ▸ h.firstCall.readers
  have hlast := h.last name hname
  rw [hmain, if_neg (by simp)] at hlast
  rw [← hi] at hname
  rw [h.len i false hmain hpos name hname]
  exact ⟨hlast, chunk_length_lt _ _ hlast⟩

theorem endRound (h : Covers content filenames w) (hallow : w.Regular content e)
    (hstep : w.step e = some w') (hmain : w.main = .processWriter i false)
    (hend : ¬ i < w.nrsReaders)
    (heq : w' = { w with
      bankRead := (w.bankRead + 1) &&& 1
      round := w.round + 1
      acked := []
      main := if w.len < w.capacity then .idle else .waitReaders 0 }) :
    Covers content filenames w' := by
  have hrounds : ∀ j < w.nrsReaders, w'.rounds j = w.rounds j := fun j hj ↦
    rounds_eq (h.firstCall.not_work hallow.1) hstep (by rw [heq]) hj
  refine ⟨h.toFetches.step hallow hstep, ?_, ?_, ?_⟩
  all_goals subst heq
  · intro j hj name hname
    rw [hrounds j hj]
    exact h.written j hj name hname
  · intro k locked hmain'
    dsimp only at hmain'
    split at hmain' <;> cases hmain'
  · intro name hname
    rcases h.len_lt_capacity hmain hend hname with ⟨hlast, hiff⟩
    by_cases hlen : w.len < w.capacity
    · rw [if_pos hlen, if_pos rfl]
      exact ⟨w.round, rfl, hlast, hiff.mp hlen⟩
    · rw [if_neg hlen, if_neg (by simp)]
      exact Nat.not_lt.mp fun hlt ↦ hlen (hiff.mpr hlt)

theorem step (h : Covers content filenames w) (hallow : w.Regular content e)
    (hstep : w.step e = some w') : Covers content filenames w' := by
  have hcases := step_cases hstep
  cases e with
  | work names => exact absurd rfl (h.firstCall.not_work hallow.1 names)
  | drop => exact hallow.1.elim
  | main =>
      have hphase := h.active.main
      cases hcase : mainStep_cases hcases with
      | readBank hmain => exact h.readBank hallow hstep hmain rfl
      | endRound hmain hend => exact h.endRound hallow hstep hmain hend rfl
      -- the other steps neither read a bank nor end a round
      | openSend hmain hlt | openEnd hmain hend | workSend hmain hlt | noReaders hmain hnone =>
          apply h.of_silent hallow hstep rfl rfl
          · intro i locked hmain'
            cases hmain'
          · simp [hmain]
      | @workEnd i inLoop hmain hend =>
          apply h.of_silent hallow hstep rfl rfl
          · intro k locked hmain' hk
            cases inLoop with
            | false => cases hmain'
            | true =>
                cases hmain'
                omega
          · cases inLoop <;> simp [hmain]
      | @takeAck jobDone ack listener hmain hsome hlistener =>
          apply h.of_silent hallow hstep rfl rfl
          · intro i locked hmain'
            dsimp only at hmain'
            split at hmain' <;> cases hmain'
          · rw [hmain]
            dsimp only
            split <;> simp
      | @lockBank i hmain hlt hfree =>
          apply h.of_silent hallow hstep rfl rfl
          · intro k locked hmain' hk
            cases hmain'
            exact ⟨⟨false, hmain⟩, rfl⟩
          · simp [hmain]
      | dropSend hmain | dropSent hmain | joined hmain | joinPanicked hmain | dropEnd hmain =>
          rw [hmain] at hphase
          cases hphase
  | recv j opened | lock j | read j res =>
      obtain ⟨-, r, -, rfl⟩ := hcases
      exact h.of_silent hallow hstep rfl rfl
        (fun i locked hmain hi ↦ ⟨⟨locked, hmain⟩, rfl⟩) Iff.rfl
  | ack j =>
      obtain ⟨-, job, r, -, rfl⟩ := hcases
      exact h.of_silent hallow hstep rfl rfl
        (fun i locked hmain hi ↦ ⟨⟨locked, hmain⟩, rfl⟩) Iff.rfl

/-- The last file bounds the rounds. -/
theorem cost_lt (h : Covers content filenames w) (hallow : w.Regular content e)
    (hstep : w.step e = some w') {name : String}
    (hname : filenames[w.nrsReaders - 1]? = some name) :
    w'.cost ((content name).length / w.capacity) <
      w.cost ((content name).length / w.capacity) := by
  have hphase := h.firstCall.main
  refine cost_step ?_ hstep (fun jobDone hmain ↦ ?_) fun i hmain hend hfull ↦ ?_
  · have honce := hallow.1
    cases e with
    | work names => exact absurd rfl (h.firstCall.not_work hallow.1 names)
    | drop => exact honce.elim
    | _ => rfl
  · rw [hmain] at hphase
    exact Or.inl hphase.2.1
  · rcases h.len_lt_capacity hmain hend hname with ⟨-, hiff⟩
    -- a further round only if the last file goes on
    have hle : (w.round + 1) * w.capacity ≤ (content name).length :=
      Nat.not_lt.mp fun hlt ↦ hfull (hiff.mpr hlt)
    exact (Nat.le_div_iff_mul_le h.firstCall.capacity).mpr hle

/-- A state in which no thread goes on is the end of the call, or stuck. -/
theorem idle_or_stuck (h : Covers content filenames w)
    (hnone : ∀ e, w.Regular content e → w.step e = none) : w.main = .idle ∨ w.Stuck := by
  by_cases hidle : w.main = .idle
  · exact Or.inl hidle
  · right
    have hmain : w.step .main = none := hnone .main ⟨trivial, trivial⟩
    apply h.active.stuck hidle hmain
    intro j hj
    refine h.active.reader_idle hmain (fun k ↦ hnone (.recv k true) ⟨rfl, trivial⟩)
      (fun k ↦ hnone (.lock k) ⟨trivial, trivial⟩) (fun k hk hread ↦ ?_)
      (fun k ↦ hnone (.ack k) ⟨trivial, trivial⟩) hj
    -- the read that the file system delivers
    rcases hread with ⟨job, hpc⟩
    have hrunning := (h.active.readers k hk).pc
    rw [hpc] at hrunning
    rcases Option.ne_none_iff_exists'.mp hrunning with ⟨f, hfile⟩
    refine ⟨((content f.name).drop f.pos).take w.capacity, List.length_take_le .., hnone _
      ⟨trivial, fun f' hf' ↦ ?_⟩⟩
    rw [hfile] at hf'
    cases hf'
    rfl

/-- At the end of the call every file has been written up to the round in which the last one
ended. -/
theorem written_of_idle (h : Covers content filenames w) (hidle : w.main = .idle)
    {last : String} (hlast : filenames[w.nrsReaders - 1]? = some last) (hj : j < w.nrsReaders)
    {name : String} (hname : filenames[j]? = some name) :
    w.written j =
      (content name).take (((content last).length / w.capacity + 1) * w.capacity) := by
  obtain ⟨k, hround, hle, hlt⟩ := by
    simpa only [hidle, if_true] using h.last last hlast
  have hk : (content last).length / w.capacity = k := Nat.div_eq_of_lt_le hle hlt
  have hrounds : w.rounds j = k + 1 := by
    unfold rounds
    rw [hidle]
    exact hround
  rw [h.written j hj name hname, hrounds, hk]

end Covers

/-! ## Runs -/

theorem work_run_covers {nr capacity : ℕ} (hnr : 0 < nr) (hcapacity : 0 < capacity)
    (henough : nr ≤ filenames.length)
    (hrun : Guarded step (Regular content) ((EceWorker.new nr capacity).work filenames) w) :
    Covers content filenames w :=
  hrun.invariant (Covers.work hnr hcapacity henough) fun _ _ _ h hallow hstep ↦
    h.step hallow hstep

/-- Every run goes on to the end of the call. -/
theorem work_run_returns {nr capacity : ℕ} (hnr : 0 < nr) (hcapacity : 0 < capacity)
    (henough : nr ≤ filenames.length)
    (hrun : Guarded step (Regular content) ((EceWorker.new nr capacity).work filenames) w) :
    ∃ w', Guarded step (Regular content) w w' ∧ w'.main = .idle := by
  rcases run_nrsReaders hrun with ⟨hnrs, hcap⟩
  have hlast : nr - 1 < filenames.length := by omega
  have hname := List.getElem?_eq_getElem hlast
  obtain ⟨w', hrun', ⟨h, -⟩, hnone⟩ := Guarded.exists_terminal
    (I := fun w ↦ Covers content filenames w ∧ w.nrsReaders = nr ∧ w.capacity = capacity)
    (EceWorker.cost ((content filenames[nr - 1]).length / capacity))
    ⟨work_run_covers hnr hcapacity henough hrun, hnrs, hcap⟩ (by
      intro w e w' hinv hallow hstep
      obtain ⟨h, rfl, rfl⟩ := hinv
      exact ⟨⟨h.step hallow hstep, step_nrsReaders hstep⟩, h.cost_lt hallow hstep hname⟩)
  refine ⟨w', hrun', (h.idle_or_stuck hnone).resolve_right ?_⟩
  obtain ⟨sends, waits, hcounted⟩ := work_run_counted hnr hcapacity henough
    ((hrun.trans hrun').mono fun _ _ hallow ↦ Regular.filesOpen hallow)
  exact hcounted.not_stuck

/-- The call returns, and it has written every file in full if and only if no file goes on after
the round in which the last one ends. -/
theorem work_run_covers_iff {nr capacity : ℕ} (content : String → List UInt8)
    (filenames : List String) (hnr : 0 < nr) (hcapacity : 0 < capacity)
    (henough : nr ≤ filenames.length) (w : EceWorker)
    (hrun : Guarded step (Regular content) ((EceWorker.new nr capacity).work filenames) w) :
    (∃ w', Guarded step (Regular content) w w' ∧ w'.main = .idle) ∧
      (w.main = .idle →
        ((∀ j < nr, ∀ name, filenames[j]? = some name → w.written j = content name) ↔
          ∀ last, filenames[nr - 1]? = some last → ∀ j < nr, ∀ name, filenames[j]? = some name →
            (content name).length ≤ ((content last).length / capacity + 1) * capacity)) := by
  refine ⟨work_run_returns hnr hcapacity henough hrun, fun hidle ↦ ?_⟩
  have h := work_run_covers hnr hcapacity henough hrun
  rcases run_nrsReaders hrun with ⟨rfl, rfl⟩
  constructor
  · intro hwritten last hlast j hj name hname
    rw [← List.take_eq_self_iff, ← h.written_of_idle hidle hlast hj hname]
    exact hwritten j hj name hname
  · intro hlength j hj name hname
    have hlt : w.nrsReaders - 1 < filenames.length := by
      have := h.firstCall.enough
      omega
    have hlast := List.getElem?_eq_getElem hlt
    rw [h.written_of_idle hidle hlast hj hname]
    exact List.take_of_length_le (hlength _ hlast j hj name hname)

theorem work_run_covers_iff_two :
    ∃ w, Guarded step (Regular fun name ↦ if name = "a" then [1, 2, 3] else [4, 5])
      ((EceWorker.new 2 2).work ["a", "b"]) w ∧ w.main = .idle ∧
      w.written 0 = [1, 2, 3] ∧ w.written 1 = [4, 5] := by
  have hcall := work_run_covers_iff (fun name ↦ if name = "a" then [1, 2, 3] else [4, 5])
    ["a", "b"] (show 0 < 2 by decide) (show 0 < 2 by decide) (by decide)
  rcases (hcall _ .refl).1 with ⟨w, hrun, hidle⟩
  have hwritten := ((hcall w hrun).2 hidle).mpr fun last hlast j hj name hname ↦ by
    cases hlast
    rcases (show j = 0 ∨ j = 1 by omega) with rfl | rfl
    · cases hname
      decide
    · cases hname
      decide
  exact ⟨w, hrun, hidle, hwritten 0 (by decide) "a" rfl, hwritten 1 (by decide) "b" rfl⟩

/-- The last file is empty: the call ends after one byte of the first file. -/
theorem work_run_covers_short :
    ¬ ∀ (nr capacity : ℕ) (content : String → List UInt8) (filenames : List String)
        (w : EceWorker), 0 < nr → 0 < capacity → filenames.length = nr →
      Guarded step (Regular content) ((EceWorker.new nr capacity).work filenames) w →
      w.main = .idle → ∀ j < nr, ∀ name, filenames[j]? = some name →
      w.written j = content name := by
  intro hclaim
  -- the run stops after round 0, in which the second reader read nothing
  have hcall : ∃ w, exec step (Regular fun name ↦ if name = "a" then [1, 2] else [])
      ((EceWorker.new 2 1).work ["a", "b"])
      [.main, .main, .main, .main, .main, .main,
        .recv 0 true, .recv 0 true, .lock 0, .read 0 (some [1]), .ack 0,
        .recv 1 true, .recv 1 true, .lock 1, .read 1 (some []), .ack 1,
        .main, .main, .main, .main, .main, .main, .main, .main, .main, .main] = some w ∧
      w.main = .idle ∧ w.written 0 = [1] := ⟨_, rfl, rfl, rfl⟩
  rcases hcall with ⟨w, hexec, hidle, hwritten⟩
  have hwhole := hclaim 2 1 _ ["a", "b"] w (by decide) (by decide) rfl (Guarded.of_exec hexec) hidle
    0 (by decide) "a" rfl
  rw [hwritten] at hwhole
  exact absurd hwhole (by decide)

end EceWorker

end Divers.DoubleBuffering
