import Divers.DoubleBuffering.Exclusion

/-! What `process_writer` finds in the banks. -/

open Divers.Library

namespace Divers.DoubleBuffering

namespace EceWorker

/-- Every call gets a file for every reader, the files open and the reads succeed. -/
def Succeeds (w : EceWorker) : Event → Prop
  | .work filenames => w.nrsReaders ≤ filenames.length
  | .drop => False
  | .recv _ opened => opened = true
  | .read _ res => res ≠ none
  | _ => True

instance (w : EceWorker) : (e : Event) → Decidable (w.Succeeds e)
  | .work filenames => inferInstanceAs (Decidable (w.nrsReaders ≤ filenames.length))
  | .drop => inferInstanceAs (Decidable False)
  | .main => inferInstanceAs (Decidable True)
  | .recv _ opened => inferInstanceAs (Decidable (opened = true))
  | .lock _ => inferInstanceAs (Decidable True)
  | .read _ res => inferInstanceAs (Decidable (res ≠ none))
  | .ack _ => inferInstanceAs (Decidable True)

/-- While `process_writer` holds the bank it selects for reader `j` in round `k`, the bank holds the
`k`-th read of the file opened in this call. -/
def FindsRead (w : EceWorker) : Prop :=
  ∀ j, w.main = .processWriter j true →
    ∃ f bytes, (w.readers j).file = some f ∧ (w.readers j).opened = w.calls ∧
      f.reads[w.round]? = some (some bytes) ∧
      ((w.readers j).banks (slot w.bankRead)).len = bytes.length ∧
      ((w.readers j).banks (slot w.bankRead)).buffer.take bytes.length = bytes

/-- The banks of every reader hold its last two reads, and none of its reads failed. -/
def Intact (w : EceWorker) : Prop :=
  ∀ j < w.nrsReaders, (w.readers j).Keeps ∧ ∀ f, (w.readers j).file = some f → none ∉ f.reads

namespace FirstCall

variable {filenames : List String} {w w' : EceWorker} {i j : ℕ}

theorem intact_step (h : FirstCall filenames w) (hintact : w.Intact) {e : Event}
    (hsucceeds : w.Succeeds e) (hstep : w.step e = some w') : w'.Intact := by
  intro j hj
  rw [(step_nrsReaders hstep).1] at hj
  rcases hintact j hj with ⟨hkeeps, hreads⟩
  constructor
  · rcases step_readers hstep j with ⟨queue, heq⟩ | ⟨opened, -, hrecv⟩ | ⟨-, hlock⟩ |
      ⟨res, -, hread⟩ | ⟨job, -, hack⟩
    · rw [heq]
      exact hkeeps
    · exact hkeeps.recv hrecv
    · exact hkeeps.lockBank hlock
    · rcases h.follows j hj with ⟨name, -, hfollows⟩
      rcases EceReader.readFile_cases hread with ⟨job, f₀, hpc, -, -⟩
      refine hkeeps.readFile (fun f hf ↦ ?_) hread
      rw [(hfollows.opened f hf).2.2]
      unfold EceReader.done
      rw [hpc]
    · exact hkeeps.sendAck hack
  · intro f hf
    obtain hfile | hnone | ⟨res, f₀, rfl, hfile, rfl⟩ := step_file hstep hf
    · exact hreads f hfile
    · rw [hnone]
      exact List.not_mem_nil
    · rw [List.mem_append, List.mem_singleton]
      intro heither
      obtain hnone | hnone := heither
      · exact hreads f₀ hfile hnone
      · exact hsucceeds hnone.symm

/-- The round being processed is one of the last two that the reader has read. -/
theorem findsRead (h : FirstCall filenames w) (hintact : w.Intact) : w.FindsRead := by
  intro j hmain
  have hphase := h.main
  rw [hmain] at hphase
  have hj : j < w.nrsReaders := hphase.2.1 rfl
  rcases h.follows j hj with ⟨name, -, hfollows⟩
  rcases hintact j hj with ⟨hkeeps, hreads⟩
  have hfirst := h.firstBank j hj
  have hle := hfollows.le_sent
  simp only [sent, ackRound, hmain] at hfirst hle
  cases hfile : (w.readers j).file with
  | none =>
      have := (hfollows.unopened hfile).1
      omega
  | some f =>
      rcases hfollows.opened f hfile with ⟨-, hopened, hlength⟩
      -- the reads done are `firstBank`, and one more before the acknowledgement
      have hdone : (w.readers j).firstBank ≤ f.reads.length ∧ f.reads.length ≤ w.round + 2 := by
        rw [hlength]
        have := hfollows.done_le
        simp only [sent, ackRound, hmain] at this
        exact this
      have hlt : w.round < f.reads.length := by omega
      cases hread : f.reads[w.round] with
      | none => exact absurd (hread ▸ List.getElem_mem hlt) (hreads f hfile)
      | some bytes =>
          have hget : f.reads[w.round]? = some (some bytes) := by
            rw [List.getElem?_eq_getElem hlt, hread]
          obtain ⟨hlen, hbuffer⟩ := hkeeps f w.round bytes hfile hget hdone.2
          -- the bank of the round is the one `process_writer` selects
          have hslot : slot w.bankRead = slot w.round := by
            rw [h.bankRead, slot_eq, slot_eq]
            omega
          rw [hslot]
          exact ⟨f, bytes, rfl, hopened.trans h.calls.symm, hget, hlen, hbuffer⟩

end FirstCall

/-! ## Runs -/

/-- A call of `work` is the first one on its worker. -/
def FirstWork (w : EceWorker) : Event → Prop
  | .work _ => w.calls = 0
  | _ => True

instance (w : EceWorker) : (e : Event) → Decidable (w.FirstWork e)
  | .work _ => inferInstanceAs (Decidable (w.calls = 0))
  | .drop | .main | .recv _ _ | .lock _ | .read _ _ | .ack _ => inferInstanceAs (Decidable True)

abbrev FirstOnly (w : EceWorker) (e : Event) : Prop := w.Succeeds e ∧ w.FirstWork e

theorem FirstOnly.oneCall {w : EceWorker} {e : Event} (h : w.FirstOnly e) : w.OneCall e := by
  cases e with
  | work filenames => exact ⟨h.2, h.1⟩
  | drop => exact h.1
  | recv j opened => exact h.1
  | _ => trivial

theorem new_intact (nr capacity : ℕ) : (EceWorker.new nr capacity).Intact :=
  fun _ _ ↦ ⟨EceReader.Keeps.new capacity, fun _ hf ↦ by cases hf⟩

/-- In the first call on a worker, every round finds the reads of that round. -/
theorem work_run_findsRead {nr capacity : ℕ} {w : EceWorker} (hnr : 0 < nr)
    (hcapacity : 0 < capacity) (hrun : Guarded step FirstOnly (EceWorker.new nr capacity) w) :
    w.FindsRead := by
  have hinvariant : w = EceWorker.new nr capacity ∨
      ∃ filenames, FirstCall filenames w ∧ w.Intact := by
    apply hrun.invariant (I := fun w ↦ w = EceWorker.new nr capacity ∨
      ∃ filenames, FirstCall filenames w ∧ w.Intact) (Or.inl rfl)
    intro w e w' hinv hallow hstep
    obtain rfl | ⟨filenames, h, hintact⟩ := hinv
    · rcases new_step hallow.oneCall hstep with ⟨filenames, -, henough, rfl⟩
      exact Or.inr ⟨filenames, FirstCall.work hnr hcapacity henough, new_intact nr capacity⟩
    · exact Or.inr ⟨filenames, h.step hallow.oneCall hstep, h.intact_step hintact hallow.1 hstep⟩
  rcases hinvariant with rfl | ⟨filenames, h, hintact⟩
  · intro j hmain
    cases hmain
  · exact h.findsRead hintact

theorem work_run_findsRead_short :
    ∃ w, Guarded step FirstOnly (EceWorker.new 1 2) w ∧ w.main = .processWriter 0 true ∧
      w.FindsRead := by
  have hround : ∃ w, exec step FirstOnly (EceWorker.new 1 2)
      [.work ["a"], .main, .main, .main, .main, .recv 0 true, .recv 0 true, .lock 0,
        .read 0 (some [7]), .ack 0, .main, .main, .main, .main] = some w ∧
      w.main = .processWriter 0 true := ⟨_, rfl, rfl⟩
  rcases hround with ⟨w, hexec, hmain⟩
  have hrun := Guarded.of_exec hexec
  exact ⟨w, hrun, hmain, work_run_findsRead (by decide) (by decide) hrun⟩

/-- The second call on a worker with one reader and one-byte banks: the acknowledgement left over
from the first call lets it process the file of the first call. -/
theorem work_run_findsRead_second :
    ¬ ∀ w, Guarded step Succeeds (EceWorker.new 1 1) w → w.FindsRead := by
  intro hclaim
  have hcall : ∃ w, exec step Succeeds (EceWorker.new 1 1)
      ([.work ["a"], .main, .main, .main, .main, .recv 0 true, .recv 0 true, .lock 0,
        .read 0 (some []), .ack 0, .main, .main, .main, .main, .main, .main,
        .work ["b"], .main, .main, .main, .main, .recv 0 true, .lock 0, .read 0 (some []), .ack 0,
        .main, .main, .main, .main]) = some w ∧
      w.main = .processWriter 0 true ∧ (w.readers 0).opened = 1 ∧ w.calls = 2 :=
    ⟨_, rfl, rfl, rfl, rfl⟩
  rcases hcall with ⟨w, hexec, hmain, hopened, hcalls⟩
  rcases hclaim w (Guarded.of_exec hexec) 0 hmain with ⟨f, bytes, -, heq, -⟩
  omega

end EceWorker

end Divers.DoubleBuffering
