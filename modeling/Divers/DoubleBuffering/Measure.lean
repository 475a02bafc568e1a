import Divers.DoubleBuffering.Steps
import Divers.Library.RangeSum

/-! A measure that bounds the steps the threads take within a call. -/

open Divers.Library

namespace Divers.DoubleBuffering

/-- A bound on the steps that a thread takes without another message. -/
def EceReader.cost (r : EceReader) : ℕ :=
  4 * r.queue.length +
    match r.pc with
    | .lock _ => 3
    | .read _ => 2
    | .ack _ => 1
    | _ => 0

namespace EceReader

variable {r r' : EceReader} {job : EceJob}

theorem cost_dispatch (r : EceReader) (job : EceJob) :
    (r.dispatch job).cost ≤ 4 * r.queue.length + 3 := by
  unfold dispatch
  split
  next => exact Nat.add_le_add_left (Nat.zero_le 3) _
  next =>
  split
  next => exact Nat.le_refl _
  next => exact Nat.add_le_add_left (Nat.zero_le 3) _

theorem recv_cost {opened : Bool} (h : r.recv opened = some r') : r'.cost < r.cost := by
  rcases recv_cases h with ⟨job, queue, hpc, hqueue, hr'⟩
  have hcost : r.cost = 4 * queue.length + 4 := by
    unfold cost
    rw [hpc, hqueue, List.length_cons]
    rfl
  -- the job taken from the queue pays for the lock, the read and the acknowledgement
  have hdispatch : ∀ {r₀ : EceReader}, r₀.queue = queue → (r₀.dispatch job).cost < r.cost := by
    intro r₀ hr₀
    have := cost_dispatch r₀ job
    rw [hr₀] at this
    omega
  rcases hr' with ⟨-, rfl⟩ | ⟨-, -, rfl⟩ | ⟨-, name, -, ⟨-, rfl⟩ | ⟨-, rfl⟩⟩
  · rw [hcost]
    exact Nat.lt_add_of_pos_right (by decide)
  · exact hdispatch rfl
  · exact hdispatch rfl
  · rw [hcost]
    exact Nat.lt_add_of_pos_right (by decide)

theorem lockBank_cost (h : r.lockBank = some r') : r'.cost < r.cost := by
  rcases lockBank_cases h with ⟨job, hpc, rfl⟩
  unfold cost
  rw [hpc]
  dsimp only
  omega

theorem readFile_cost {capacity : ℕ} {res : Option (List UInt8)}
    (h : r.readFile capacity res = some r') : r'.cost < r.cost := by
  rcases readFile_cases h with ⟨job, f, hpc, -, ⟨bytes, -, -, rfl⟩ | ⟨-, rfl⟩⟩
  all_goals
    unfold cost
    rw [hpc]
    dsimp only
    omega

theorem sendAck_cost (h : r.sendAck = some (job, r')) : r'.cost < r.cost := by
  rcases sendAck_cases h with ⟨hpc, rfl⟩
  unfold cost
  rw [hpc]
  dsimp only
  omega

end EceReader

/-- The steps of a round in the main thread and the messages it sends; a message counts for the
four steps it lets a reader take, and one more for sending it. -/
def roundCost (n : ℕ) : ℕ := n + 1 + (5 * n + 1) + (2 * n + 1)

/-- The same up to the end of the last round, the rounds after this one costing `later`. -/
def MainPc.cost (n later : ℕ) : MainPc → ℕ
  | .openFiles filenames _ => 5 * filenames.length + 1 + (5 * n + 1) + roundCost n + later
  | .sendWork i false => 5 * (n - i) + 1 + roundCost n + later
  | .sendWork i true => 5 * (n - i) + 1 + (2 * n + 1) + later
  | .waitReaders jobDone => n - jobDone + 1 + (5 * n + 1) + (2 * n + 1) + later
  | .processWriter i false => 2 * (n - i) + 1 + later
  | .processWriter i true => 2 * (n - (i + 1)) + 2 + later
  | .dropSend i => 5 * (n - i) + 1 + (n + 1)
  | .dropJoin i => n - i + 1
  | .idle | .dropped | .panicked => 0

/-- A call of the library, as opposed to a step of its threads. -/
def Event.isCall : Event → Bool
  | .work _ | .drop => true
  | _ => false

namespace EceWorker

variable {w w' : EceWorker} {e : Event} {lastRound i j : ℕ}

def later (lastRound : ℕ) (w : EceWorker) : ℕ := (lastRound - w.round) * roundCost w.nrsReaders

def readersCost (w : EceWorker) : ℕ := ∑ j ∈ Finset.range w.nrsReaders, (w.readers j).cost

def cost (lastRound : ℕ) (w : EceWorker) : ℕ :=
  w.main.cost w.nrsReaders (w.later lastRound) + w.readersCost

theorem readersCost_setReader {r : EceReader} (hj : j < w.nrsReaders) :
    (w.setReader j r).readersCost + (w.readers j).cost = w.readersCost + r.cost := by
  -- only the summand of reader `j` changes
  have hsum := sum_range_change (f := fun k ↦ (w.readers k).cost)
    (g := fun k ↦ ((w.setReader j r).readers k).cost) hj fun k hk ↦ by
      simp only [setReader_readers, if_neg hk]
  have hself : (w.setReader j r).readers j = r := by
    rw [setReader_readers, if_pos rfl]
  rw [hself] at hsum
  exact hsum

theorem readersCost_send {job : EceJob} (hi : i < w.nrsReaders) :
    (w.send i job).readersCost = w.readersCost + 4 := by
  have hset := readersCost_setReader hi
    (r := { w.readers i with queue := (w.readers i).queue ++ [job] })
  have hcost : EceReader.cost { w.readers i with queue := (w.readers i).queue ++ [job] } =
      (w.readers i).cost + 4 := by
    unfold EceReader.cost
    dsimp only
    rw [List.length_append, List.length_singleton]
    omega
  rw [hcost] at hset
  have : (w.send i job).readersCost + (w.readers i).cost =
    w.readersCost + ((w.readers i).cost + 4) := hset
  omega

theorem cost_setReader {r : EceReader} (hj : j < w.nrsReaders)
    (hr : r.cost < (w.readers j).cost) : (w.setReader j r).cost lastRound < w.cost lastRound := by
  have hset := readersCost_setReader (r := r) hj
  show w.main.cost w.nrsReaders (w.later lastRound) + (w.setReader j r).readersCost < _
  unfold cost
  omega

/-- A step of the main thread that sends nothing and ends no round. -/
theorem cost_of_main (hreaders : w'.readers = w.readers) (hnrs : w'.nrsReaders = w.nrsReaders)
    (hround : w'.round = w.round)
    (hlt : ∀ later, w'.main.cost w.nrsReaders later < w.main.cost w.nrsReaders later) :
    w'.cost lastRound < w.cost lastRound := by
  unfold cost readersCost later
  rw [hreaders, hnrs, hround]
  exact Nat.add_lt_add_right (hlt _) _

theorem cost_of_send {job : EceJob} {pc : MainPc} (hi : i < w.nrsReaders)
    (hlt : ∀ later, pc.cost w.nrsReaders later + 4 < w.main.cost w.nrsReaders later) :
    EceWorker.cost lastRound { w.send i job with main := pc } < w.cost lastRound := by
  have hsend : (w.send i job).readersCost = w.readersCost + 4 := readersCost_send hi
  have := hlt (w.later lastRound)
  show pc.cost w.nrsReaders (w.later lastRound) + (w.send i job).readersCost < _
  rw [hsend]
  unfold cost
  omega

/-- Every step of the main thread lowers the measure, up to the end of the last round. -/
theorem cost_mainStep (hstep : w.MainStep w')
    (hwait : ∀ jobDone, w.main = .waitReaders jobDone → jobDone < w.nrsReaders ∨ w.nrsReaders = 0)
    (hround : ∀ i, w.main = .processWriter i false → ¬ i < w.nrsReaders →
      ¬ w.len < w.capacity → w.round < lastRound) : w'.cost lastRound < w.cost lastRound := by
  cases hstep with
  | openSend hmain hlt =>
      refine cost_of_send hlt fun later ↦ ?_
      rw [hmain]
      simp only [MainPc.cost, List.length_cons]
      omega
  | @workSend i inLoop hmain hlt =>
      refine cost_of_send hlt fun later ↦ ?_
      rw [hmain]
      cases inLoop <;> simp only [MainPc.cost] <;> omega
  | dropSend hmain hlt =>
      refine cost_of_send hlt fun later ↦ ?_
      rw [hmain]
      simp only [MainPc.cost]
      omega
  | openEnd hmain hend =>
      refine cost_of_main rfl rfl rfl fun later ↦ ?_
      rw [hmain]
      simp only [MainPc.cost]
      omega
  | @workEnd i inLoop hmain hend =>
      refine cost_of_main rfl rfl rfl fun later ↦ ?_
      rw [hmain]
      cases inLoop with
      | false =>
          simp only [MainPc.cost, roundCost, Bool.false_eq_true, if_false]
          omega
      | true =>
          simp only [MainPc.cost, if_true]
          omega
  | noReaders hmain hnone =>
      refine cost_of_main rfl rfl rfl fun later ↦ ?_
      rw [hmain]
      simp only [MainPc.cost]
      omega
  | @takeAck jobDone ack listener hmain hsome hlistener =>
      have hlt := hwait jobDone hmain
      refine cost_of_main rfl rfl rfl fun later ↦ ?_
      rw [hmain]
      dsimp only
      split <;> simp only [MainPc.cost] <;> omega
  | lockBank hmain hlt hfree =>
      refine cost_of_main rfl rfl rfl fun later ↦ ?_
      rw [hmain]
      simp only [MainPc.cost]
      omega
  | readBank hmain =>
      refine cost_of_main rfl rfl rfl fun later ↦ ?_
      rw [hmain]
      simp only [MainPc.cost]
      omega
  | @endRound i hmain hend =>
      show MainPc.cost w.nrsReaders ((lastRound - (w.round + 1)) * roundCost w.nrsReaders)
        (if w.len < w.capacity then .idle else .waitReaders 0) + w.readersCost < _
      unfold cost
      rw [hmain]
      split
      next =>
        simp only [MainPc.cost]
        omega
      next hlen =>
        -- one of the later rounds begins
        have hlt := hround i hmain hend hlen
        have hlater : w.later lastRound = (lastRound - (w.round + 1)) * roundCost w.nrsReaders +
            roundCost w.nrsReaders := by
          unfold later
          rw [← Nat.succ_mul]
          congr 1
          omega
        rw [hlater]
        simp only [MainPc.cost, roundCost]
        omega
  | dropSent hmain hend =>
      refine cost_of_main rfl rfl rfl fun later ↦ ?_
      rw [hmain]
      simp only [MainPc.cost]
      omega
  | joined hmain hlt hpc =>
      refine cost_of_main rfl rfl rfl fun later ↦ ?_
      rw [hmain]
      simp only [MainPc.cost]
      omega
  | joinPanicked hmain hlt hpc =>
      refine cost_of_main rfl rfl rfl fun later ↦ ?_
      rw [hmain]
      simp only [MainPc.cost]
      omega
  | dropEnd hmain hend =>
      refine cost_of_main rfl rfl rfl fun later ↦ ?_
      rw [hmain]
      simp only [MainPc.cost]
      omega

theorem cost_step (hcall : e.isCall = false) (hstep : w.step e = some w')
    (hwait : ∀ jobDone, w.main = .waitReaders jobDone → jobDone < w.nrsReaders ∨ w.nrsReaders = 0)
    (hround : ∀ i, w.main = .processWriter i false → ¬ i < w.nrsReaders →
      ¬ w.len < w.capacity → w.round < lastRound) : w'.cost lastRound < w.cost lastRound := by
  have hcases := step_cases hstep
  cases e with
  | work filenames => cases hcall
  | drop => cases hcall
  | main => exact cost_mainStep (mainStep_cases hcases) hwait hround
  | recv j opened =>
      rcases hcases with ⟨hj, r, hr, rfl⟩
      exact cost_setReader hj (EceReader.recv_cost hr)
  | lock j =>
      rcases hcases with ⟨⟨hj, -⟩, r, hr, rfl⟩
      exact cost_setReader hj (EceReader.lockBank_cost hr)
  | read j res =>
      rcases hcases with ⟨hj, r, hr, rfl⟩
      exact cost_setReader hj (EceReader.readFile_cost hr)
  | ack j =>
      rcases hcases with ⟨hj, job, r, hr, rfl⟩
      -- the measure does not count acknowledgements in flight
      have hlt : (w.setReader j r).cost lastRound < w.cost lastRound :=
        cost_setReader hj (EceReader.sendAck_cost hr)
      unfold cost at hlt ⊢
      exact hlt

end EceWorker

end Divers.DoubleBuffering
