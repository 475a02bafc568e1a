import Mathlib.Data.Int.Notation
import Mathlib.Data.List.Basic
import Mathlib.Tactic.Common

/-!
# Logs of handles

What was opened and closed, the newest event first.  The same handle may be given out again, so it
is open as long as it was opened more often than it was closed.
-/

namespace Divers.Library

inductive HandleEvent (η : Type*) where
  | opened (h : η)
  | closed (h : η)
  deriving DecidableEq, Repr

/-- What the system and the loader hand out for a file. -/
inductive Resource where
  | fd (n : ℤ)
  | mapping (addr len : ℕ)
  | library (handle : ℕ)
  deriving DecidableEq, Repr

namespace HandleEvent

variable {η : Type*} [DecidableEq η] {log : List (HandleEvent η)} {h h' : η}

def timesOpened (log : List (HandleEvent η)) (h : η) : ℕ := log.count (opened h)

def timesClosed (log : List (HandleEvent η)) (h : η) : ℕ := log.count (closed h)

def IsOpen (log : List (HandleEvent η)) (h : η) : Prop := timesClosed log h < timesOpened log h

instance : Decidable (IsOpen log h) := inferInstanceAs (Decidable (_ < _))

/-- Whatever is closed is open before. -/
def Balanced : List (HandleEvent η) → Prop
  | [] => True
  | opened _ :: log => Balanced log
  | closed h :: log => IsOpen log h ∧ Balanced log

theorem timesClosed_opened (log : List (HandleEvent η)) (h h' : η) :
    timesClosed (opened h :: log) h' = timesClosed log h' := List.count_cons_of_ne (by simp)

theorem timesOpened_closed (log : List (HandleEvent η)) (h h' : η) :
    timesOpened (closed h :: log) h' = timesOpened log h' := List.count_cons_of_ne (by simp)

theorem timesClosed_closed (log : List (HandleEvent η)) (h : η) :
    timesClosed (closed h :: log) h = timesClosed log h + 1 := List.count_cons_self

/-- No handle is closed more often than it was opened. -/
theorem Balanced.timesClosed_le (hlog : Balanced log) (h : η) :
    timesClosed log h ≤ timesOpened log h := by
  induction log with
  | nil => exact Nat.le_refl 0
  | cons e log ih =>
      cases e with
      | opened h' =>
          rw [timesClosed_opened]
          exact Nat.le_trans (ih hlog) (List.count_le_count_cons)
      | closed h' =>
          rw [timesOpened_closed]
          by_cases hh : h' = h
          · subst hh
            rw [timesClosed_closed]
            exact hlog.1
          · have hne : timesClosed (closed h' :: log) h = timesClosed log h :=
              List.count_cons_of_ne (by simpa using hh)
            rw [hne]
            exact ih hlog.2

end HandleEvent

end Divers.Library
