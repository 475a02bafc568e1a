import Mathlib.Data.List.Sort
import Mathlib.Data.List.TakeWhile

/-!
# Stable insertion

A list kept in order by insertion, beside its history: the elements that were inserted and are still
there.  An element is inserted in front of those that tie with it, and the history has the newest
first, or behind them, and the history has the oldest first.
-/

namespace Divers.Library

variable {α : Type*} (r : α → α → Prop) [DecidableRel r] {history l : List α} {a b c : α}

/-- `a` and `b` may stand in either order. -/
def Tied (a b : α) : Bool := decide (r a b ∧ r b a)

variable {r}

theorem tied_iff : Tied r a b = true ↔ r a b ∧ r b a := decide_eq_true_iff

variable (r)

structure StablySorted (history l : List α) : Prop where
  sorted : l.Pairwise r
  perm : l.Perm history
  ties : ∀ a, l.filter (Tied r a) = history.filter (Tied r a)

variable {r}

theorem StablySorted.nil : StablySorted r [] [] := ⟨.nil, .refl _, fun _ ↦ rfl⟩

/-- Among the elements that tie with `a`, a new one comes first. -/
theorem filter_orderedInsert [IsTrans α r] (a c : α) (l : List α) :
    (l.orderedInsert r c).filter (Tied r a) =
      if Tied r a c then c :: l.filter (Tied r a) else l.filter (Tied r a) := by
  induction l with
  | nil => rw [List.orderedInsert_nil, List.filter_cons]
  | cons b l ih =>
      rw [List.orderedInsert_cons]
      split
      next => rw [List.filter_cons]
      next hcb =>
        rw [List.filter_cons, ih]
        by_cases hac : Tied r a c = true
        · -- `b` comes strictly before `c`, so it does not tie with `a`
          have hab : ¬ Tied r a b = true := by
            intro hab
            rw [tied_iff] at hab hac
            exact hcb (trans_of r hac.2 hab.1)
          rw [if_pos hac, if_pos hac, if_neg hab, List.filter_cons_of_neg hab]
        · rw [if_neg hac, if_neg hac, List.filter_cons]

theorem StablySorted.insert [Std.Total r] [IsTrans α r] (h : StablySorted r history l) (c : α) :
    StablySorted r (c :: history) (l.orderedInsert r c) where
  sorted := h.sorted.orderedInsert c l
  perm := (List.perm_orderedInsert r c l).trans (h.perm.cons c)
  ties a := by
    rw [filter_orderedInsert, h.ties, List.filter_cons]

theorem StablySorted.erase [DecidableEq α] (h : StablySorted r history l) (hnodup : l.Nodup)
    (c : α) : StablySorted r (history.erase c) (l.erase c) where
  sorted := h.sorted.sublist List.erase_sublist
  perm := h.perm.erase c
  ties a := by
    have hhistory : history.Nodup := h.perm.nodup_iff.mp hnodup
    rw [hnodup.erase_eq_filter, hhistory.erase_eq_filter, List.filter_comm, h.ties,
      List.filter_comm]

/-! ### Behind the ties -/

variable (r) in
/-- `c` behind the first elements that come before it or tie with it. -/
def insertBehind (c : α) (l : List α) : List α :=
  (l.takeWhile fun b ↦ decide (r b c)) ++ c :: l.dropWhile fun b ↦ decide (r b c)

theorem insertBehind_perm (c : α) (l : List α) : (insertBehind r c l).Perm (l ++ [c]) := by
  have hsplit := List.takeWhile_append_dropWhile (p := fun b ↦ decide (r b c)) (l := l)
  have hmiddle : (insertBehind r c l).Perm (c :: l) := by
    unfold insertBehind
    rw [← congrArg (List.cons c) hsplit]
    exact List.perm_middle
  exact hmiddle.trans (List.perm_append_singleton c l).symm

/-- In a sorted list, where one element does not come before `c`, no later one does. -/
theorem not_of_mem_dropWhile [IsTrans α r] (hsorted : l.Pairwise r)
    (hb : b ∈ l.dropWhile fun b ↦ decide (r b c)) : ¬ r b c := by
  induction l with
  | nil => exact absurd hb List.not_mem_nil
  | cons d l ih =>
      rw [List.pairwise_cons] at hsorted
      by_cases hd : r d c
      · rw [List.dropWhile_cons, if_pos (decide_eq_true hd)] at hb
        exact ih hsorted.2 hb
      · rw [List.dropWhile_cons, if_neg (by simpa using hd)] at hb
        obtain rfl | hb := List.mem_cons.mp hb
        · exact hd
        · exact fun hbc ↦ hd (trans_of r (hsorted.1 b hb) hbc)

theorem StablySorted.insert_behind [Std.Total r] [IsTrans α r] (h : StablySorted r history l)
    (c : α) : StablySorted r (history ++ [c]) (insertBehind r c l) := by
  have hbefore : ∀ b ∈ l.takeWhile fun b ↦ decide (r b c), r b c := by
    intro b hb
    have := List.mem_takeWhile_imp hb
    exact of_decide_eq_true this
  have hbehind : ∀ b ∈ l.dropWhile fun b ↦ decide (r b c), ¬ r b c :=
    fun b hb ↦ not_of_mem_dropWhile h.sorted hb
  have hsplit := List.takeWhile_append_dropWhile (p := fun b ↦ decide (r b c)) (l := l)
  refine ⟨?_, (insertBehind_perm c l).trans (h.perm.append_right [c]), fun a ↦ ?_⟩ <;>
    unfold insertBehind
  · have hsorted := h.sorted
    rw [← hsplit, List.pairwise_append] at hsorted
    rw [List.pairwise_append, List.pairwise_cons]
    refine ⟨hsorted.1, ⟨fun b hb ↦ ?_, hsorted.2.1⟩, fun b hb d hd ↦ ?_⟩
    · exact (Std.Total.total b c).resolve_left (hbehind b hb)
    · obtain rfl | hd := List.mem_cons.mp hd
      · exact hbefore b hb
      · exact hsorted.2.2 b hb d hd
  · have hties := h.ties a
    rw [← hsplit, List.filter_append] at hties
    rw [List.filter_append, List.filter_append, ← hties, List.filter_cons, List.filter_cons,
      List.filter_nil]
    by_cases hac : Tied r a c = true
    · -- what stands behind `c` comes strictly after it, so it does not tie with `a`
      have hnone : (l.dropWhile fun b ↦ decide (r b c)).filter (Tied r a) = [] := by
        rw [List.filter_eq_nil_iff]
        intro b hb hab
        rw [tied_iff] at hab hac
        exact hbehind b hb (trans_of r hab.2 hac.1)
      rw [if_pos hac, if_pos hac, hnone, List.append_nil]
    · rw [if_neg hac, if_neg hac, List.append_nil]

end Divers.Library
