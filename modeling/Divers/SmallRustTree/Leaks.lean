import Divers.SmallRustTree.Forest

/-! What a program that has dropped all its references has freed.  A node lives as long as the
program can come to it from a node it refers to, and for ever where the way up from it does not
end. -/

open Divers.Library

namespace Divers.SmallRustTree

variable {T : Type*}

namespace TreeState

variable {s t : TreeState T} {n p r : ℕ}

/-- The program, or a drop that is under way, has a strong reference to the node. -/
def Held (s : TreeState T) (n : ℕ) : Prop := n ∈ s.refs ∨ n ∈ s.dropping

namespace Linked

theorem live_of_held (h : s.Linked) (hn : s.Held n) : Live s.heap n :=
  hn.elim h.live_of_ref h.live_of_dropping

/-- The reference of a live parent. -/
theorem live_of_up (h : s.Linked) (hup : s.up n = some p) : Live s.heap n := by
  rw [up_eq] at hup
  show 0 < (s.heap n).strong
  rw [h.strong, hup, Option.isSome_some, if_pos rfl]
  omega

theorem live_of_above (h : s.Linked) (habove : Above s.up n r) (hr : s.Held r) :
    Live s.heap n := by
  rcases habove.cases_head with rfl | ⟨p, hup, -⟩
  · exact h.live_of_held hr
  · exact h.live_of_up hup

/-- A live node without a parent has its references from the program. -/
theorem held_of_live (h : s.Linked) (hlive : Live s.heap n) (hup : s.up n = none) : s.Held n := by
  rw [up_eq] at hup
  have hstrong : 0 < (s.heap n).strong := hlive
  rw [h.strong, hup, Option.isSome_none, if_neg Bool.false_ne_true] at hstrong
  by_cases hrefs : n ∈ s.refs
  · exact .inl hrefs
  · have hcount := List.count_eq_zero.mpr hrefs
    exact .inr (List.count_pos_iff.mp (by omega))

theorem exists_held_above (h : s.Linked) {l : List ℕ} (hl : Ancestors s.up n l)
    (hlive : Live s.heap n) : ∃ r, s.Held r ∧ Above s.up n r := by
  induction l generalizing n with
  | nil => exact ⟨n, h.held_of_live hlive hl, .refl⟩
  | cons p l ih =>
      obtain ⟨hup, hrest⟩ := ancestors_cons.mp hl
      have hparent := hup
      rw [up_eq, parentOf_eq_some] at hparent
      obtain ⟨r, hr, habove⟩ := ih hrest hparent.2
      exact ⟨r, hr, .head hup habove⟩

/-- Exactly the nodes at or under one that is held live, and those under a cycle. -/
theorem live_iff (h : s.Linked) :
    Live s.heap n ↔ (∃ r, s.Held r ∧ Above s.up n r) ∨ ¬ ∃ l, Ancestors s.up n l := by
  constructor
  · intro hlive
    by_cases hends : ∃ l, Ancestors s.up n l
    · obtain ⟨l, hl⟩ := hends
      exact .inl (h.exists_held_above hl hlive)
    · exact .inr hends
  · intro heither
    rcases heither with ⟨r, hr, habove⟩ | hcycle
    · exact h.live_of_above habove hr
    · cases hup : s.up n with
      | none => exact absurd ⟨[], hup⟩ hcycle
      | some p => exact h.live_of_up hup

/-- Once no node lives, no box has a weak reference left. -/
theorem isFree_of_not_live (h : s.Linked) (hdead : ∀ n, ¬ Live s.heap n) : s.heap.IsFree n := by
  refine ⟨Nat.eq_zero_of_not_pos (hdead n), ?_⟩
  have hempty : weakRefs s.heap n = ∅ := by
    apply Set.eq_empty_of_forall_notMem
    intro c hc
    have hvalue : (s.heap c).value = none := by
      rw [← Option.not_isSome_iff_eq_none, h.value]
      exact hdead c
    have hparent : nodeParent s.heap c = some n := hc
    rw [nodeParent, hvalue] at hparent
    cases hparent
  have hweak := h.weak n
  rw [hempty, Set.encard_empty] at hweak
  exact_mod_cast hweak.symm

/-- With no reference left, everything is freed exactly where there is no cycle. -/
theorem isFree_iff (h : s.Linked) (hheld : ∀ n, ¬ s.Held n) :
    (∀ n, s.heap.IsFree n) ↔ Forested s.up := by
  have hlive : ∀ n, Live s.heap n ↔ ¬ ∃ l, Ancestors s.up n l := by
    intro n
    rw [h.live_iff]
    exact or_iff_right fun ⟨r, hr, _⟩ ↦ hheld r hr
  constructor
  · intro hfree n
    by_contra hcycle
    exact absurd (hfree n).1 (Nat.ne_of_gt ((hlive n).mpr hcycle))
  · intro hforest n
    exact h.isFree_of_not_live fun n hn ↦ (hlive n).mp hn (hforest n)

end Linked

/-! ## Runs -/

theorem guarded_forested (hrun : Guarded step KeepsForest (init : TreeState T) s) :
    s.Linked ∧ Forested s.up := by
  apply hrun.invariant (I := fun s : TreeState T ↦ s.Linked ∧ Forested s.up)
  · exact ⟨init_linked, fun _ ↦ ⟨[], rfl⟩⟩
  · intro s op t hinv hkeeps hstep
    exact ⟨(hinv.1.step hstep).1, (hinv.1.forested_iff hinv.2 hstep).mpr hkeeps⟩

/-- The end of a drop takes no reference from the program. -/
theorem releases_refs (hrun : Guarded step (fun _ op ↦ op = .release) s t) : t.refs = s.refs := by
  apply hrun.invariant (I := fun t : TreeState T ↦ t.refs = s.refs) rfl
  intro t op u hrefs hop hstep
  subst hop
  rcases step_cases hstep with ⟨n, rest, -, rfl⟩
  rw [← hrefs, release]
  split <;> rfl

/-- In every run, what lives is what is held and what is under it, and what is under a cycle. -/
theorem tree_run_live (hrun : Reachable step (init : TreeState T) s) (n : ℕ) :
    Live s.heap n ↔ (∃ r, s.Held r ∧ Above s.up n r) ∨ ¬ ∃ l, Ancestors s.up n l :=
  (run_linked hrun).live_iff

/-- The program comes to 2 from 1. -/
theorem tree_run_live_orphan :
    ∃ s : TreeState Unit, Reachable step init s ∧ s.refs = [1] ∧ Live s.heap 2 := by
  obtain ⟨s, hrun, hrefs, -, hup, -, -⟩ := exists_orphan
  have hreachable : Reachable step init s := hrun.mono fun _ _ _ ↦ trivial
  refine ⟨s, hreachable, hrefs, (tree_run_live hreachable 2).mpr (.inl ⟨1, .inl ?_, ?_⟩)⟩
  · rw [hrefs]
    exact List.mem_singleton_self 1
  · exact .single hup

/-- Once the program has no reference left, the last drop comes to its end, and then every box is
free exactly where the links have no cycle: where no call has put a node under itself, always. -/
theorem tree_run_frees (hrun : Reachable step (init : TreeState T) s) (hrefs : s.refs = []) :
    ∃ t, Guarded step (fun _ op ↦ op = .release) s t ∧ t.dropping = [] ∧
      ((∀ n, t.heap.IsFree n) ↔ Forested t.up) ∧
      (Guarded step KeepsForest init s → ∀ n, t.heap.IsFree n) := by
  obtain ⟨bound, hbound⟩ := run_bounded hrun
  obtain ⟨t, hreleases, hdropping⟩ := (run_linked hrun).drop_returns hbound
  have hlinked := run_linked (hrun.trans (hreleases.mono fun _ _ _ ↦ trivial))
  have hheld : ∀ n, ¬ t.Held n := by
    intro n hn
    rw [Held, releases_refs hreleases, hrefs, hdropping] at hn
    exact hn.elim List.not_mem_nil List.not_mem_nil
  refine ⟨t, hreleases, hdropping, hlinked.isFree_iff hheld, fun hkeeps ↦ ?_⟩
  apply (hlinked.isFree_iff hheld).mpr
  have hforest := hkeeps.trans (hreleases.mono fun _ op hop ↦ by subst hop; trivial)
  exact (guarded_forested hforest).2

/-- The last reference is dropped, that to 1. -/
theorem tree_run_frees_orphan :
    ∃ s t : TreeState Unit, Guarded step KeepsForest init s ∧ s.dropping = [1] ∧
      Guarded step (fun _ op ↦ op = .release) s t ∧ ∀ n, t.heap.IsFree n := by
  obtain ⟨s, hrun, hrefs, hdropping, -⟩ := exists_orphan
  have hstep : s.step (.drop 1) = some { s with refs := [], dropping := [1] } := by
    rw [step, if_pos ⟨hdropping, by rw [hrefs]; exact List.mem_singleton_self 1⟩, hrefs]
    rfl
  have hlast := hrun.next (TreeOp.drop 1) trivial hstep
  obtain ⟨t, hreleases, -, -, hfree⟩ := tree_run_frees (hlast.mono fun _ _ _ ↦ trivial) rfl
  exact ⟨_, t, hlast, rfl, hreleases, hfree hlast⟩

end TreeState

end Divers.SmallRustTree
