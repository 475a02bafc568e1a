import Divers.Library.LinkedPath
import Mathlib.Data.Option.Basic
import Mathlib.Logic.Relation

/-!
# Going up

`up i` is the node above `i`, if there is one.  The structure is a forest when going up from every
node ends.  Putting a root `c` under `p` keeps it a forest exactly when `c` is not above `p`.
-/

namespace Divers.Library

variable {ι : Type*} {up up' : ι → Option ι} {c i j p : ι} {l : List ι}

/-- Going up from `i` visits the nodes of `l`, in order, and ends. -/
def Ancestors (up : ι → Option ι) (i : ι) (l : List ι) : Prop := Path some up (up i) l none

/-- `j` is `i`, or met on the way up from `i`. -/
def Above (up : ι → Option ι) (i j : ι) : Prop :=
  Relation.ReflTransGen (fun i j ↦ up i = some j) i j

def Forested (up : ι → Option ι) : Prop := ∀ i, ∃ l, Ancestors up i l

theorem ancestors_nil : Ancestors up i [] ↔ up i = none := Iff.rfl

theorem ancestors_cons : Ancestors up i (j :: l) ↔ up i = some j ∧ Ancestors up j l := Iff.rfl

theorem Ancestors.unique {l' : List ι} (h : Ancestors up i l) (h' : Ancestors up i l') : l = l' :=
  Path.unique (Option.some_injective ι) h h' (fun _ _ ↦ Option.some_ne_none _)
    fun _ _ ↦ Option.some_ne_none _

/-- What the way up visits. -/
theorem Ancestors.above_iff (h : Ancestors up i l) : Above up i j ↔ j ∈ i :: l := by
  induction l generalizing i with
  | nil =>
      rw [List.mem_singleton]
      constructor
      · intro habove
        rcases habove.cases_head with heq | ⟨k, hk, -⟩
        · exact heq.symm
        · rw [ancestors_nil.mp h] at hk
          cases hk
      · intro heq
        subst heq
        exact .refl
  | cons k l ih =>
      rcases ancestors_cons.mp h with ⟨hk, hrest⟩
      rw [List.mem_cons, ← ih hrest]
      constructor
      · intro habove
        rcases habove.cases_head with heq | ⟨k', hk', habove⟩
        · exact Or.inl heq.symm
        · rw [hk] at hk'
          cases hk'
          exact Or.inr habove
      · intro heither
        obtain rfl | habove := heither
        · exact .refl
        · exact .head hk habove

/-- The way up from a node of the way up is the rest of it. -/
theorem Ancestors.suffix (h : Ancestors up i l) (hj : j ∈ l) :
    ∃ l', Ancestors up j l' ∧ l'.length < l.length := by
  induction l generalizing i with
  | nil => exact absurd hj List.not_mem_nil
  | cons k l ih =>
      have hrest := (ancestors_cons.mp h).2
      rcases List.mem_cons.mp hj with rfl | hj
      · exact ⟨l, hrest, Nat.lt_succ_self _⟩
      · rcases ih hrest hj with ⟨l', hl', hlt⟩
        exact ⟨l', hl', Nat.lt_succ_of_lt hlt⟩

/-- No node of a forest is above itself. -/
theorem Ancestors.not_mem_self (h : Ancestors up i l) : i ∉ l := by
  intro hi
  rcases h.suffix hi with ⟨l', hl', hlt⟩
  rw [h.unique hl'] at hlt
  exact Nat.lt_irrefl _ hlt

/-- Taking nodes off what they are under keeps a forest. -/
theorem Forested.prune (h : Forested up) (hprune : ∀ i, up' i = up i ∨ up' i = none) :
    Forested up' := by
  intro i
  rcases h i with ⟨l, hl⟩
  induction l generalizing i with
  | nil =>
      rcases hprune i with heq | heq
      · exact ⟨[], heq.trans (ancestors_nil.mp hl)⟩
      · exact ⟨[], heq⟩
  | cons k l ih =>
      rcases ancestors_cons.mp hl with ⟨hk, hrest⟩
      rcases hprune i with heq | heq
      · rcases ih k hrest with ⟨l', hl'⟩
        exact ⟨k :: l', heq.trans hk, hl'⟩
      · exact ⟨[], heq⟩

section Attach

variable [DecidableEq ι] (hattach : ∀ i, up' i = if i = c then some p else up i)
include hattach

/-- The way up from a node that is not below `c` stays the same. -/
theorem Ancestors.attach_apart (h : Ancestors up i l) (hc : c ∉ i :: l) : Ancestors up' i l := by
  have hkeep : ∀ k ∈ i :: l, up' k = up k := by
    intro k hk
    rw [hattach, if_neg]
    intro heq
    subst heq
    exact hc hk
  unfold Ancestors
  rw [hkeep i List.mem_cons_self]
  exact Path.congr h fun k hk ↦ hkeep k (List.mem_cons_of_mem i hk)

/-- Attaching does not change what is above `p` as far as `c`. -/
theorem Above.attach (h : Above up i c) : Above up' i c := by
  induction h using Relation.ReflTransGen.head_induction_on with
  | refl => exact .refl
  | head hij _ ih =>
      rename_i i j _
      by_cases hi : i = c
      · rw [hi]
        exact .refl
      · apply Relation.ReflTransGen.head _ ih
        rw [hattach, if_neg hi]
        exact hij

theorem Forested.attach_iff (h : Forested up) (hroot : up c = none) :
    Forested up' ↔ ¬ Above up p c := by
  constructor
  · intro hforest habove
    -- from `p` up to `c` and on to `p` again
    rcases hforest p with ⟨l, hl⟩
    have hc : c ∈ p :: l := hl.above_iff.mp (habove.attach hattach)
    have hcp : up' c = some p := by rw [hattach, if_pos rfl]
    rcases hforest c with ⟨l', hl'⟩
    have heq := (ancestors_cons.mpr ⟨hcp, hl⟩).unique hl'
    rw [← heq] at hl'
    exact hl'.not_mem_self hc
  · intro hnot i
    rcases h p with ⟨lp, hlp⟩
    have hp : Ancestors up' p lp := hlp.attach_apart hattach fun hc ↦ hnot (hlp.above_iff.mpr hc)
    have hcp : Ancestors up' c (p :: lp) := ⟨by rw [hattach, if_pos rfl], hp⟩
    rcases h i with ⟨l, hl⟩
    induction l generalizing i with
    | nil =>
        by_cases hi : i = c
        · exact hi ▸ ⟨_, hcp⟩
        · refine ⟨[], ?_⟩
          rw [ancestors_nil, hattach, if_neg hi]
          exact hl
    | cons k l ih =>
        rcases ancestors_cons.mp hl with ⟨hk, hrest⟩
        rcases ih k hrest with ⟨l', hl'⟩
        refine ⟨k :: l', ?_, hl'⟩
        have hi : i ≠ c := by
          intro heq
          subst heq
          rw [hroot] at hk
          cases hk
        rw [hattach, if_neg hi]
        exact hk

end Attach

end Divers.Library
