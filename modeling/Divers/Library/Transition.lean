import Mathlib.Logic.Function.Basic
import Mathlib.Data.Nat.Init
import Mathlib.Tactic.Push

/-!
# Labelled transition systems

A machine is a partial step function: `step s l = some t` when the machine can take the action
`l` in `s`, and `none` when the action is refused there.  Nondeterminism (the scheduler, the
outcome of a system call) is carried by the label.  `Guarded step allow s t` is reachability by
runs whose every step also meets `allow`, a condition on the state before the step.
-/

namespace Divers.Library

variable {σ ℓ : Type*} {step : σ → ℓ → Option σ} {allow : σ → ℓ → Prop} {s t u : σ}

/-- Execute the labels in order, refusing a label the machine or the guard refuses. -/
def exec (step : σ → ℓ → Option σ) (allow : σ → ℓ → Prop) [∀ s l, Decidable (allow s l)] :
    σ → List ℓ → Option σ
  | s, [] => some s
  | s, l :: ls => if allow s l then (step s l).bind fun t ↦ exec step allow t ls else none

/-- The states reached from `s` by finite runs all of whose steps meet `allow`. -/
inductive Guarded (step : σ → ℓ → Option σ) (allow : σ → ℓ → Prop) (s : σ) : σ → Prop
  | refl : Guarded step allow s s
  | next {t u : σ} (l : ℓ) : Guarded step allow s t → allow t l → step t l = some u →
      Guarded step allow s u

/-- Reachability by unrestricted runs. -/
abbrev Reachable (step : σ → ℓ → Option σ) : σ → σ → Prop :=
  Guarded step fun _ _ ↦ True

/-- What holds at the start and is preserved by every allowed step holds along every run. -/
theorem Guarded.invariant {I : σ → Prop} (hstart : I s)
    (hstep : ∀ t l u, I t → allow t l → step t l = some u → I u)
    (hrun : Guarded step allow s t) : I t := by
  induction hrun with
  | refl => exact hstart
  | next l _ hallow hnext ih => exact hstep _ l _ ih hallow hnext

theorem Guarded.trans (hst : Guarded step allow s t) (htu : Guarded step allow t u) :
    Guarded step allow s u := by
  induction htu with
  | refl => exact hst
  | next l _ hallow hnext ih => exact .next l ih hallow hnext

theorem Guarded.mono {allow' : σ → ℓ → Prop} (himp : ∀ s l, allow s l → allow' s l)
    (hrun : Guarded step allow s t) : Guarded step allow' s t := by
  induction hrun with
  | refl => exact .refl
  | next l _ hallow hnext ih => exact .next l ih (himp _ l hallow) hnext

/-- A run is followed along a relation that every step of it keeps, by any number of steps of the
other machine. -/
theorem Guarded.simulate {τ κ : Type*} {step' : τ → κ → Option τ} {allow' : τ → κ → Prop}
    {R : σ → τ → Prop} {s' : τ} (hstart : R s s')
    (hstep : ∀ t t' l u, R t t' → allow t l → step t l = some u →
      ∃ u', Guarded step' allow' t' u' ∧ R u u')
    (hrun : Guarded step allow s t) : ∃ t', Guarded step' allow' s' t' ∧ R t t' := by
  induction hrun with
  | refl => exact ⟨s', .refl, hstart⟩
  | next l _ hallow hnext ih =>
      obtain ⟨t', hrun', hR⟩ := ih
      obtain ⟨u', hmore, hR'⟩ := hstep _ t' l _ hR hallow hnext
      exact ⟨u', hrun'.trans hmore, hR'⟩

theorem Guarded.of_exec [∀ s l, Decidable (allow s l)] {ls : List ℓ}
    (hexec : exec step allow s ls = some t) : Guarded step allow s t := by
  induction ls generalizing s with
  | nil =>
      cases hexec
      exact .refl
  | cons l ls ih =>
      rw [exec] at hexec
      split at hexec
      next hallow =>
        rcases Option.bind_eq_some_iff.mp hexec with ⟨next, hnext, hrest⟩
        exact (Guarded.next l .refl hallow hnext).trans (ih hrest)
      next => cases hexec

/-- When every allowed step lowers a measure, some run ends in a state with no allowed step. -/
theorem Guarded.exists_terminal {I : σ → Prop} (measure : σ → ℕ) (hstart : I s)
    (hstep : ∀ t l u, I t → allow t l → step t l = some u → I u ∧ measure u < measure t) :
    ∃ t, Guarded step allow s t ∧ I t ∧ ∀ l, allow t l → step t l = none := by
  induction hm : measure s using Nat.strong_induction_on generalizing s with
  | h m ih =>
      by_cases hdone : ∀ l, allow s l → step s l = none
      · exact ⟨s, .refl, hstart, hdone⟩
      · push Not at hdone
        rcases hdone with ⟨l, hallow, hsome⟩
        rcases Option.ne_none_iff_exists'.mp hsome with ⟨next, hnext⟩
        rcases hstep s l next hstart hallow hnext with ⟨hI, hlt⟩
        rcases ih (measure next) (hm ▸ hlt) hI rfl with ⟨t, hrun, hend⟩
        exact ⟨t, (Guarded.next l .refl hallow hnext).trans hrun, hend⟩

/-! ## Machines that refuse nothing -/

section Total

variable {next : σ → ℓ → σ} {I : σ → Prop} {ls : List ℓ}

/-- `P` holds in every state of the run. -/
def HoldsAlong (next : σ → ℓ → σ) (P : σ → Prop) : σ → List ℓ → Prop
  | s, [] => P s
  | s, l :: ls => P s ∧ HoldsAlong next P (next s l) ls

/-- Every step of the run meets `allow`. -/
def EachStep (next : σ → ℓ → σ) (allow : σ → ℓ → Prop) : σ → List ℓ → Prop
  | _, [] => True
  | s, l :: ls => allow s l ∧ EachStep next allow (next s l) ls

/-- A property that a step keeps exactly if it is allowed holds along the runs of allowed steps, and
along no other ones. -/
theorem holdsAlong_iff (hstep : ∀ s l, I s → (I (next s l) ↔ allow s l)) (hs : I s) :
    HoldsAlong next I s ls ↔ EachStep next allow s ls := by
  induction ls generalizing s with
  | nil => exact iff_of_true hs trivial
  | cons l ls ih =>
      rw [HoldsAlong, EachStep, and_iff_right hs]
      by_cases hallow : allow s l
      · rw [ih ((hstep s l hs).mpr hallow), and_iff_right hallow]
      · refine iff_of_false (fun h ↦ hallow ?_) fun h ↦ hallow h.1
        have hnext : I (next s l) := by
          cases ls with
          | nil => exact h
          | cons l' ls => exact h.1
        exact (hstep s l hs).mp hnext

end Total

end Divers.Library
