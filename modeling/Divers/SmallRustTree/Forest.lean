import Divers.Library.Ancestors
import Divers.SmallRustTree.Parents

/-! `add_children` looks at the parent of the child only, so whether the links stay a forest is up
to its caller. -/

open Divers.Library

namespace Divers.SmallRustTree

variable {T : Type*}

namespace TreeState

variable {s t : TreeState T} {c n p : ℕ}

/-- The node that `get_parent` returns. -/
def up (s : TreeState T) (c : ℕ) : Option ℕ := (SmallRustTree.getParent s.heap c).2

theorem up_eq (s : TreeState T) : s.up = parentOf s.heap := by
  funext c
  exact getParent_snd s.heap c

/-- A child without a live parent is not put under itself or under a node below it. -/
def KeepsForest (s : TreeState T) : TreeOp T → Prop
  | .addChildren self child => s.up child = none → ¬ Above s.up self child
  | _ => True

/-- A step leaves a forest exactly when it puts no node under itself. -/
theorem Linked.forested_iff {op : TreeOp T} (h : s.Linked) (hforest : Forested s.up)
    (hstep : s.step op = some t) : Forested t.up ↔ s.KeepsForest op := by
  rcases h.step hstep with ⟨-, -, ⟨hquiet, hprune⟩ | ⟨p, c, rfl, hroot, hattach⟩⟩
  · rw [up_eq] at hforest ⊢
    refine iff_of_true (hforest.prune hprune) ?_
    cases op with
    | addChildren self child =>
        intro hroot
        rw [up_eq] at hroot
        exact absurd hroot (hquiet self child rfl)
    | _ => trivial
  · unfold KeepsForest
    rw [up_eq] at hforest ⊢
    rw [hforest.attach_iff hattach hroot, up_eq]
    exact ⟨fun hnot _ ↦ hnot, fun hnot ↦ hnot hroot⟩

/-- As long as no child is put under itself or under a node below it the links are a forest, and the
first call that does so ends that. -/
theorem tree_run_forested (hrun : Guarded step KeepsForest (init : TreeState T) s) :
    Forested s.up ∧
    ∀ op t, s.step op = some t → (Forested t.up ↔ s.KeepsForest op) := by
  have hinv : s.Linked ∧ Forested s.up := by
    apply hrun.invariant (I := fun s : TreeState T ↦ s.Linked ∧ Forested s.up)
    · refine ⟨init_linked, fun c ↦ ⟨[], ?_⟩⟩
      rfl
    · intro s op t hinv hkeeps hstep
      obtain ⟨h, hforest⟩ := hinv
      exact ⟨(h.step hstep).1, (h.forested_iff hforest hstep).mpr hkeeps⟩
  exact ⟨hinv.2, fun op t ↦ hinv.1.forested_iff hinv.2⟩

/-- Node 1 is put under 0 and 2 under 1, and the references to 2 and 0 are dropped: 0 dies, and 2
lives under 1. -/
theorem exists_orphan :
    ∃ s : TreeState Unit, Guarded step KeepsForest init s ∧ s.refs = [1] ∧ s.dropping = [] ∧
      s.up 2 = some 1 ∧ s.up 1 = none ∧ ¬ Live s.heap 0 := by
  have hrun : ∃ s₁ s₂ s₃ s₄ s₅ s₆ s₇ s₈ s₉ s : TreeState Unit,
      step init (.new 0 ()) = some s₁ ∧ step s₁ (.new 1 ()) = some s₂ ∧
      step s₂ (.new 2 ()) = some s₃ ∧ step s₃ (.addChildren 0 1) = some s₄ ∧
      step s₄ (.addChildren 1 2) = some s₅ ∧ step s₅ (.drop 2) = some s₆ ∧
      step s₆ .release = some s₇ ∧ step s₇ (.drop 0) = some s₈ ∧ step s₈ .release = some s₉ ∧
      step s₉ .release = some s ∧ (s₃.up 0 = none ∧ s₄.up 1 = some 0 ∧ s₄.up 0 = none) ∧
      s.refs = [1] ∧ s.dropping = [] ∧ s.up 2 = some 1 ∧ s.up 1 = none ∧ ¬ Live s.heap 0 :=
    ⟨_, _, _, _, _, _, _, _, _, _, rfl, rfl, rfl, rfl, rfl, rfl, rfl, rfl, rfl, rfl,
      ⟨rfl, rfl, rfl⟩, rfl, rfl, rfl, rfl, Nat.lt_irrefl 0⟩
  obtain ⟨s₁, s₂, s₃, s₄, s₅, s₆, s₇, s₈, s₉, s, h₁, h₂, h₃, h₄, h₅, h₆, h₇, h₈, h₉, hlast,
    ⟨hroot, hparent, hroot'⟩, hend⟩ := hrun
  -- what is above the node that gets a child: nothing, and then the first
  have hone : ¬ Above s₃.up 0 1 := by
    have hup : Ancestors s₃.up 0 [] := hroot
    rw [hup.above_iff]
    decide
  have htwo : ¬ Above s₄.up 1 2 := by
    have hup : Ancestors s₄.up 1 [0] := ancestors_cons.mpr ⟨hparent, hroot'⟩
    rw [hup.above_iff]
    decide
  have hbuilt : Guarded step KeepsForest init s₃ :=
    ((Guarded.refl.next (.new 0 ()) trivial h₁).next (.new 1 ()) trivial h₂).next (.new 2 ())
      trivial h₃
  have hlinked : Guarded step KeepsForest init s₅ :=
    (hbuilt.next (TreeOp.addChildren 0 1) (fun _ ↦ hone) h₄).next (TreeOp.addChildren 1 2)
      (fun _ ↦ htwo) h₅
  have hdropped : Guarded step KeepsForest init s₇ :=
    (hlinked.next (TreeOp.drop 2) trivial h₆).next TreeOp.release trivial h₇
  exact ⟨s, ((hdropped.next (TreeOp.drop 0) trivial h₈).next TreeOp.release trivial h₉).next
    TreeOp.release trivial hlast, hend⟩

theorem tree_run_forested_orphan :
    ∃ s : TreeState Unit, Guarded step KeepsForest init s ∧ s.up 2 = some 1 ∧ ¬ Live s.heap 0 ∧
      Forested s.up := by
  obtain ⟨s, hrun, -, -, hup, -, hdead⟩ := exists_orphan
  exact ⟨s, hrun, hup, hdead, (tree_run_forested hrun).1⟩

/-- One node, and the same node once it has been put under itself. -/
def single : TreeState Unit := ⟨RcHeap.empty.new 0 (listNode ()), [0], []⟩

def loop : TreeState Unit := { single with heap := pushChild (setParent single.heap 0 0) 0 0 }

/-- The calls that make nodes and link them. -/
def BuildsTree : TreeOp T → Prop
  | .new _ _ => True
  | .addChildren _ _ => True
  | .release => True
  | _ => False

/-- `add_children` puts a node under itself: it is its own parent. -/
theorem tree_run_not_forested :
    ¬ ∀ s : TreeState Unit, Guarded step (fun _ op ↦ BuildsTree op) init s → Forested s.up := by
  intro hclaim
  have hrun : Guarded step (fun _ op ↦ BuildsTree op) init loop :=
    (Guarded.refl.next (u := single) (.new 0 ()) trivial rfl).next (.addChildren 0 0) trivial rfl
  have hself : loop.up 0 = some 0 := rfl
  rcases hclaim loop hrun 0 with ⟨l, hl⟩
  cases l with
  | nil =>
      rw [ancestors_nil, hself] at hl
      cases hl
  | cons c l =>
      have hl' := hl
      rw [ancestors_cons, hself] at hl'
      rcases hl' with ⟨heq, hrest⟩
      cases heq
      exact hl.not_mem_self List.mem_cons_self

end TreeState

end Divers.SmallRustTree
