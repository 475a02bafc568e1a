import Divers.Library.Ancestors
import Divers.Tad.NTreeForest

/-! Going up in n_tree.  The `parent` pointers say where a node is as long as no node is taken out
of a child list: removal leaves the pointer. -/

open Divers.Library

namespace Divers.Tad

variable {ι : Type*}

/-! ## What going up should visit -/

/-- Going up from `n` through the child lists meets the fathers `l`. -/
def FatherChain (h : NtreeHeap ι) : ι → List ι → Prop
  | n, [] => ∀ f, ¬ IsChild h f n
  | n, f :: l => IsChild h f n ∧ FatherChain h f l

/-- `ntree_foreach_ancestor` ends at every node and visits the fathers, and `ntree_elt_is_root`
tells the nodes that are in no child list. -/
structure GoesUp [DecidableEq ι] (h : NtreeHeap ι) : Prop where
  visits : ∀ n, ∃ bound l, ntreeForeachAncestor bound h n = some l ∧
    ∀ l', FatherChain h n l' ↔ l' = l
  root : ∀ n, ntreeEltIsRoot h n = true ↔ ∀ f, ¬ IsChild h f n

/-- The node is not a child of the father that it is to be removed from. -/
def TakesNothingOut (h : NtreeHeap ι) : ℕ × NtreeOp ι → Prop
  | (_, .remove father child) => ¬ IsChild h father child
  | _ => True

def up (h : NtreeHeap ι) (i : ι) : Option ι := (h i).parent

theorem foreachAncestor_eq {h : NtreeHeap ι} {walker : Option ι} {l : List ι}
    (hl : Path some (up h) walker l none) :
    foreachAncestor h (l.length + 1) walker = some l := by
  induction l generalizing walker with
  | nil =>
      rw [path_nil] at hl
      rw [hl]
      rfl
  | cons i l ih =>
      rcases hl with ⟨rfl, hrest⟩
      have hrec : foreachAncestor h (l.length + 1) (h i).parent = some l := ih hrest
      rw [List.length_cons, foreachAncestor, hrec]
      rfl

theorem ntreeRemoveChild_parent [DecidableEq ι] {h h' : NtreeHeap ι} {bound : ℕ} {f c : ι}
    (hstep : ntreeRemoveChild bound h f c = some h') (i : ι) : (h' i).parent = (h i).parent := by
  unfold ntreeRemoveChild at hstep
  rcases Option.map_eq_some_iff.mp hstep with ⟨⟨walk, pwalk⟩, -, rfl⟩
  cases walk with
  | none => rfl
  | some walk =>
      cases pwalk with
      | none => rfl
      | some pwalk => rfl

/-! ## Parent pointers that say where a node is -/

structure Rooted (h : NtreeHeap ι) : Prop where
  represents : ∃ F, Represents h F
  parent : ∀ {f c}, (h c).parent = some f → IsChild h f c
  next : ∀ c, (h c).parent = none → (h c).next = none
  forested : Forested (up h)

namespace Rooted

variable {h h' : NtreeHeap ι} {f c : ι}

theorem init : Rooted (fun _ ↦ ntreeEltInit : NtreeHeap ι) :=
  ⟨⟨_, Represents.init⟩, nofun, fun _ _ ↦ rfl, fun _ ↦ ⟨[], rfl⟩⟩

theorem isChild_iff (hr : Rooted h) : IsChild h f c ↔ up h c = some f := by
  rcases hr.represents with ⟨F, hF⟩
  exact ⟨hF.separated.parent, hr.parent⟩

theorem no_father_iff (hr : Rooted h) : (∀ f, ¬ IsChild h f c) ↔ up h c = none := by
  simp only [hr.isChild_iff, Option.eq_none_iff_forall_ne_some, ne_eq]

theorem fatherChain_iff (hr : Rooted h) {n : ι} {l : List ι} :
    FatherChain h n l ↔ Ancestors (up h) n l := by
  induction l generalizing n with
  | nil => exact hr.no_father_iff
  | cons f l ih =>
      rw [ancestors_cons, ← ih, ← hr.isChild_iff]
      rfl

theorem goesUp [DecidableEq ι] (hr : Rooted h) : GoesUp h := by
  constructor
  · intro n
    rcases hr.forested n with ⟨l, hl⟩
    refine ⟨l.length + 1, l, foreachAncestor_eq hl, fun l' ↦ ?_⟩
    rw [hr.fatherChain_iff]
    constructor
    · exact fun hl' ↦ hl'.unique hl
    · intro heq
      subst heq
      exact hl
  · intro n
    rw [hr.no_father_iff]
    exact decide_eq_true_iff

/-- A node that may be put under `f` is not above it. -/
theorem not_above (hr : Rooted h) (hattach : Attachable h f c) : ¬ Above (up h) f c := by
  intro habove
  apply hattach.2
  rw [← Relation.reflTransGen_swap]
  exact Relation.ReflTransGen.mono (fun _ _ hup ↦ hr.isChild_iff.mpr hup) _ _ habove

theorem noStaleInsert (hr : Rooted h) {call : ℕ × NtreeOp ι} (hpermitted : Permitted h call) :
    NoStaleInsert h call := by
  rcases call with ⟨bound, op⟩
  cases op with
  | insert father child comparator =>
      intro _
      exact hr.next child (hr.no_father_iff.mp hpermitted.1)
  | _ => trivial

variable [DecidableEq ι]

/-- Linking a node under `f` writes its `parent`. -/
theorem attach (hr : Rooted h) {F : Forest ι} (hF : Represents h F) {pre post : List ι}
    {hsplit : F.list f = pre ++ post} {hc : ∀ g, c ∉ F.list g} (hattach : Attachable h f c)
    (hF' : Represents h' (F.attach f c pre post hsplit hc)) (hlinks : LinksUnder h h' F f c) :
    Rooted h' where
  represents := ⟨_, hF'⟩
  parent {g d} hd := by
    rw [hF'.isChild_iff, Forest.mem_attach]
    rw [hlinks.parent] at hd
    split at hd
    next hdc => exact Or.inl ⟨hdc, (Option.some.inj hd).symm⟩
    next => exact Or.inr (hF.isChild_iff.mp (hr.parent hd))
  next d hd := by
    rw [hlinks.parent] at hd
    split at hd
    next => cases hd
    next hdc =>
      have hout : d ∉ F.list f := by
        intro hmem
        rw [hF.parents hmem] at hd
        cases hd
      rw [hlinks.next d hdc hout]
      exact hr.next d hd
  forested := by
    have hroot : up h c = none := hr.no_father_iff.mp hattach.1
    have hup : ∀ i, up h' i = if i = c then some f else up h i := hlinks.parent
    exact (hr.forested.attach_iff hup hroot).mpr (hr.not_above hattach)

/-- A removed node keeps its `parent`, although it is in no list. -/
theorem not_goesUp_of_detach {F : Forest ι} (hF : Represents h F) (hc : c ∈ F.list f)
    (hF' : Represents h' (F.detach f c)) (hparent : (h' c).parent = (h c).parent) :
    ¬ GoesUp h' := by
  intro hgoes
  have hout : ∀ g, ¬ IsChild h' g c := by
    intro g hg
    rw [hF'.isChild_iff] at hg
    have hgf : g = f := F.unique (Forest.mem_of_detach hg) hc
    subst hgf
    exact Forest.not_mem_detach hg
  have hroot := (hgoes.root c).mpr hout
  unfold ntreeEltIsRoot at hroot
  rw [decide_eq_true_iff, hparent, hF.parents hc] at hroot
  cases hroot

/-- A permitted call keeps going up right exactly when it takes no node out of a child list. -/
theorem step (hr : Rooted h) {call : ℕ × NtreeOp ι} (hpermitted : Permitted h call)
    (hstep : ntreeStep h call = some h') :
    (TakesNothingOut h call → Rooted h') ∧ (GoesUp h' ↔ TakesNothingOut h call) := by
  rcases hr.represents with ⟨F, hF⟩
  rcases call with ⟨bound, op⟩
  have hstale := hr.noStaleInsert hpermitted
  rcases hF.step_cases hpermitted hstale hstep with
    ⟨c, pre, post, hsplit, hc, hlinking, hattach, hF', hlinks⟩ | ⟨f, c, rfl, hF'⟩
  · have hr' := hr.attach hF hattach hF' hlinks
    have hnothing : TakesNothingOut h (bound, op) := by
      cases op with
      | remove father child => exact absurd rfl (hlinking father child)
      | _ => trivial
    exact ⟨fun _ ↦ hr', iff_of_true hr'.goesUp hnothing⟩
  · by_cases hc : c ∈ F.list f
    · have hout : ¬ TakesNothingOut h (bound, .remove f c) :=
        fun hnothing ↦ hnothing (hF.isChild_iff.mpr hc)
      have hparent : (h' c).parent = (h c).parent := ntreeRemoveChild_parent hstep c
      exact ⟨fun hnothing ↦ absurd hnothing hout,
        iff_of_false (not_goesUp_of_detach hF hc hF' hparent) hout⟩
    · -- nothing is written
      have hnothing : TakesNothingOut h (bound, .remove f c) :=
        fun hchild ↦ hc (hF.isChild_iff.mp hchild)
      rw [hF.removeChild_absent hc hstep]
      exact ⟨fun _ ↦ hr, iff_of_true hr.goesUp hnothing⟩

end Rooted

/-- As long as no node is taken out of a child list, going up visits the fathers and ends, and the
first call that takes one out ends that. -/
theorem ntree_run_goesUp [DecidableEq ι] {h : NtreeHeap ι}
    (hrun : Guarded ntreeStep (fun h call ↦ Permitted h call ∧ TakesNothingOut h call)
      (fun _ ↦ ntreeEltInit) h) :
    GoesUp h ∧
    ∀ call h', Permitted h call → ntreeStep h call = some h' →
      (GoesUp h' ↔ TakesNothingOut h call) := by
  have hr : Rooted h := by
    apply hrun.invariant (I := fun h : NtreeHeap ι ↦ Rooted h) Rooted.init
    intro h call h' hr hallowed hstep
    obtain ⟨hpermitted, hnothing⟩ := hallowed
    exact (hr.step hpermitted hstep).1 hnothing
  exact ⟨hr.goesUp, fun _ _ hpermitted hstep ↦ (hr.step hpermitted hstep).2⟩

/-- 2 is inserted under 1, which is under 0, and removed from 0, where it is not. -/
theorem ntree_run_goesUp_absent :
    ∃ h : NtreeHeap (Fin 4),
      Guarded ntreeStep (fun h call ↦ Permitted h call ∧ TakesNothingOut h call)
        (fun _ ↦ ntreeEltInit) h ∧
      ntreeForeachAncestor 3 h 2 = some [1, 0] ∧ GoesUp h := by
  let h₀ : NtreeHeap (Fin 4) := fun _ ↦ ntreeEltInit
  let h₁ := ntreePrependChild h₀ 0 1
  let h₂ := setChild (setParent h₁ 2 (some 1)) 1 (some 2)
  have hone : Attachable h₀ 0 1 :=
    attachable_of_lists (fun _ ↦ []) (by decide) (by decide) rfl (by decide)
  have htwo : Attachable h₁ 1 2 :=
    attachable_of_lists (fun g ↦ if g = 0 then [1] else []) (by decide) (by decide) rfl (by decide)
  have habsent : ¬ IsChild h₂ 0 2 := by
    rintro ⟨l, hl, hmem⟩
    have hlist : ChildList h₂ 0 [1] := by decide
    rw [childList_unique hl hlist] at hmem
    revert hmem
    decide
  have hrun : Guarded ntreeStep (fun h call ↦ Permitted h call ∧ TakesNothingOut h call) h₀ h₂ :=
    ((Guarded.refl.next (0, .prepend 0 1) ⟨hone, trivial⟩ rfl).next
      (1, .insert 1 2 byNumber) ⟨htwo, trivial⟩ rfl).next
      (2, .remove 0 2) ⟨trivial, habsent⟩ rfl
  exact ⟨h₂, hrun, rfl, (ntree_run_goesUp hrun).1⟩

/-- A child is put under 0 and removed again: it is in no child list, and not a root. -/
theorem ntree_run_not_goesUp :
    ¬ ∀ h : NtreeHeap (Fin 2),
      Guarded ntreeStep Permitted (fun _ ↦ ntreeEltInit) h → GoesUp h := by
  intro hclaim
  let h₀ : NtreeHeap (Fin 2) := fun _ ↦ ntreeEltInit
  let h₁ := ntreePrependChild h₀ 0 1
  let h₂ := setChild h₁ 0 none
  have hattach : Attachable h₀ 0 1 :=
    attachable_of_lists (fun _ ↦ []) (fun _ ↦ rfl) (fun _ ↦ List.not_mem_nil) rfl (by decide)
  have hrun : Guarded ntreeStep Permitted h₀ h₂ :=
    (Guarded.refl.next (0, .prepend 0 1) hattach rfl).next (1, .remove 0 1) trivial rfl
  -- all child lists are empty
  have hfree : Attachable h₂ 0 1 :=
    attachable_of_lists (fun _ ↦ []) (by decide) (by decide) rfl (by decide)
  exact absurd (((hclaim h₂ hrun).root 1).mpr hfree.1) (by decide)

end Divers.Tad
