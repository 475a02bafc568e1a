import Divers.Tad.ChildList

/-!
# Children in order

A father that gets its children from `ntree_insert_child` alone, under one comparator, keeps them
sorted.  The walk goes on past the children that compare equal, so these stay in the order of
insertion.
-/

open Divers.Library

namespace Divers.Tad

variable {ι : Type*} [DecidableEq ι] {h : NtreeHeap ι} {father child : ι} {l : List ι}

/-- Insertions in a row, each of whose loops is allowed the given number of iterations. -/
def ntreeInsertMany (bound : ℕ) (comparator : ι → ι → ℤ) (father : ι) :
    NtreeHeap ι → List ι → Option (NtreeHeap ι)
  | h, [] => some h
  | h, child :: children =>
      (ntreeInsertChild bound h father child comparator).bind fun h ↦
        ntreeInsertMany bound comparator father h children

/-- Linking a node changes no other node's pointer but the one in front of it. -/
theorem Slist.linkAfter_next (s : Slist ι) {pwalk : Option ι} {elt i : ι} (helt : i ≠ elt)
    (hwalk : ∀ k ∈ pwalk, i ≠ k) : (s.linkAfter pwalk elt).next i = s.next i := by
  cases pwalk with
  | none => exact Function.update_of_ne helt _ _
  | some k =>
      show Function.update (Function.update s.next elt (s.next k)) k (some elt) i = s.next i
      rw [Function.update_of_ne (hwalk k rfl), Function.update_of_ne helt]

/-- One insertion: the node goes behind the children that do not compare greater, and a node outside
the list keeps its `next` pointer. -/
theorem ChildList.insert (hl : ChildList h father l) (hchild : child ∉ l)
    (hnext : (h child).next = none) (comparator : ι → ι → ℤ) {bound : ℕ}
    (hbound : l.length < bound) :
    ∃ h', ntreeInsertChild bound h father child comparator = some h' ∧
      ChildList h' father (insertBehind (InOrder comparator) child l) ∧
      ∀ i, i ≠ child → i ∉ l → (h' i).next = (h i).next := by
  have hsplit := List.takeWhile_append_dropWhile
    (p := fun walk ↦ decide (comparator walk child ≤ 0)) (l := l)
  obtain ⟨h', hrun, hlink⟩ :=
    childSlist_insert hl hnext comparator (length_takeWhile_lt hbound)
  refine ⟨h', hrun, ?_, fun i hi hil ↦ ?_⟩
  · rw [childList_iff, hlink]
    rw [childList_iff, ← hsplit] at hl
    rw [← hsplit] at hchild
    exact hl.linkAfter (ChildList.nodup hl) hchild
  · rw [← childSlist_next h' father, hlink, Slist.linkAfter_next _ hi, childSlist_next]
    intro k hk heq
    subst heq
    apply hil
    have hmem := List.mem_of_getLast? hk
    exact (List.takeWhile_sublist _).subset hmem

theorem insertMany_sorted {comparator : ι → ι → ℤ} (hcmp : TotalPreorder comparator)
    {history children : List ι} (hl : ChildList h father l)
    (hstable : StablySorted (InOrder comparator) history l) (hnodup : children.Nodup)
    (hfresh : ∀ c ∈ children, c ∉ l ∧ (h c).next = none) {bound : ℕ}
    (hbound : l.length + children.length ≤ bound) :
    ∃ h' l', ntreeInsertMany bound comparator father h children = some h' ∧
      ChildList h' father l' ∧ StablySorted (InOrder comparator) (history ++ children) l' := by
  have := hcmp.total
  have := hcmp.isTrans
  induction children generalizing h l history with
  | nil =>
      rw [List.append_nil]
      exact ⟨h, l, rfl, hl, hstable⟩
  | cons c children ih =>
      rw [List.nodup_cons] at hnodup
      rw [List.length_cons] at hbound
      obtain ⟨hc, hnext⟩ := hfresh c List.mem_cons_self
      have hlt : l.length < bound := by omega
      obtain ⟨h₁, hrun, hl₁, hframe⟩ := hl.insert hc hnext comparator hlt
      have hperm := insertBehind_perm (r := InOrder comparator) c l
      -- the nodes still to come are neither in the list nor linked
      have hfresh₁ : ∀ d ∈ children, d ∉ insertBehind (InOrder comparator) c l ∧
          (h₁ d).next = none := by
        intro d hd
        obtain ⟨hdl, hdnext⟩ := hfresh d (List.mem_cons_of_mem c hd)
        have hdc : d ≠ c := by
          intro heq
          subst heq
          exact hnodup.1 hd
        constructor
        · rw [hperm.mem_iff, List.mem_append, List.mem_singleton, not_or]
          exact ⟨hdl, hdc⟩
        · rw [hframe d hdc hdl, hdnext]
      have hlength := hperm.length_eq
      rw [List.length_append, List.length_singleton] at hlength
      obtain ⟨h', l', hrest, hl', hsorted⟩ := ih hl₁ (hstable.insert_behind c) hnodup.2 hfresh₁
        (by omega)
      refine ⟨h', l', ?_, hl', ?_⟩
      · rw [ntreeInsertMany, hrun]
        exact hrest
      · rw [List.append_assoc, List.singleton_append] at hsorted
        exact hsorted

/-- Distinct fresh nodes inserted into an empty child list come out as their stable sort. -/
theorem ntree_insert_sorts {comparator : ι → ι → ℤ} (hcmp : TotalPreorder comparator)
    (hempty : (h father).child = none) {children : List ι} (hnodup : children.Nodup)
    (hfresh : ∀ c ∈ children, h c = ntreeEltInit) {bound : ℕ} (hbound : children.length ≤ bound) :
    ∃ h' l, ntreeInsertMany bound comparator father h children = some h' ∧
      ChildList h' father l ∧ l.Perm children ∧ l.Nodup ∧
      l.Pairwise (fun a b ↦ comparator a b ≤ 0) ∧
      ∀ a, l.filter (fun b ↦ comparator a b = 0) =
        children.filter fun b ↦ comparator a b = 0 := by
  have hfree : ∀ c ∈ children, c ∉ ([] : List ι) ∧ (h c).next = none :=
    fun c hc ↦ ⟨List.not_mem_nil, by rw [hfresh c hc]; rfl⟩
  have hnil : ChildList h father [] := hempty
  have hroom : ([] : List ι).length + children.length ≤ bound := by
    rw [List.length_nil, Nat.zero_add]
    exact hbound
  obtain ⟨h', l, hrun, hl, hstable⟩ := insertMany_sorted hcmp hnil .nil hnodup hfree hroom
  rw [List.nil_append] at hstable
  refine ⟨h', l, hrun, hl, hstable.perm, hl.nodup, hstable.sorted, fun a ↦ ?_⟩
  have hties := hstable.ties a
  rw [funext (hcmp.tied_eq a)] at hties
  exact hties

-- Four nodes ordered by their tens: 21 was inserted before 20.
theorem ntree_insert_sorts_tens :
    ∃ h' l, ntreeInsertMany 4 (fun a b ↦ (a / 10 : ℤ) - b / 10) 0
        (fun _ ↦ ntreeEltInit : NtreeHeap ℤ) [21, 10, 20, 11] = some h' ∧
      ChildList h' 0 l ∧ l.Perm [21, 10, 20, 11] ∧
      l.filter (fun b ↦ ((20 / 10 : ℤ) - b / 10) = 0) = [21, 20] := by
  have hcmp : TotalPreorder fun a b : ℤ ↦ a / 10 - b / 10 := by
    constructor <;> intros <;> omega
  let h : NtreeHeap ℤ := fun _ ↦ ntreeEltInit
  have hempty : (h 0).child = none := rfl
  have hnodup : [(21 : ℤ), 10, 20, 11].Nodup := by decide
  have hfresh : ∀ c ∈ [(21 : ℤ), 10, 20, 11], h c = ntreeEltInit := fun _ _ ↦ rfl
  obtain ⟨h', l, hrun, hl, hperm, -, -, hties⟩ :=
    ntree_insert_sorts hcmp hempty hnodup hfresh (Nat.le_refl 4)
  exact ⟨h', l, hrun, hl, hperm, hties 20⟩

end Divers.Tad
