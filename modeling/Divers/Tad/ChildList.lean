import Divers.Tad.NTreeForest
import Divers.Tad.SList

/-!
# One child list

The `next` pointers of all nodes and the `child` pointer of one father make up a list in the sense
of s_list, and the macros of n_tree link and unlink a node there.  Nothing is assumed about the
other fathers.
-/

open Divers.Library

namespace Divers.Tad

variable {ι : Type*}

def childSlist (h : NtreeHeap ι) (father : ι) : Slist ι := ⟨fun i ↦ (h i).next, (h father).child⟩

@[simp] theorem childSlist_next (h : NtreeHeap ι) (father i : ι) :
    (childSlist h father).next i = (h i).next := rfl

@[simp] theorem childSlist_root (h : NtreeHeap ι) (father : ι) :
    (childSlist h father).root = (h father).child := rfl

theorem childList_iff {h : NtreeHeap ι} {father : ι} {l : List ι} :
    ChildList h father l ↔ (childSlist h father).Listed l := Iff.rfl

theorem ChildList.nodup {h : NtreeHeap ι} {father : ι} {l : List ι} (hl : ChildList h father l) :
    l.Nodup :=
  Path.nodup (Option.some_injective ι) hl fun _ ↦ Option.some_ne_none _

variable [DecidableEq ι] {h h' : NtreeHeap ι} {father child : ι} {l : List ι}

/-! ## The macros on the list -/

theorem Slist.setNext_of_next {s : Slist ι} {elt : ι} {v : Option ι} (hv : s.next elt = v) :
    s.setNext elt v = s := by
  subst hv
  rw [Slist.setNext, Function.update_eq_self]

theorem childSlist_setNext (h : NtreeHeap ι) (father i : ι) (v : Option ι) :
    childSlist (setNext h i v) father = (childSlist h father).setNext i v := by
  rw [Slist.setNext, childSlist]
  congr 1
  funext j
  rw [setNext_next, Function.update_apply]
  rfl

theorem childSlist_setChild (h : NtreeHeap ι) (father : ι) (v : Option ι) :
    childSlist (setChild h father v) father = { childSlist h father with root := v } := by
  rw [childSlist, setChild_child, if_pos rfl]
  rfl

theorem childSlist_setParent (h : NtreeHeap ι) (father i : ι) (v : Option ι) :
    childSlist (setParent h i v) father = childSlist h father := rfl

theorem childSlist_prepend (h : NtreeHeap ι) (father child : ι) :
    childSlist (ntreePrependChild h father child) father =
      (childSlist h father).linkAfter none child := by
  unfold ntreePrependChild
  dsimp only
  rw [childSlist_setNext, childSlist_setChild, childSlist_setParent]
  rfl

/-- What `ntree_insert_child` does to the list.  Into an empty list it leaves the `next` pointer of
the node alone, which must be null. -/
theorem childSlist_insert_of (hl : ChildList h father l) (hnext : l = [] → (h child).next = none)
    (comparator : ι → ι → ℤ) {bound : ℕ}
    (hbound : (l.takeWhile fun walk ↦ comparator walk child ≤ 0).length < bound) :
    ∃ h', ntreeInsertChild bound h father child comparator = some h' ∧
      childSlist h' father = (childSlist h father).linkAfter
        (l.takeWhile fun walk ↦ comparator walk child ≤ 0).getLast? child := by
  have hwalk : Path some (fun i ↦ (setParent h child (some father) i).next) (h father).child l
      none := hl
  unfold ntreeInsertChild
  simp only [setParent_child]
  cases hchild : (h father).child with
  | none =>
      refine ⟨_, rfl, ?_⟩
      rw [hchild] at hwalk
      cases l with
      | cons i l => exact absurd hwalk.1 (Option.some_ne_none i).symm
      | nil =>
          rw [childSlist_setChild, childSlist_setParent]
          have hsame : (childSlist h father).setNext child (childSlist h father).root =
              childSlist h father := by
            apply Slist.setNext_of_next
            rw [childSlist_next, childSlist_root, hnext rfl, hchild]
          rw [List.takeWhile_nil, List.getLast?_nil, Slist.linkAfter, hsame]
  | some first =>
      rw [hchild] at hwalk
      dsimp only
      rw [foreachChildCond_eq _ bound hwalk, if_pos hbound]
      refine ⟨_, rfl, ?_⟩
      rw [Option.or_none]
      dsimp only
      generalize (l.takeWhile fun walk ↦ decide (comparator walk child ≤ 0)).getLast? = pwalk
      cases pwalk with
      | none =>
          dsimp only
          rw [childSlist_setChild, childSlist_setNext, childSlist_setParent, Slist.linkAfter,
            childSlist_root, hchild]
      | some pwalk =>
          dsimp only
          rw [childSlist_setNext, childSlist_setNext, childSlist_setParent]
          rfl

theorem childSlist_insert (hl : ChildList h father l) (hnext : (h child).next = none)
    (comparator : ι → ι → ℤ) {bound : ℕ}
    (hbound : (l.takeWhile fun walk ↦ comparator walk child ≤ 0).length < bound) :
    ∃ h', ntreeInsertChild bound h father child comparator = some h' ∧
      childSlist h' father = (childSlist h father).linkAfter
        (l.takeWhile fun walk ↦ comparator walk child ≤ 0).getLast? child :=
  childSlist_insert_of hl (fun _ ↦ hnext) comparator hbound

/-- Both removals end in the same assignments. -/
theorem childSlist_unlink (h : NtreeHeap ι) (father walk : ι) (pwalk : Option ι) :
    childSlist (match pwalk with
      | some pwalk => setNext h pwalk (h walk).next
      | none => setChild h father (h walk).next) father =
      (childSlist h father).unlinkAfter pwalk walk := by
  cases pwalk with
  | none => rw [childSlist_setChild]; rfl
  | some pwalk => rw [childSlist_setNext]; rfl

theorem ntreeRemoveChild_eq_if (bound : ℕ) (h : NtreeHeap ι) (father child : ι) :
    ntreeRemoveChild bound h father child =
      ntreeRemoveChildIf bound h father fun walk ↦ walk ≠ child := rfl

/-- A condition that holds of every child: nothing is removed. -/
theorem ntreeRemoveChildIf_all (hl : ChildList h father l) {condition : ι → Bool}
    (hall : ∀ i ∈ l, condition i = true) {bound : ℕ} (hbound : l.length < bound) :
    ntreeRemoveChildIf bound h father condition = some h := by
  have htake : l.takeWhile condition = l := List.takeWhile_eq_self_iff.mpr hall
  have hdrop : l.dropWhile condition = [] := List.dropWhile_eq_nil_iff.mpr hall
  rw [ntreeRemoveChildIf, foreachChildCond_eq condition bound hl, htake, if_pos hbound, hdrop]
  rfl

/-- The first child of which the condition does not hold is removed. -/
theorem ntreeRemoveChildIf_first {pre post : List ι} {k : ι}
    (hl : ChildList h father (pre ++ k :: post)) {condition : ι → Bool}
    (hpre : ∀ i ∈ pre, condition i = true) (hk : ¬ condition k = true) {bound : ℕ}
    (hbound : pre.length < bound) :
    ∃ h', ntreeRemoveChildIf bound h father condition = some h' ∧
      childSlist h' father = (childSlist h father).unlinkAfter pre.getLast? k := by
  have htake : (pre ++ k :: post).takeWhile condition = pre := by
    rw [List.takeWhile_append_of_pos hpre, List.takeWhile_cons_of_neg hk, List.append_nil]
  have hdrop : (pre ++ k :: post).dropWhile condition = k :: post := by
    rw [List.dropWhile_append_of_pos hpre, List.dropWhile_cons_of_neg hk]
  rw [ntreeRemoveChildIf, foreachChildCond_eq condition bound hl, htake, if_pos hbound, hdrop,
    Option.map_some, Option.or_none, List.head?_cons]
  exact ⟨_, rfl, childSlist_unlink h father k _⟩

end Divers.Tad
