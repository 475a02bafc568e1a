import Divers.Tad.ChildList

/-!
# Removals

Removing a node right after it was inserted takes the insertion back, wherever the comparator put
it: the walk of the removal stops behind the same node.  `ntree_remove_child_if` goes on while its
condition holds, so it removes the first child of which the condition is false.
-/

open Divers.Library

namespace Divers.Tad

variable {ι : Type*} [DecidableEq ι]

/-! ## Insertion and removal -/

/-- The two lists differ at most in the `next` pointer of `elt`. -/
structure SameBut (elt : ι) (s t : Slist ι) : Prop where
  root : t.root = s.root
  next : ∀ i, i ≠ elt → t.next i = s.next i

theorem Slist.unlinkAfter_linkAfter (s : Slist ι) {pwalk : Option ι} {elt : ι}
    (hwalk : ∀ k ∈ pwalk, k ≠ elt) :
    SameBut elt s ((s.linkAfter pwalk elt).unlinkAfter pwalk elt) := by
  cases pwalk with
  | none =>
      constructor
      · exact s.setNext_self elt s.root
      · exact fun i hi ↦ Function.update_of_ne hi _ _
  | some k =>
      have hk : elt ≠ k := (hwalk k rfl).symm
      refine ⟨rfl, fun i hi ↦ ?_⟩
      show Function.update ((s.setNext elt (s.next k)).setNext k (some elt)).next k
        (((s.setNext elt (s.next k)).setNext k (some elt)).next elt) i = s.next i
      have helt : ((s.setNext elt (s.next k)).setNext k (some elt)).next elt = s.next k := by
        show Function.update (s.setNext elt (s.next k)).next k (some elt) elt = s.next k
        rw [Function.update_of_ne hk]
        exact s.setNext_self elt (s.next k)
      by_cases hik : i = k
      · subst hik
        rw [Function.update_self, helt]
      · rw [Function.update_of_ne hik]
        show Function.update (Function.update s.next elt (s.next k)) k (some elt) i = s.next i
        rw [Function.update_of_ne hik, Function.update_of_ne hi]

variable {l : List ι} {node : ι} {bound : ℕ}

omit [DecidableEq ι] in
theorem ne_of_mem_getLast? {pre post : List ι} (hnode : node ∉ pre ++ post) :
    ∀ k ∈ pre.getLast?, k ≠ node := by
  intro k hk heq
  subst heq
  exact hnode (List.mem_append_left post (List.mem_of_getLast? hk))

/-- The node was linked into the children of `father` behind `pre`: its removal unlinks it there. -/
theorem ntreeRemoveChild_linked {h t : NtreeHeap ι} {father : ι} {pre post : List ι}
    (hl : ChildList h father (pre ++ post)) (hnode : node ∉ pre ++ post)
    (hlink : childSlist t father = (childSlist h father).linkAfter pre.getLast? node)
    (hbound : pre.length < bound) :
    ∃ u, ntreeRemoveChild bound t father node = some u ∧
      (u father).child = (h father).child ∧ ∀ i, i ≠ node → (u i).next = (h i).next := by
  have hlinked : ChildList t father (pre ++ node :: post) := by
    rw [childList_iff, hlink]
    exact Slist.Listed.linkAfter hl hl.nodup hnode
  have hpre : ∀ i ∈ pre, decide (i ≠ node) = true := by
    intro i hi
    apply decide_eq_true
    intro heq
    subst heq
    exact hnode (List.mem_append_left post hi)
  have hstop : ¬ decide (node ≠ node) = true := fun hne ↦ of_decide_eq_true hne rfl
  obtain ⟨u, hrun, hunlink⟩ := ntreeRemoveChildIf_first hlinked hpre hstop hbound
  have hsame := (childSlist h father).unlinkAfter_linkAfter (ne_of_mem_getLast? hnode)
  rw [← hlink, ← hunlink] at hsame
  exact ⟨u, hrun, hsame.root, hsame.next⟩

/-- Any finite list, whatever its order, any comparator, and a node that is not in the list: the
removal takes an insertion back, and by itself it changes nothing. -/
theorem insert_remove_round_trip (comparator : ι → ι → ℤ) (hbound : l.length < bound)
    (hnode : node ∉ l) :
    (∀ s : Slist ι, s.Listed l →
      (∃ t u, slistInsertElt bound s node comparator = some t ∧
        slistRemoveElt bound t node = some u ∧
        u.root = s.root ∧ ∀ i, i ≠ node → u.next i = s.next i) ∧
      slistRemoveElt bound s node = some s) ∧
    ∀ (h : NtreeHeap ι) (father : ι), ChildList h father l →
      ((h node).next = none → ∃ t u, ntreeInsertChild bound h father node comparator = some t ∧
        ntreeRemoveChild bound t father node = some u ∧
        (u father).child = (h father).child ∧ ∀ i, i ≠ node → (u i).next = (h i).next) ∧
      (∃ u, ntreeRemoveChild bound (ntreePrependChild h father node) father node = some u ∧
        (u father).child = (h father).child ∧ ∀ i, i ≠ node → (u i).next = (h i).next) ∧
      ntreeRemoveChild bound h father node = some h := by
  constructor
  · intro s hl
    refine ⟨?_, by rw [hl.slistRemoveElt_absent hnode, if_pos hbound]⟩
    have hwalk : (l.takeWhile fun walk ↦ decide (comparator walk node < 0)).length < bound :=
      length_takeWhile_lt hbound
    have hsplit := List.takeWhile_append_dropWhile
      (p := fun walk ↦ decide (comparator walk node < 0)) (l := l)
    have hinsert : slistInsertElt bound s node comparator = _ :=
      hl.slistInsertElt_eq comparator bound
    rw [if_pos hwalk] at hinsert
    rw [← hsplit] at hl hnode
    have hlinked := hl.linkAfter (Path.nodup (Option.some_injective ι) hl
      fun _ ↦ Option.some_ne_none _) hnode
    have hremove := hlinked.slistRemoveElt_eq (fun hmem ↦ hnode (List.mem_append_left _ hmem)) bound
    rw [if_pos hwalk] at hremove
    have hsame := s.unlinkAfter_linkAfter (ne_of_mem_getLast? hnode)
    exact ⟨_, _, hinsert, hremove, hsame.root, hsame.next⟩
  · intro h father hl
    refine ⟨fun hnext ↦ ?_, ?_, ?_⟩
    · have hwalk : (l.takeWhile fun walk ↦ decide (comparator walk node ≤ 0)).length < bound :=
        length_takeWhile_lt hbound
      have hsplit := List.takeWhile_append_dropWhile
        (p := fun walk ↦ decide (comparator walk node ≤ 0)) (l := l)
      obtain ⟨t, hinsert, hlink⟩ := childSlist_insert hl hnext comparator hwalk
      rw [← hsplit] at hl hnode
      obtain ⟨u, hremove, hsame⟩ := ntreeRemoveChild_linked hl hnode hlink hwalk
      exact ⟨t, u, hinsert, hremove, hsame⟩
    · -- prepending is linking behind nothing
      have hlink := childSlist_prepend h father node
      have hempty : ([] : List ι).length < bound := Nat.lt_of_le_of_lt (Nat.zero_le _) hbound
      exact ntreeRemoveChild_linked (show ChildList h father ([] ++ l) from hl) hnode hlink hempty
    · rw [ntreeRemoveChild_eq_if]
      apply ntreeRemoveChildIf_all hl _ hbound
      intro i hi
      apply decide_eq_true
      intro heq
      subst heq
      exact hnode hi

-- Node 3 and the list 1, 2, under a comparator that finds every node less than every other.
theorem insert_remove_round_trip_unordered :
    ∃ t u : NtreeHeap ℕ,
      ntreeInsertChild 3 (ntreePrependChild (ntreePrependChild (fun _ ↦ ntreeEltInit) 0 2) 0 1) 0 3
        (fun _ _ ↦ -1) = some t ∧
      ntreeRemoveChild 3 t 0 3 = some u ∧ (u 0).child = some 1 := by
  let h : NtreeHeap ℕ := ntreePrependChild (ntreePrependChild (fun _ ↦ ntreeEltInit) 0 2) 0 1
  have hl : ChildList h 0 [1, 2] := by decide
  have hbound : [1, 2].length < 3 := by decide
  have hnode : 3 ∉ [1, 2] := by decide
  obtain ⟨hinsert, -⟩ := (insert_remove_round_trip (fun _ _ ↦ -1) hbound hnode).2 h 0 hl
  obtain ⟨t, u, ht, hu, hchild, -⟩ := hinsert rfl
  exact ⟨t, u, ht, hu, hchild⟩

/-! ## The condition of ntree_remove_child_if -/

/-- The first child with the property, if there is one, is unlinked, and nothing else changes. -/
structure UnlinksFirst (h h' : NtreeHeap ι) (father : ι) (l : List ι) (property : ι → Bool) :
    Prop where
  list : ChildList h' father (l.eraseP property)
  outside : ∀ i, i ∉ l → (h' i).next = (h i).next
  absent : (∀ i ∈ l, property i = false) → h' = h

/-- What the macro leaves is the list without the first child that fails the condition. -/
theorem ntreeRemoveChildIf_list {h : NtreeHeap ι} {father : ι} (hl : ChildList h father l)
    (hbound : l.length < bound) (condition : ι → Bool) :
    ∃ h', ntreeRemoveChildIf bound h father condition = some h' ∧
      ChildList h' father (l.eraseP fun i ↦ !condition i) := by
  by_cases hall : ∀ i ∈ l, condition i = true
  · refine ⟨h, ntreeRemoveChildIf_all hl hall hbound, ?_⟩
    rw [List.eraseP_of_forall_not fun i hi ↦ by rw [hall i hi]; decide]
    exact hl
  · push Not at hall
    obtain ⟨i, hi, hfail⟩ := hall
    obtain ⟨k, pre, post, hpre, hk, hsplit, herase⟩ :=
      List.exists_of_eraseP (p := fun i ↦ !condition i) hi (by simpa using hfail)
    rw [hsplit] at hl hbound
    have hwalk : pre.length < bound := by
      rw [List.length_append] at hbound
      omega
    have hpass : ∀ j ∈ pre, condition j = true := by
      intro j hj
      simpa using hpre j hj
    have hstop : ¬ condition k = true := by simpa using hk
    obtain ⟨h', hrun, hunlink⟩ := ntreeRemoveChildIf_first hl hpass hstop hwalk
    refine ⟨h', hrun, ?_⟩
    rw [herase, childList_iff, hunlink]
    exact Slist.Listed.unlinkAfter hl hl.nodup

omit [DecidableEq ι] in
/-- Of two opposite conditions one holds of the first child, and only one removal takes it out. -/
theorem eq_nil_of_eraseP_eq (hnodup : l.Nodup) {condition : ι → Bool}
    (heq : (l.eraseP fun i ↦ !condition i) = l.eraseP condition) : l = [] := by
  cases l with
  | nil => rfl
  | cons a l =>
      have ha := (List.nodup_cons.mp hnodup).1
      have hsub : ∀ property : ι → Bool, a :: l.eraseP property ≠ l := by
        intro property hl
        apply ha
        rw [← hl]
        exact List.mem_cons_self
      rw [List.eraseP_cons, List.eraseP_cons] at heq
      cases hcondition : condition a with
      | true =>
          rw [hcondition] at heq
          exact absurd heq (hsub _)
      | false =>
          rw [hcondition] at heq
          exact absurd heq.symm (hsub _)

/-- `ntree_remove_child_if` does what its name says on an empty list only. -/
theorem ntreeRemoveChildIf_iff {h : NtreeHeap ι} {father : ι} (hl : ChildList h father l)
    (hbound : l.length < bound) :
    (∀ child, (∃ u v, ntreeRemoveChildIf bound h father (fun walk ↦ walk = child) = some u ∧
        ntreeRemoveChild bound h father child = some v ∧
        childSlist u father = childSlist v father) ↔ l = []) ∧
    ∀ property : ι → Bool, (∃ u, ntreeRemoveChildIf bound h father property = some u ∧
      UnlinksFirst h u father l property) ↔ l = [] := by
  have hnothing : l = [] → ∀ condition, ntreeRemoveChildIf bound h father condition = some h := by
    intro hnil condition
    subst hnil
    exact ntreeRemoveChildIf_all hl (fun i hi ↦ absurd hi List.not_mem_nil) hbound
  constructor
  · intro child
    constructor
    · intro hexists
      obtain ⟨u, v, hu, hv, hsame⟩ := hexists
      obtain ⟨u', hu', hulist⟩ := ntreeRemoveChildIf_list hl hbound fun walk ↦ walk = child
      obtain ⟨v', hv', hvlist⟩ := ntreeRemoveChildIf_list hl hbound fun walk ↦ walk ≠ child
      rw [hu, Option.some.injEq] at hu'
      rw [← ntreeRemoveChild_eq_if, hv, Option.some.injEq] at hv'
      subst hu' hv'
      -- one list would lack its first match and its first mismatch
      rw [childList_iff, hsame] at hulist
      have heq := childList_unique hulist hvlist
      simp only [ne_eq, decide_not, Bool.not_not] at heq
      exact eq_nil_of_eraseP_eq hl.nodup heq
    · intro hnil
      exact ⟨h, h, hnothing hnil _, hnothing hnil _, rfl⟩
  · intro property
    constructor
    · intro hexists
      obtain ⟨u, hu, hunlinks⟩ := hexists
      obtain ⟨u', hu', hulist⟩ := ntreeRemoveChildIf_list hl hbound property
      rw [hu, Option.some.injEq] at hu'
      subst hu'
      exact eq_nil_of_eraseP_eq hl.nodup (childList_unique hulist hunlinks.list)
    · intro hnil
      refine ⟨h, hnothing hnil _, ?_, fun _ _ ↦ rfl, fun _ ↦ rfl⟩
      subst hnil
      exact hl

/-- A father without children, and one with children 1 and 2. -/
theorem ntreeRemoveChildIf_iff_two :
    (∃ u, ntreeRemoveChildIf 1 (fun _ ↦ ntreeEltInit : NtreeHeap (Fin 3)) 0 (fun _ ↦ true) =
      some u ∧ UnlinksFirst (fun _ ↦ ntreeEltInit) u 0 [] fun _ ↦ true) ∧
    ∃ h : NtreeHeap (Fin 3), ChildList h 0 [1, 2] ∧
      (∀ u v, ntreeRemoveChildIf 3 h 0 (fun walk ↦ walk = 2) = some u →
        ntreeRemoveChild 3 h 0 2 = some v → childSlist u 0 ≠ childSlist v 0) ∧
      ∀ u, ntreeRemoveChildIf 3 h 0 (fun walk ↦ walk = 2) = some u →
        ¬ UnlinksFirst h u 0 [1, 2] fun walk ↦ walk = 2 := by
  have hempty : ChildList (fun _ ↦ ntreeEltInit : NtreeHeap (Fin 3)) 0 [] := rfl
  refine ⟨((ntreeRemoveChildIf_iff hempty (by decide)).2 fun _ ↦ true).mpr rfl, ?_⟩
  let h : NtreeHeap (Fin 3) :=
    ntreePrependChild (ntreePrependChild (fun _ ↦ ntreeEltInit) 0 2) 0 1
  have hl : ChildList h 0 [1, 2] := by decide
  have hiff := ntreeRemoveChildIf_iff hl (show [1, 2].length < 3 by decide)
  exact ⟨h, hl, fun u v hu hv hsame ↦ List.cons_ne_nil _ _ ((hiff.1 2).mp ⟨u, v, hu, hv, hsame⟩),
    fun u hu hunlinks ↦ List.cons_ne_nil _ _ ((hiff.2 fun walk ↦ walk = 2).mp ⟨u, hu, hunlinks⟩)⟩

/-- Children 1 and 2: the condition that the child is 2 takes out 1. -/
theorem ntreeRemoveChildIf_other :
    ∃ h u v : NtreeHeap (Fin 3), ChildList h 0 [1, 2] ∧
      ntreeRemoveChildIf 3 h 0 (fun walk ↦ walk = 2) = some u ∧ ChildList u 0 [2] ∧
      ntreeRemoveChild 3 h 0 2 = some v ∧ ChildList v 0 [1] := by
  let h : NtreeHeap (Fin 3) :=
    ntreePrependChild (ntreePrependChild (fun _ ↦ ntreeEltInit) 0 2) 0 1
  exact ⟨h, setChild h 0 (some 2), setNext h 1 none, by decide, rfl, by decide, rfl, by decide⟩

end Divers.Tad
