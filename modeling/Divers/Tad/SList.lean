import Divers.Library.LinkedPath
import Divers.Library.StableInsert
import Divers.Library.Transition

/-!
# s_list

The intrusive singly linked list of `s_list.h`, kept in order by the comparator that its client
inserts with.  Nodes are the elements of a type `ι`, and a null pointer is `none`.  The loops are
bounded as in n_tree.
-/

open Divers.Library

namespace Divers.Tad

/-- The `next` pointers of all nodes, and the root that the client threads through the calls. -/
structure Slist (ι : Type*) where
  next : ι → Option ι
  root : Option ι

variable {ι : Type*}

/-! ## The comparator -/

/-- The sign of the comparator is that of a total preorder. -/
structure TotalPreorder (comparator : ι → ι → ℤ) : Prop where
  swap : ∀ a b, comparator a b < 0 ↔ 0 < comparator b a
  trans : ∀ a b c, comparator a b ≤ 0 → comparator b c ≤ 0 → comparator a c ≤ 0

def InOrder (comparator : ι → ι → ℤ) (a b : ι) : Prop := comparator a b ≤ 0

instance (comparator : ι → ι → ℤ) : DecidableRel (InOrder comparator) :=
  fun a b ↦ inferInstanceAs (Decidable (comparator a b ≤ 0))

namespace TotalPreorder

variable {comparator : ι → ι → ℤ}

theorem lt_iff (h : TotalPreorder comparator) (a b : ι) :
    comparator a b < 0 ↔ ¬ InOrder comparator b a := by
  rw [h.swap, InOrder, not_le]

theorem total (h : TotalPreorder comparator) : Std.Total (InOrder comparator) := by
  constructor
  intro a b
  by_cases hab : InOrder comparator a b
  · exact Or.inl hab
  · exact Or.inr ((h.lt_iff b a).mpr hab).le

theorem isTrans (h : TotalPreorder comparator) : IsTrans ι (InOrder comparator) := ⟨h.trans⟩

/-- Ties are what compares equal. -/
theorem tied_eq (h : TotalPreorder comparator) (a b : ι) :
    Tied (InOrder comparator) a b = decide (comparator a b = 0) := by
  have hswap := h.swap a b
  unfold Tied InOrder
  congr 1
  apply propext
  omega

end TotalPreorder

variable [DecidableEq ι]

def Slist.setNext (s : Slist ι) (elt : ι) (v : Option ι) : Slist ι :=
  { s with next := Function.update s.next elt v }

/-! ## The macros -/

/-- `slist_foreach_cond` with the body `pwalk = walk`: both pointers after the loop. -/
def slistForeachCond (s : Slist ι) (start : Option ι) (condition : ι → Bool) (bound : ℕ) :
    Option (Option ι × Option ι) :=
  walkWhile s.next condition bound start none

def slistRemoveElt (bound : ℕ) (s : Slist ι) (node : ι) : Option (Slist ι) :=
  (slistForeachCond s s.root (fun walk ↦ walk ≠ node) bound).bind fun (walk, pwalk) ↦
    if walk = some node then
      match pwalk with
      | none => s.root.map fun root ↦ { s with root := s.next root }
      | some pwalk => some (s.setNext pwalk (s.next node))
    else some s

def slistInsertElt (bound : ℕ) (s : Slist ι) (link : ι) (comparator : ι → ι → ℤ) :
    Option (Slist ι) :=
  (slistForeachCond s s.root (fun walk ↦ comparator walk link < 0) bound).map fun (_, pwalk) ↦
    match pwalk with
    | none => { s.setNext link s.root with root := some link }
    | some pwalk => (s.setNext link (s.next pwalk)).setNext pwalk (some link)

namespace Slist

/-! ## Runs -/

inductive Op (ι : Type*) where
  | insert (link : ι)
  | remove (node : ι)

/-- One macro call, its loop allowed the given number of iterations. -/
def step (comparator : ι → ι → ℤ) (s : Slist ι) : ℕ × Op ι → Option (Slist ι)
  | (bound, .insert link) => slistInsertElt bound s link comparator
  | (bound, .remove node) => slistRemoveElt bound s node

/-- The list at the root. -/
def Listed (s : Slist ι) (l : List ι) : Prop := Path some s.next s.root l none

omit [DecidableEq ι] in
theorem Listed.unique {s : Slist ι} {l l' : List ι} (h : s.Listed l)
    (h' : s.Listed l') : l = l' :=
  Path.unique (Option.some_injective ι) h h' (fun _ _ ↦ Option.some_ne_none _)
    fun _ _ ↦ Option.some_ne_none _

/-- Only nodes that are not in the list are inserted. -/
def Permitted (s : Slist ι) : ℕ × Op ι → Prop
  | (_, .insert link) => ∀ l, s.Listed l → link ∉ l
  | (_, .remove _) => True

/-- The nodes that were inserted and not removed since, the newest first. -/
def present (history : List ι) : Op ι → List ι
  | .insert link => link :: history
  | .remove node => history.erase node

/-- A call, with these nodes beside the list. -/
def historyStep (comparator : ι → ι → ℤ) (x : Slist ι × List ι) (call : ℕ × Op ι) :
    Option (Slist ι × List ι) :=
  (x.1.step comparator call).map fun t ↦ (t, present x.2 call.2)

/-! ## The macros on the list -/

variable {s t : Slist ι} {l : List ι} {link node : ι} {bound : ℕ}

@[simp] theorem setNext_self (s : Slist ι) (elt : ι) (v : Option ι) :
    (s.setNext elt v).next elt = v := by
  show Function.update s.next elt v elt = v
  rw [Function.update_self]

theorem setNext_congr (s : Slist ι) {elt : ι} (v : Option ι) (helt : elt ∉ l) :
    ∀ i ∈ l, (s.setNext elt v).next i = s.next i := by
  intro i hi
  have hne : i ≠ elt := by
    intro heq
    subst heq
    exact helt hi
  exact Function.update_of_ne hne v s.next

theorem Listed.insert_head (h : s.Listed l) (hlink : link ∉ l) :
    Listed { s.setNext link s.root with root := some link } (link :: l) := by
  refine ⟨rfl, ?_⟩
  show Path some (s.setNext link s.root).next ((s.setNext link s.root).next link) l none
  rw [setNext_self]
  exact h.congr (s.setNext_congr s.root hlink)

theorem Listed.insert_after {pre post : List ι} {k : ι} (h : s.Listed (pre ++ k :: post))
    (hnodup : (pre ++ k :: post).Nodup) (hlink : link ∉ pre ++ k :: post) :
    ((s.setNext link (s.next k)).setNext k (some link)).Listed (pre ++ k :: link :: post) := by
  have hk := (List.nodup_cons.mp (List.nodup_middle.mp hnodup)).1
  have hne : k ∉ [link] := by
    rw [List.mem_singleton]
    intro heq
    subst heq
    exact hlink (List.mem_append_right pre List.mem_cons_self)
  apply Path.splice_after h
  · exact setNext_self _ k (some link)
  · rw [setNext_congr _ _ hne link List.mem_cons_self, setNext_self]
  · intro i hi
    have hout : link ∉ pre ++ post := by
      intro hmem
      apply hlink
      rw [List.mem_append, List.mem_cons]
      rw [List.mem_append] at hmem
      exact hmem.imp_right Or.inr
    rw [setNext_congr _ _ hk i hi, setNext_congr _ _ hout i hi]

theorem Listed.remove_after {pre post : List ι} {k : ι} (h : s.Listed (pre ++ k :: node :: post))
    (hnodup : (pre ++ k :: node :: post).Nodup) :
    (s.setNext k (s.next node)).Listed (pre ++ k :: post) := by
  have hk := (List.nodup_cons.mp (List.nodup_middle.mp hnodup)).1
  apply Path.bypass h
  · exact s.setNext_self k (s.next node)
  · have hout : k ∉ pre ++ post := by
      intro hmem
      apply hk
      rw [List.mem_append] at hmem ⊢
      exact hmem.imp_right (List.mem_cons_of_mem node)
    exact s.setNext_congr _ hout

/-- Put `elt` behind `pwalk`, at the root when there is none. -/
def linkAfter (s : Slist ι) (pwalk : Option ι) (elt : ι) : Slist ι :=
  match pwalk with
  | none => { s.setNext elt s.root with root := some elt }
  | some pwalk => (s.setNext elt (s.next pwalk)).setNext pwalk (some elt)

/-- Take out `elt`, which stands behind `pwalk`. -/
def unlinkAfter (s : Slist ι) (pwalk : Option ι) (elt : ι) : Slist ι :=
  match pwalk with
  | none => { s with root := s.next elt }
  | some pwalk => s.setNext pwalk (s.next elt)

section Split

variable {pre post : List ι}

theorem Listed.linkAfter (h : s.Listed (pre ++ post)) (hnodup : (pre ++ post).Nodup)
    (hnode : node ∉ pre ++ post) :
    (s.linkAfter pre.getLast? node).Listed (pre ++ node :: post) := by
  obtain rfl | ⟨pre, k, rfl⟩ := List.eq_nil_or_concat' pre
  · exact h.insert_head hnode
  · rw [List.append_assoc, List.singleton_append] at h hnodup hnode ⊢
    rw [List.getLast?_append, List.getLast?_singleton, Option.some_or]
    exact h.insert_after hnodup hnode

theorem Listed.unlinkAfter (h : s.Listed (pre ++ node :: post))
    (hnodup : (pre ++ node :: post).Nodup) :
    (s.unlinkAfter pre.getLast? node).Listed (pre ++ post) := by
  obtain rfl | ⟨pre, k, rfl⟩ := List.eq_nil_or_concat' pre
  · exact h.2
  · rw [List.append_assoc, List.singleton_append] at h hnodup ⊢
    rw [List.getLast?_append, List.getLast?_singleton, Option.some_or]
    exact h.remove_after hnodup

theorem Listed.slistRemoveElt_eq (h : s.Listed (pre ++ node :: post)) (hpre : node ∉ pre)
    (bound : ℕ) : slistRemoveElt bound s node =
      if pre.length < bound then some (s.unlinkAfter pre.getLast? node) else none := by
  unfold slistRemoveElt slistForeachCond
  rw [walkWhile_eq _ bound h, takeWhile_ne hpre, dropWhile_ne hpre]
  split
  next =>
    rw [Option.bind_some, Option.or_none, List.head?_cons]
    dsimp only
    rw [if_pos rfl]
    obtain rfl | ⟨pre, k, rfl⟩ := List.eq_nil_or_concat' pre
    · -- the node at the root
      rw [List.getLast?_nil, h.1]
      rfl
    · rw [List.getLast?_append, List.getLast?_singleton, Option.some_or]
      rfl
  next => rfl

end Split

theorem Listed.slistRemoveElt_absent (h : s.Listed l) (hnode : node ∉ l) (bound : ℕ) :
    slistRemoveElt bound s node = if l.length < bound then some s else none := by
  unfold slistRemoveElt slistForeachCond
  rw [walkWhile_eq _ bound h, takeWhile_ne_absent hnode, dropWhile_ne_absent hnode]
  split
  next =>
    rw [Option.bind_some, List.head?_nil]
    exact if_neg (Option.some_ne_none node).symm
  next => rfl

theorem Listed.slistInsertElt_eq (h : s.Listed l) (comparator : ι → ι → ℤ) (bound : ℕ) :
    slistInsertElt bound s node comparator =
      if (l.takeWhile fun walk ↦ comparator walk node < 0).length < bound then
        some (s.linkAfter (l.takeWhile fun walk ↦ comparator walk node < 0).getLast? node)
      else none := by
  unfold slistInsertElt slistForeachCond
  rw [walkWhile_eq _ bound h]
  split
  next =>
    rw [Option.map_some, Option.or_none]
    rfl
  next => rfl

theorem Listed.remove (h : s.Listed l) (hnodup : l.Nodup)
    (hstep : slistRemoveElt bound s node = some t) : t.Listed (l.erase node) := by
  by_cases hmem : node ∈ l
  · obtain ⟨pre, post, rfl, hpre⟩ := List.eq_append_cons_of_mem hmem
    rw [h.slistRemoveElt_eq hpre, Option.ite_none_right_eq_some, Option.some.injEq] at hstep
    obtain ⟨-, rfl⟩ := hstep
    rw [List.erase_append_right _ hpre, List.erase_cons_head]
    exact h.unlinkAfter hnodup
  · rw [h.slistRemoveElt_absent hmem, Option.ite_none_right_eq_some, Option.some.injEq] at hstep
    obtain ⟨-, rfl⟩ := hstep
    rw [List.erase_of_not_mem hmem]
    exact h

/-- The node goes in front of the first one that does not compare less. -/
theorem Listed.insert {comparator : ι → ι → ℤ} (hcmp : TotalPreorder comparator) (h : s.Listed l)
    (hnodup : l.Nodup) (hlink : link ∉ l)
    (hstep : slistInsertElt bound s link comparator = some t) :
    t.Listed (l.orderedInsert (InOrder comparator) link) := by
  have hcondition : (fun walk ↦ decide (comparator walk link < 0)) =
      fun walk ↦ decide ¬ InOrder comparator link walk := by
    funext walk
    congr 1
    exact propext (hcmp.lt_iff walk link)
  rw [List.orderedInsert_eq_take_drop, ← hcondition]
  have hsplit := List.takeWhile_append_dropWhile (p := fun walk ↦ decide (comparator walk link < 0))
    (l := l)
  rw [h.slistInsertElt_eq, Option.ite_none_right_eq_some, Option.some.injEq] at hstep
  obtain ⟨-, rfl⟩ := hstep
  rw [← hsplit] at h hnodup hlink
  exact h.linkAfter hnodup hlink

/-- The loops end at the latest behind the last node, and no null pointer is followed. -/
theorem Listed.step_terminates (h : s.Listed l) (comparator : ι → ι → ℤ) (op : Op ι) :
    ∃ bound t, s.step comparator (bound, op) = some t := by
  refine ⟨l.length + 1, ?_⟩
  unfold step
  cases op with
  | insert link =>
      dsimp only
      rw [h.slistInsertElt_eq, if_pos (length_takeWhile_lt (Nat.lt_succ_self _))]
      exact ⟨_, rfl⟩
  | remove node =>
      dsimp only
      by_cases hmem : node ∈ l
      · obtain ⟨pre, post, rfl, hpre⟩ := List.eq_append_cons_of_mem hmem
        rw [h.slistRemoveElt_eq hpre, if_pos (by rw [List.length_append]; omega)]
        exact ⟨_, rfl⟩
      · rw [h.slistRemoveElt_absent hmem, if_pos (Nat.lt_succ_self _)]
        exact ⟨_, rfl⟩

/-! ## Runs -/

/-- The list at the root is in order, and what was inserted and not removed since. -/
structure Kept (comparator : ι → ι → ℤ) (s : Slist ι) (history l : List ι) : Prop where
  listed : s.Listed l
  nodup : l.Nodup
  stable : StablySorted (InOrder comparator) history l

namespace Kept

variable {comparator : ι → ι → ℤ} {history : List ι}

theorem step (h : Kept comparator s history l) (hcmp : TotalPreorder comparator) {op : Op ι}
    (hpermitted : s.Permitted (bound, op)) (hstep : s.step comparator (bound, op) = some t) :
    ∃ l', Kept comparator t (present history op) l' := by
  have := hcmp.total
  have := hcmp.isTrans
  cases op with
  | insert link =>
      have hlink := hpermitted l h.listed
      refine ⟨_, h.listed.insert hcmp h.nodup hlink hstep, ?_, h.stable.insert link⟩
      exact (List.perm_orderedInsert _ link l).nodup_iff.mpr (List.nodup_cons.mpr ⟨hlink, h.nodup⟩)
  | remove node =>
      exact ⟨_, h.listed.remove h.nodup hstep, h.nodup.erase node, h.stable.erase h.nodup node⟩

end Kept

/-- The list at the root is finite, sorted by the comparator and holds the nodes that were inserted
and not removed since, each once, those that compare equal in the order of insertion, the newest
first.  Every further call ends. -/
theorem slist_run_sorted {comparator : ι → ι → ℤ} (hcmp : TotalPreorder comparator)
    {next : ι → Option ι} {history : List ι}
    (hrun : Guarded (historyStep comparator) (fun x call ↦ x.1.Permitted call)
      (⟨next, none⟩, []) (s, history)) :
    (∃ l, s.Listed l ∧ l.Nodup ∧ l.Perm history ∧ l.Pairwise (fun a b ↦ comparator a b ≤ 0) ∧
      ∀ a, l.filter (fun b ↦ comparator a b = 0) = history.filter fun b ↦ comparator a b = 0) ∧
    ∀ op, ∃ bound t, s.step comparator (bound, op) = some t := by
  have hkept : ∃ l, Kept comparator s history l := by
    apply hrun.invariant (I := fun x : Slist ι × List ι ↦ ∃ l, Kept comparator x.1 x.2 l)
    · exact ⟨[], rfl, List.nodup_nil, .nil⟩
    · intro c e c' hinv hpermitted hstep
      obtain ⟨s, history⟩ := c
      obtain ⟨bound, op⟩ := e
      obtain ⟨t, history'⟩ := c'
      obtain ⟨l, h⟩ := hinv
      rcases Option.map_eq_some_iff.mp hstep with ⟨u, hu, heq⟩
      cases heq
      exact h.step hcmp hpermitted hu
  rcases hkept with ⟨l, h⟩
  refine ⟨⟨l, h.listed, h.nodup, h.stable.perm, h.stable.sorted, fun a ↦ ?_⟩,
    h.listed.step_terminates comparator⟩
  have hties := h.stable.ties a
  rw [funext (hcmp.tied_eq a)] at hties
  exact hties

-- Nodes that all compare equal, their stale pointers all naming 5: 1 is inserted, then 2.
theorem slist_run_sorted_tied :
    ∃ s : Slist ℕ, s.Listed [2, 1] ∧
      ∀ op, ∃ bound t, s.step (fun _ _ ↦ 0) (bound, op) = some t := by
  have hcmp : TotalPreorder fun _ _ : ℕ ↦ 0 := ⟨fun _ _ ↦ Iff.rfl, fun _ _ _ h _ ↦ h⟩
  let start : Slist ℕ := ⟨fun _ ↦ some 5, none⟩
  let one : Slist ℕ := { start.setNext 1 none with root := some 1 }
  have hempty : start.Listed [] := rfl
  have hone : one.Listed [1] := hempty.insert_head List.not_mem_nil
  have hrun : Guarded (historyStep fun _ _ ↦ 0) (fun x call ↦ x.1.Permitted call) (start, [])
      ({ one.setNext 2 (some 1) with root := some 2 }, [2, 1]) := by
    apply Guarded.next (t := (one, [1])) (1, .insert 2)
    · apply Guarded.next (t := (start, [])) (1, .insert 1) .refl _ rfl
      intro l hl
      rw [hl.unique hempty]
      exact List.not_mem_nil
    · intro l hl
      rw [hl.unique hone]
      decide
    · rfl
  exact ⟨_, hone.insert_head (by decide), (slist_run_sorted hcmp hrun).2⟩

end Slist

end Divers.Tad
