import Divers.SmallRustTree.Links
import Divers.Library.RangeSum

/-! Runs of the tree: every node has at most one live parent, `get_parent` returns it, and every
drop comes to its end. -/

open Divers.Library

namespace Divers.SmallRustTree

variable {T : Type*}

namespace TreeState

variable {s t : TreeState T} {c l n p : ℕ}

namespace Linked

/-! ## Steps -/

theorem getParent_some (h : s.Linked) (hparent : parentOf s.heap c = some l) {dropping : List ℕ}
    {refs : List ℕ} (hcount : ∀ n, refs.count n + dropping.count n =
      s.refs.count n + s.dropping.count n + if n = l then 1 else 0) :
    (SmallRustTree.getParent s.heap c) = (s.heap.clone l, some l) ∧
      (∀ b, parentOf (s.heap.clone l) b = parentOf s.heap b) ∧
      Linked { heap := s.heap.clone l, refs := refs, dropping := dropping } := by
  have hl := (parentOf_eq_some.mp hparent).2
  refine ⟨?_, fun b ↦ parentOf_congr rfl fun _ _ ↦ clone_live hl, h.clone hl hcount⟩
  rw [getParent_eq, hparent]

theorem count_cons_add (n a : ℕ) (l m : List ℕ) :
    (a :: l).count n + m.count n = l.count n + m.count n + if n = a then 1 else 0 := by
  rw [List.count_cons]
  by_cases hn : n = a
  · subst hn
    rw [beq_self_eq_true, if_pos rfl, if_pos rfl]
    omega
  · rw [beq_false_of_ne (Ne.symm hn), if_neg Bool.false_ne_true, if_neg hn]
    omega

/-- What a step does: a node comes to life, a node loses its parent, or `add_children` gives it
one. -/
theorem step {op : TreeOp T} (h : s.Linked) (hstep : s.step op = some t) :
    t.Linked ∧ (∀ b, Live t.heap b → Live s.heap b ∨ ∃ value, op = .new b value) ∧
    (((∀ p c, op = .addChildren p c → parentOf s.heap c ≠ none) ∧
        ∀ b, parentOf t.heap b = parentOf s.heap b ∨ parentOf t.heap b = none) ∨
      ∃ p c, op = .addChildren p c ∧ parentOf s.heap c = none ∧
        ∀ b, parentOf t.heap b = if b = c then some p else parentOf s.heap b) := by
  have hcases := step_cases hstep
  cases op with
  | new addr value =>
      rcases hcases with ⟨⟨-, hfree⟩, rfl⟩
      refine ⟨h.new hfree value, fun b hb ↦ ?_,
        Or.inl ⟨fun _ _ heq ↦ (by cases heq), fun b ↦ Or.inl (h.new_parentOf hfree value)⟩⟩
      unfold Live at hb ⊢
      rw [RcHeap.new_strong] at hb
      split at hb
      next heq => exact Or.inr ⟨value, heq ▸ rfl⟩
      next => exact Or.inl hb
  | clone self =>
      rcases hcases with ⟨⟨-, hself⟩, rfl⟩
      have hlive := h.live_of_ref hself
      exact ⟨h.clone hlive fun n ↦ count_cons_add n self s.refs s.dropping,
        fun b hb ↦ Or.inl ((clone_live hlive).mp hb),
        Or.inl ⟨fun _ _ heq ↦ (by cases heq),
          fun b ↦ Or.inl (parentOf_congr rfl fun _ _ ↦ clone_live hlive)⟩⟩
  | drop self =>
      -- the reference is only moved to those that are being dropped
      rcases hcases with ⟨⟨hdropping, hself⟩, rfl⟩
      refine ⟨h.recount fun n ↦ ?_, fun b hb ↦ Or.inl hb,
        Or.inl ⟨fun _ _ heq ↦ (by cases heq), fun b ↦ Or.inl rfl⟩⟩
      have hperm := (List.perm_cons_erase hself).count_eq n
      rw [hdropping, hperm, List.count_cons, List.count_cons, List.count_nil]
      omega
  | getParent self =>
      rcases hcases with ⟨⟨-, -⟩, rfl⟩
      cases hparent : parentOf s.heap self with
      | none =>
          rw [getParent_eq, hparent]
          exact ⟨h, fun b hb ↦ Or.inl hb,
            Or.inl ⟨fun _ _ heq ↦ (by cases heq), fun b ↦ Or.inl rfl⟩⟩
      | some l =>
          have hlive := (parentOf_eq_some.mp hparent).2
          rcases h.getParent_some hparent fun n ↦ count_cons_add n l s.refs s.dropping with
            ⟨heq, hkeep, hlinked⟩
          rw [heq]
          exact ⟨hlinked, fun b hb ↦ Or.inl ((clone_live hlive).mp hb),
            Or.inl ⟨fun _ _ heq ↦ (by cases heq), fun b ↦ Or.inl (hkeep b)⟩⟩
  | addChildren self child =>
      rcases hcases with ⟨⟨hdropping, hself, hchild⟩, rfl⟩
      unfold SmallRustTree.addChildren
      cases hparent : parentOf s.heap child with
      | none =>
          rw [getParent_eq, hparent]
          rcases h.link hself hchild hparent with ⟨hlive, hnew, hlinked⟩
          rw [show s = { s with dropping := [] } by rw [← hdropping]] at hlinked
          exact ⟨hlinked, fun b hb ↦ Or.inl ((hlive b).mp hb),
            Or.inr ⟨self, child, rfl, hparent, hnew⟩⟩
      | some l =>
          -- the child has a parent: `get_parent` took a reference to it, which is dropped
          have hlive := (parentOf_eq_some.mp hparent).2
          have hcount : ∀ n, s.refs.count n + [l].count n =
              s.refs.count n + s.dropping.count n + if n = l then 1 else 0 := by
            intro n
            have := count_cons_add n l [] s.refs
            rw [hdropping]
            simp only [List.count_nil] at this ⊢
            omega
          rcases h.getParent_some hparent hcount with ⟨heq, hkeep, hlinked⟩
          rw [heq]
          refine ⟨hlinked, fun b hb ↦ Or.inl ((clone_live hlive).mp hb),
            Or.inl ⟨fun p c hop hnone ↦ ?_, fun b ↦ Or.inl (hkeep b)⟩⟩
          cases hop
          rw [hparent] at hnone
          cases hnone
  | release =>
      rcases hcases with ⟨n, rest, hdropping, rfl⟩
      rcases h.release hdropping with ⟨hlive, hparents, hlinked⟩
      exact ⟨hlinked, fun b hb ↦ Or.inl (hlive b hb),
        Or.inl ⟨fun _ _ heq ↦ (by cases heq), hparents⟩⟩

end Linked

/-! ## Runs -/

theorem run_linked (hrun : Reachable step (init : TreeState T) s) : s.Linked := by
  apply hrun.invariant (I := Linked) init_linked
  intro s op t h _ hstep
  exact (h.step hstep).1

/-- Every live node is listed at most once by the live nodes, by the one that `get_parent`
returns. -/
structure ParentsAgree (s : TreeState T) : Prop where
  nodup : ∀ p, Live s.heap p → (nodeChildren s.heap p).Nodup
  once : ∀ p q c, Live s.heap p → Live s.heap q → Live s.heap c →
    c ∈ nodeChildren s.heap p → c ∈ nodeChildren s.heap q → p = q
  agree : ∀ p c, Live s.heap c →
    ((Live s.heap p ∧ c ∈ nodeChildren s.heap p) ↔ (SmallRustTree.getParent s.heap c).2 = some p)

theorem getParent_snd (h : NodeHeap T) (c : ℕ) :
    (SmallRustTree.getParent h c).2 = parentOf h c := by
  rw [getParent_eq]
  cases parentOf h c <;> rfl

theorem Linked.parentsAgree (h : s.Linked) : s.ParentsAgree where
  nodup p _ := h.nodup p
  once p q c _ _ _ hp hq := Option.some.inj ((h.parent hp).symm.trans (h.parent hq))
  agree p c _ := by
    rw [getParent_snd, ← h.mem_children_iff]
    exact and_iff_right_of_imp h.live_of_child

/-- `add_children` makes a reference to the parent that is there already, and drops it again. -/
theorem addChildren_parent (hdropping : s.dropping = []) (hp : p ∈ s.refs)
    (hc : c ∈ s.refs) (hparent : (SmallRustTree.getParent s.heap c).2 ≠ none) :
    ∃ t, s.step (.addChildren p c) = some t ∧ t.step .release = some s := by
  rw [getParent_snd] at hparent
  rcases Option.ne_none_iff_exists'.mp hparent with ⟨l, hl⟩
  refine ⟨{ s with heap := s.heap.clone l, dropping := [l] }, ?_, ?_⟩
  · simp only [TreeState.step, SmallRustTree.addChildren]
    rw [if_pos ⟨hdropping, hp, hc⟩, getParent_eq, hl]
    rfl
  · simp only [TreeState.step]
    unfold TreeState.release
    rw [RcHeap.clone_dropStrong s.heap l (parentOf_eq_some.mp hl).2, ← hdropping]

/-! ## Termination of drops -/

theorem run_bounded (hrun : Reachable step (init : TreeState T) s) :
    ∃ bound, ∀ n, Live s.heap n → n < bound := by
  have hinv : s.Linked ∧ ∃ bound, ∀ n, Live s.heap n → n < bound := by
    apply hrun.invariant
      (I := fun s : TreeState T ↦ s.Linked ∧ ∃ bound, ∀ n, Live s.heap n → n < bound)
      ⟨init_linked, 0, fun n hn ↦ (Nat.lt_irrefl 0 hn).elim⟩
    intro s op t hinv _ hstep
    obtain ⟨h, bound, hbound⟩ := hinv
    rcases h.step hstep with ⟨hlinked, hlive, -⟩
    refine ⟨hlinked, ?_⟩
    cases op with
    | new addr value =>
        refine ⟨max bound (addr + 1), fun n hn ↦ ?_⟩
        rcases hlive n hn with hn | ⟨value', heq⟩
        · exact Nat.lt_of_lt_of_le (hbound n hn) (Nat.le_max_left ..)
        · cases heq
          exact Nat.lt_of_lt_of_le (Nat.lt_succ_self _) (Nat.le_max_right ..)
    | _ =>
        refine ⟨bound, fun n hn ↦ ?_⟩
        rcases hlive n hn with hn | ⟨value, heq⟩
        · exact hbound n hn
        · cases heq
  exact hinv.2

/-- The strong references that the drop under way can still reach. -/
def pendingDrops (bound : ℕ) (s : TreeState T) : ℕ :=
  s.dropping.length + ∑ n ∈ Finset.range bound, (nodeChildren s.heap n).length

theorem Linked.release_pendingDrops (h : s.Linked) {bound : ℕ}
    (hbound : ∀ n, Live s.heap n → n < bound) {rest : List ℕ} (hdropping : s.dropping = n :: rest) :
    pendingDrops bound (s.release n rest) < pendingDrops bound s := by
  have hn : n ∈ s.dropping := hdropping ▸ List.mem_cons_self
  unfold pendingDrops
  rw [hdropping, List.length_cons]
  by_cases hlast : (s.heap n).strong = 1
  · rw [h.release_last hdropping hlast]
    dsimp only
    rw [List.length_append]
    -- the children of `n` move from the sum into the list
    have hsum := sum_range_change (f := fun b ↦ (nodeChildren s.heap b).length)
      (g := fun b ↦ (nodeChildren (deadHeap s.heap n) b).length)
      (hbound n (h.live_of_dropping hn)) fun b hb ↦ by rw [deadHeap_children, if_neg hb]
    rw [deadHeap_children, if_pos rfl, List.length_nil] at hsum
    omega
  · have heq : s.release n rest = { s with heap := s.heap.decStrong n, dropping := rest } := by
      unfold TreeState.release RcHeap.dropStrong
      rw [if_neg hlast]
    rw [heq]
    exact Nat.add_lt_add_right (Nat.lt_succ_self _) _

/-- A drop comes to its end. -/
theorem Linked.drop_returns (h : s.Linked) {bound : ℕ} (hbound : ∀ n, Live s.heap n → n < bound) :
    ∃ t, Guarded TreeState.step (fun _ op ↦ op = .release) s t ∧ t.dropping = [] := by
  have hterminal : ∃ t, Guarded TreeState.step (fun _ op ↦ op = .release) s t ∧
      (t.Linked ∧ ∀ n, Live t.heap n → n < bound) ∧ ∀ op, op = .release → t.step op = none := by
    apply Guarded.exists_terminal (pendingDrops bound) ⟨h, hbound⟩
    intro t op u hinv heq hstep
    obtain ⟨h, hbound⟩ := hinv
    subst heq
    rcases step_cases hstep with ⟨n, rest, hdropping, rfl⟩
    rcases h.release hdropping with ⟨hlive, -, hlinked⟩
    exact ⟨⟨hlinked, fun n hn ↦ hbound n (hlive n hn)⟩, h.release_pendingDrops hbound hdropping⟩
  rcases hterminal with ⟨t, hrun, -, hend⟩
  refine ⟨t, hrun, ?_⟩
  have hstuck := hend .release rfl
  simp only [TreeState.step] at hstuck
  split at hstuck
  next hdropping => exact hdropping
  next => cases hstuck

/-- In every run the children vectors and `get_parent` agree, `add_children` changes nothing on a
child with a live parent, and every drop comes to its end. -/
theorem tree_run_parents (hrun : Reachable step (init : TreeState T) s) :
    s.ParentsAgree ∧
    (∀ p c, s.dropping = [] → p ∈ s.refs → c ∈ s.refs →
      (SmallRustTree.getParent s.heap c).2 ≠ none →
      ∃ t, s.step (.addChildren p c) = some t ∧ t.step .release = some s) ∧
    ∃ t, Guarded step (fun _ op ↦ op = .release) s t ∧ t.dropping = [] := by
  have h := run_linked hrun
  rcases run_bounded hrun with ⟨bound, hbound⟩
  exact ⟨h.parentsAgree, fun p c ↦ addChildren_parent, h.drop_returns hbound⟩

/-- Node 1 under node 0. -/
theorem tree_run_parents_pair :
    ∃ s : TreeState Unit, Reachable step init s ∧ s.ParentsAgree ∧
      nodeChildren s.heap 0 = [1] ∧ parentOf s.heap 1 = some 0 := by
  let h₁ : NodeHeap Unit := RcHeap.empty.new 0 (listNode ())
  let h₂ := h₁.new 1 (listNode ())
  let s : TreeState Unit := ⟨pushChild (setParent h₂ 0 1) 0 1, [1, 0], []⟩
  have hrun : Reachable step init s :=
    ((Guarded.refl.next (u := ⟨h₁, [0], []⟩) (.new 0 ()) trivial rfl).next (u := ⟨h₂, [1, 0], []⟩)
      (.new 1 ()) trivial rfl).next (.addChildren 0 1) trivial rfl
  exact ⟨s, hrun, (tree_run_parents hrun).1, rfl, rfl⟩

end TreeState

end Divers.SmallRustTree
