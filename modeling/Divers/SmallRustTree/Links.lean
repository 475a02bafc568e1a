import Divers.SmallRustTree.Model
import Mathlib.Data.Set.Card

/-! The counts of every box are the references there are to it, and the parent and children links
are inverse to each other wherever the parent is alive. -/

open Divers.Library

namespace Divers.SmallRustTree

variable {T : Type*}

/-! ## Links of the heap -/

section Heap

variable {h h' : NodeHeap T} {a b c l p : ℕ}

/-- The links only depend on the values. -/
theorem nodeChildren_congr (hvalue : (h' p).value = (h p).value) :
    nodeChildren h' p = nodeChildren h p := by
  unfold nodeChildren
  rw [hvalue]

theorem parentOf_congr (hparent : nodeParent h' c = nodeParent h c)
    (hlive : ∀ l, nodeParent h c = some l → (Live h' l ↔ Live h l)) :
    parentOf h' c = parentOf h c := by
  apply Option.ext
  intro l
  rw [parentOf_eq_some, parentOf_eq_some, hparent]
  exact and_congr_right (hlive l)

theorem clone_live (ha : Live h a) : Live (h.clone a) b ↔ Live h b := by
  unfold Live
  rw [RcHeap.clone_strong]
  split
  next hb =>
    subst hb
    exact iff_of_true (Nat.succ_pos _) ha
  next => exact Iff.rfl

@[simp] theorem replaceWeak_strong (old : Option ℕ) :
    (replaceWeak h old p b).strong = (h b).strong := by
  cases old <;> rfl

@[simp] theorem replaceWeak_value (old : Option ℕ) :
    (replaceWeak h old p b).value = (h b).value := by
  cases old <;> rfl

theorem setParent_strong : (setParent h p c b).strong = (h b).strong := replaceWeak_strong _

theorem setParent_value_isSome :
    (setParent h p c b).value.isSome = (h b).value.isSome := by
  unfold setParent
  rw [RcHeap.modify_value, replaceWeak_value]
  split
  next => exact Option.isSome_map
  next => rfl

theorem setParent_parent (hc : (h c).value.isSome) :
    nodeParent (setParent h p c) b = if b = c then some p else nodeParent h b := by
  rcases Option.isSome_iff_exists.mp hc with ⟨node, hnode⟩
  unfold nodeParent setParent
  rw [RcHeap.modify_value, replaceWeak_value]
  split
  next hb =>
    rw [hb, hnode]
    rfl
  next => rfl

theorem setParent_children : nodeChildren (setParent h p c) b = nodeChildren h b := by
  unfold nodeChildren setParent
  rw [RcHeap.modify_value, replaceWeak_value]
  split
  next => cases (h b).value <;> rfl
  next => rfl

theorem pushChild_strong :
    (pushChild h p c b).strong = if b = c then (h b).strong + 1 else (h b).strong := rfl

theorem pushChild_parent : nodeParent (pushChild h p c) b = nodeParent h b := by
  unfold nodeParent pushChild
  rw [RcHeap.modify_value, RcHeap.clone_value]
  split
  next => cases (h b).value <;> rfl
  next => rfl

theorem pushChild_children (hp : (h p).value.isSome) :
    nodeChildren (pushChild h p c) b =
      if b = p then nodeChildren h p ++ [c] else nodeChildren h b := by
  rcases Option.isSome_iff_exists.mp hp with ⟨node, hnode⟩
  unfold nodeChildren pushChild
  rw [RcHeap.modify_value, RcHeap.clone_value]
  split
  next hb =>
    rw [hb, hnode]
    rfl
  next => rfl

/-! ### A child that is linked to its parent -/

theorem link_live (hc : Live h c) :
    Live (pushChild (setParent h p c) p c) b ↔ Live h b := by
  unfold Live
  rw [pushChild_strong, setParent_strong]
  split
  next hb =>
    subst hb
    exact iff_of_true (Nat.succ_pos _) hc
  next => exact Iff.rfl

theorem link_value_isSome :
    (pushChild (setParent h p c) p c b).value.isSome = (h b).value.isSome := by
  unfold pushChild
  rw [RcHeap.modify_value, RcHeap.clone_value]
  split
  next => rw [Option.isSome_map, setParent_value_isSome]
  next => exact setParent_value_isSome

theorem link_parent (hc : (h c).value.isSome) :
    nodeParent (pushChild (setParent h p c) p c) b = if b = c then some p else nodeParent h b := by
  rw [pushChild_parent, setParent_parent hc]

theorem link_children (hp : (h p).value.isSome) :
    nodeChildren (pushChild (setParent h p c) p c) b =
      if b = p then nodeChildren h p ++ [c] else nodeChildren h b := by
  rw [pushChild_children (setParent_value_isSome.trans hp), setParent_children, setParent_children]

theorem link_parentOf (hp : Live h p) (hlive : Live h c) (hc : (h c).value.isSome) :
    parentOf (pushChild (setParent h p c) p c) b = if b = c then some p else parentOf h b := by
  apply Option.ext
  intro l
  rw [parentOf_eq_some, link_parent hc, link_live hlive]
  split
  next => exact ⟨And.left, fun hl ↦ ⟨hl, (Option.some.inj hl) ▸ hp⟩⟩
  next => exact parentOf_eq_some.symm

end Heap

/-! ## The invariant -/

/-- The nodes whose parent field refers to `n`. -/
def weakRefs (h : NodeHeap T) (n : ℕ) : Set ℕ := {c | nodeParent h c = some n}

namespace TreeState

structure Linked (s : TreeState T) : Prop where
  value : ∀ n, (s.heap n).value.isSome ↔ Live s.heap n
  nodup : ∀ p, (nodeChildren s.heap p).Nodup
  parent : ∀ {p c}, c ∈ nodeChildren s.heap p → nodeParent s.heap c = some p
  child : ∀ {p c}, parentOf s.heap c = some p → c ∈ nodeChildren s.heap p
  -- the strong references: those of the program, those being dropped, and that of the parent
  strong : ∀ n, (s.heap n).strong =
    s.refs.count n + s.dropping.count n + if (parentOf s.heap n).isSome then 1 else 0
  weak : ∀ n, (weakRefs s.heap n).encard = (s.heap n).weak

theorem init_linked : (init : TreeState T).Linked where
  value n := by simp [init, RcHeap.empty, Live]
  nodup p := List.nodup_nil
  parent h := absurd h List.not_mem_nil
  child h := by cases h
  strong n := rfl
  weak n := by simp [init, weakRefs, nodeParent, RcHeap.empty]

namespace Linked

variable {s : TreeState T} {a c l n p : ℕ}

theorem live_of_child (h : s.Linked) (hc : c ∈ nodeChildren s.heap p) : Live s.heap p := by
  apply (h.value p).mp
  unfold nodeChildren at hc
  cases hvalue : (s.heap p).value with
  | none =>
      rw [hvalue] at hc
      exact absurd hc List.not_mem_nil
  | some node => rfl

/-- Where the parent is alive the two links say the same. -/
theorem mem_children_iff (h : s.Linked) :
    c ∈ nodeChildren s.heap p ↔ parentOf s.heap c = some p :=
  ⟨fun hc ↦ parentOf_eq_some.mpr ⟨h.parent hc, h.live_of_child hc⟩, h.child⟩

theorem live_of_ref (h : s.Linked) (hn : n ∈ s.refs) : Live s.heap n := by
  have hcount := List.count_pos_iff.mpr hn
  unfold Live
  rw [h.strong]
  omega

theorem live_of_dropping (h : s.Linked) (hn : n ∈ s.dropping) : Live s.heap n := by
  have hcount := List.count_pos_iff.mpr hn
  unfold Live
  rw [h.strong]
  omega

/-- Nothing refers to a node whose box has no weak reference. -/
theorem not_parent_of_weak (h : s.Linked) (hweak : (s.heap a).weak = 0) :
    nodeParent s.heap c ≠ some a := by
  intro hc
  have hempty := h.weak a
  rw [hweak, Nat.cast_zero, Set.encard_eq_zero] at hempty
  have : c ∈ weakRefs s.heap a := hc
  rw [hempty] at this
  exact this

/-! ### References alone -/

theorem recount (h : s.Linked) {refs dropping : List ℕ}
    (hcount : ∀ n, refs.count n + dropping.count n = s.refs.count n + s.dropping.count n) :
    Linked { s with refs := refs, dropping := dropping } where
  value := h.value
  nodup := h.nodup
  parent := h.parent
  child := h.child
  strong n := by
    rw [hcount]
    exact h.strong n
  weak := h.weak

theorem clone (h : s.Linked) (ha : Live s.heap a) {refs dropping : List ℕ}
    (hcount : ∀ n, refs.count n + dropping.count n =
      s.refs.count n + s.dropping.count n + if n = a then 1 else 0) :
    Linked { heap := s.heap.clone a, refs := refs, dropping := dropping } := by
  have hparentOf : ∀ c, parentOf (s.heap.clone a) c = parentOf s.heap c :=
    fun c ↦ parentOf_congr rfl fun l _ ↦ clone_live ha
  refine ⟨fun n ↦ (h.value n).trans (clone_live ha).symm, h.nodup, h.parent, fun hc ↦ ?_,
    fun n ↦ ?_, h.weak⟩
  · rw [hparentOf] at hc
    exact h.child hc
  · rw [hparentOf, hcount, RcHeap.clone_strong, h.strong]
    split <;> omega

/-! ### Weak references -/

theorem encard_insert {P Q : Set ℕ} {k : ℕ} (hk : P.encard = k) (hc : c ∉ P)
    (hQ : ∀ b, b ∈ Q ↔ b = c ∨ b ∈ P) : Q.encard = (k + 1 : ℕ) := by
  have hset : Q = insert c P := Set.ext hQ
  rw [hset, Set.encard_insert_of_notMem hc, hk]
  rfl

theorem encard_erase {P Q : Set ℕ} {k : ℕ} (hk : P.encard = k) (hc : c ∈ P)
    (hQ : ∀ b, b ∈ Q ↔ b ∈ P ∧ b ≠ c) : Q.encard = (k - 1 : ℕ) := by
  have hset : Q = P \ {c} := Set.ext hQ
  rw [hset, Set.encard_sdiff_singleton_of_mem hc, hk]
  rfl

/-- The weak reference of `c` to its dead parent gives way to one to `p`. -/
theorem link_weak (h : s.Linked) (hp : Live s.heap p) (hc : (s.heap c).value.isSome)
    (hfree : parentOf s.heap c = none) (n : ℕ) :
    (weakRefs (pushChild (setParent s.heap p c) p c) n).encard =
      (pushChild (setParent s.heap p c) p c n).weak := by
  have hmem : ∀ b, b ∈ weakRefs (pushChild (setParent s.heap p c) p c) n ↔
      if b = c then p = n else b ∈ weakRefs s.heap n := by
    intro b
    show nodeParent (pushChild (setParent s.heap p c) p c) b = some n ↔ _
    rw [link_parent hc]
    split
    next => exact Option.some_inj
    next => exact Iff.rfl
  have hold : ∀ l, nodeParent s.heap c = some l → l ≠ p := by
    intro l hl heq
    subst heq
    rw [parentOf_eq_some.mpr ⟨hl, hp⟩] at hfree
    cases hfree
  by_cases hn : n = p
  · -- the new parent gains the reference
    subst hn
    have hweak : (pushChild (setParent s.heap n c) n c n).weak = (s.heap n).weak + 1 := by
      show (replaceWeak s.heap (nodeParent s.heap c) n n).weak = _
      cases hl : nodeParent s.heap c with
      | none => simp [replaceWeak]
      | some l => simp [replaceWeak, (hold l hl).symm]
    rw [hweak]
    apply encard_insert (c := c) (h.weak n)
    · exact fun hin ↦ hold n hin rfl
    · intro b
      rw [hmem]
      split
      next hb => exact iff_of_true rfl (Or.inl hb)
      next hb => exact (or_iff_right hb).symm
  · by_cases hl : nodeParent s.heap c = some n
    · -- the dead parent loses it
      have hweak : (pushChild (setParent s.heap p c) p c n).weak = (s.heap n).weak - 1 := by
        show (replaceWeak s.heap (nodeParent s.heap c) p n).weak = _
        simp [replaceWeak, hl, hn]
      rw [hweak]
      apply encard_erase (c := c) (h.weak n) hl
      intro b
      rw [hmem]
      split
      next hb => exact iff_of_false (Ne.symm hn) fun hin ↦ hin.2 hb
      next hb => exact (and_iff_left hb).symm
    · -- a node that was and is not the parent of `c`
      have hweak : (pushChild (setParent s.heap p c) p c n).weak = (s.heap n).weak := by
        show (replaceWeak s.heap (nodeParent s.heap c) p n).weak = _
        cases hl' : nodeParent s.heap c with
        | none => simp [replaceWeak, hn]
        | some l =>
            have hnl : n ≠ l := by
              intro heq
              subst heq
              exact hl hl'
            simp [replaceWeak, hn, hnl]
      rw [hweak, ← h.weak n]
      congr 1
      ext b
      rw [hmem]
      split
      next hb => exact iff_of_false (Ne.symm hn) fun hin ↦ hl (hb ▸ hin)
      next => exact Iff.rfl

/-! ### A new node -/

theorem new_nodeParent (h : s.Linked) (ha : s.heap.IsFree a) (value : T) :
    nodeParent (s.heap.new a (listNode value)) c = nodeParent s.heap c := by
  unfold nodeParent
  rw [RcHeap.new_value]
  split
  next hc =>
    subst hc
    have hnone : (s.heap c).value = none := by
      cases hvalue : (s.heap c).value with
      | none => rfl
      | some node =>
          have hlive := (h.value c).mp (by simp [hvalue])
          unfold Live at hlive
          have := ha.1
          omega
    rw [hnone]
    rfl
  next => rfl

theorem new_nodeChildren (h : s.Linked) (ha : s.heap.IsFree a) (value : T) :
    nodeChildren (s.heap.new a (listNode value)) p = nodeChildren s.heap p := by
  cases hc : nodeChildren s.heap p with
  | nil =>
      unfold nodeChildren at hc ⊢
      rw [RcHeap.new_value]
      split
      next => rfl
      next => exact hc
  | cons c l =>
      -- a node with children is alive
      have hlive := h.live_of_child (p := p) (c := c) (by rw [hc]; exact List.mem_cons_self)
      have hne : p ≠ a := by
        intro heq
        subst heq
        unfold Live at hlive
        have := ha.1
        omega
      rw [← hc]
      apply nodeChildren_congr
      rw [RcHeap.new_value, if_neg hne]

theorem new_parentOf (h : s.Linked) (ha : s.heap.IsFree a) (value : T) :
    parentOf (s.heap.new a (listNode value)) c = parentOf s.heap c := by
  apply parentOf_congr (h.new_nodeParent ha value)
  intro l hl
  -- no weak reference is left to a free box
  have hne : l ≠ a := fun heq ↦ h.not_parent_of_weak ha.2 (heq ▸ hl)
  unfold Live
  rw [RcHeap.new_strong, if_neg hne]

theorem new (h : s.Linked) (ha : s.heap.IsFree a) (value : T) :
    Linked { s with heap := s.heap.new a (listNode value), refs := a :: s.refs } := by
  refine ⟨fun n ↦ ?_, fun p ↦ ?_, fun {p c} hc ↦ ?_, fun {p c} hc ↦ ?_, fun n ↦ ?_, fun n ↦ ?_⟩
  · unfold Live
    rw [RcHeap.new_value, RcHeap.new_strong]
    split
    next => simp
    next => exact h.value n
  · rw [h.new_nodeChildren ha]
    exact h.nodup p
  · rw [h.new_nodeChildren ha] at hc
    rw [h.new_nodeParent ha]
    exact h.parent hc
  · rw [h.new_parentOf ha] at hc
    rw [h.new_nodeChildren ha]
    exact h.child hc
  · have hstrong := h.strong n
    rw [h.new_parentOf ha, RcHeap.new_strong, List.count_cons]
    by_cases hn : n = a
    · subst hn
      rw [ha.1] at hstrong
      rw [if_pos rfl, beq_self_eq_true, if_pos rfl]
      dsimp only
      omega
    · have hbeq : (a == n) = false := beq_false_of_ne fun heq ↦ hn heq.symm
      rw [if_neg hn, hbeq, if_neg Bool.false_ne_true]
      exact hstrong
  · have hrefs : weakRefs (s.heap.new a (listNode value)) n = weakRefs s.heap n := by
      unfold weakRefs
      simp only [h.new_nodeParent ha]
    rw [hrefs, h.weak, RcHeap.new_weak]
    split
    next hn => rw [hn, ha.2]
    next => rfl

/-! ### A new link -/

/-- What `add_children` does when the child has no parent. -/
theorem link (h : s.Linked) (hp : p ∈ s.refs) (hc : c ∈ s.refs)
    (hfree : parentOf s.heap c = none) :
    (∀ b, Live (pushChild (setParent s.heap p c) p c) b ↔ Live s.heap b) ∧
      (∀ b, parentOf (pushChild (setParent s.heap p c) p c) b =
        if b = c then some p else parentOf s.heap b) ∧
      Linked { s with heap := pushChild (setParent s.heap p c) p c } := by
  have hplive := h.live_of_ref hp
  have hclive := h.live_of_ref hc
  have hpvalue := (h.value p).mpr hplive
  have hcvalue := (h.value c).mpr hclive
  -- `c` was nobody's child
  have habsent : ∀ q, c ∉ nodeChildren s.heap q := by
    intro q hmem
    rw [h.mem_children_iff, hfree] at hmem
    cases hmem
  refine ⟨fun b ↦ link_live hclive, fun b ↦ link_parentOf hplive hclive hcvalue, fun n ↦ ?_,
    fun q ↦ ?_, fun {q b} hb ↦ ?_, fun {q b} hb ↦ ?_, fun n ↦ ?_, h.link_weak hplive hcvalue hfree⟩
  · rw [link_live hclive, ← h.value, link_value_isSome]
  · rw [link_children hpvalue]
    split
    next =>
      rw [List.nodup_append_comm, List.singleton_append, List.nodup_cons]
      exact ⟨habsent p, h.nodup p⟩
    next => exact h.nodup q
  · rw [link_children hpvalue] at hb
    rw [link_parent hcvalue]
    by_cases hbc : b = c
    · rw [if_pos hbc]
      split at hb
      next hq => rw [hq]
      next => exact absurd (hbc ▸ hb) (habsent q)
    · rw [if_neg hbc]
      apply h.parent
      split at hb
      next hq =>
        subst hq
        rcases List.mem_append.mp hb with hb | hb
        · exact hb
        · exact absurd (List.mem_singleton.mp hb) hbc
      next => exact hb
  · rw [link_parentOf hplive hclive hcvalue] at hb
    rw [link_children hpvalue]
    split at hb
    next hbc =>
      cases hb
      rw [if_pos rfl, hbc]
      exact List.mem_append_right _ (List.mem_singleton_self c)
    next =>
      split
      next hq => exact List.mem_append_left _ (hq ▸ h.child hb)
      next => exact h.child hb
  · have hstrong := h.strong n
    rw [link_parentOf hplive hclive hcvalue, pushChild_strong, setParent_strong]
    split
    next hn =>
      subst hn
      rw [hfree] at hstrong
      rw [hstrong]
      rfl
    next => exact hstrong

/-! ### A drop -/

/-- A strong reference that is not the last. -/
theorem decStrong (h : s.Linked) {rest : List ℕ} (hdropping : s.dropping = n :: rest)
    (hmore : (s.heap n).strong ≠ 1) :
    (∀ b, Live (s.heap.decStrong n) b ↔ Live s.heap b) ∧
      (∀ c, parentOf (s.heap.decStrong n) c = parentOf s.heap c) ∧
      Linked { s with heap := s.heap.decStrong n, dropping := rest } := by
  have hn : Live s.heap n := h.live_of_dropping (hdropping ▸ List.mem_cons_self)
  have hlive : ∀ b, Live (s.heap.decStrong n) b ↔ Live s.heap b := by
    intro b
    unfold Live at hn ⊢
    rw [RcHeap.decStrong_strong]
    split
    next hb =>
      subst hb
      omega
    next => exact Iff.rfl
  have hparentOf : ∀ c, parentOf (s.heap.decStrong n) c = parentOf s.heap c :=
    fun c ↦ parentOf_congr rfl fun l _ ↦ hlive l
  refine ⟨hlive, hparentOf, fun b ↦ (h.value b).trans (hlive b).symm, h.nodup, h.parent,
    fun hc ↦ ?_, fun b ↦ ?_, h.weak⟩
  · rw [hparentOf] at hc
    exact h.child hc
  · have hstrong := h.strong b
    rw [hdropping] at hstrong
    rw [hparentOf, RcHeap.decStrong_strong]
    by_cases hb : b = n
    · subst hb
      rw [List.count_cons_self] at hstrong
      rw [if_pos rfl]
      dsimp only
      omega
    · rw [List.count_cons_of_ne (Ne.symm hb)] at hstrong
      rw [if_neg hb]
      exact hstrong

/-- The heap once the last strong reference to `n` has been dropped, its children excepted. -/
def deadHeap (heap : NodeHeap T) (n : ℕ) : NodeHeap T :=
  match nodeParent heap n with
  | some l => ((heap.decStrong n).takeValue n).dropWeak l
  | none => (heap.decStrong n).takeValue n

theorem release_last {rest : List ℕ} {s : TreeState T} (h : s.Linked)
    (hdropping : s.dropping = n :: rest) (hlast : (s.heap n).strong = 1) :
    s.release n rest =
      { s with heap := deadHeap s.heap n, dropping := nodeChildren s.heap n ++ rest } := by
  have hn : Live s.heap n := h.live_of_dropping (hdropping ▸ List.mem_cons_self)
  rcases Option.isSome_iff_exists.mp ((h.value n).mpr hn) with ⟨node, hnode⟩
  unfold TreeState.release RcHeap.dropStrong
  rw [if_pos hlast, hnode]
  unfold deadHeap nodeParent nodeChildren
  rw [hnode]
  rfl

theorem deadHeap_value {heap : NodeHeap T} {b : ℕ} :
    (deadHeap heap n b).value = if b = n then none else (heap b).value := by
  unfold deadHeap
  cases nodeParent heap n <;> rfl

theorem deadHeap_strong {heap : NodeHeap T} {b : ℕ} :
    (deadHeap heap n b).strong = if b = n then (heap b).strong - 1 else (heap b).strong := by
  unfold deadHeap
  cases nodeParent heap n <;> rfl

theorem deadHeap_parent {heap : NodeHeap T} {b : ℕ} :
    nodeParent (deadHeap heap n) b = if b = n then none else nodeParent heap b := by
  unfold nodeParent
  rw [deadHeap_value]
  split <;> rfl

theorem deadHeap_children {heap : NodeHeap T} {b : ℕ} :
    nodeChildren (deadHeap heap n) b = if b = n then [] else nodeChildren heap b := by
  unfold nodeChildren
  rw [deadHeap_value]
  split <;> rfl

theorem deadHeap_live (hlast : (s.heap n).strong = 1) (b : ℕ) :
    Live (deadHeap s.heap n) b ↔ b ≠ n ∧ Live s.heap b := by
  unfold Live
  rw [deadHeap_strong]
  split
  next hb =>
    subst hb
    exact iff_of_false (by omega) fun hand ↦ hand.1 rfl
  next hb => exact (and_iff_right hb).symm

theorem deadHeap_weak (h : s.Linked) (m : ℕ) :
    (weakRefs (deadHeap s.heap n) m).encard = (deadHeap s.heap n m).weak := by
  have hmem : ∀ b, b ∈ weakRefs (deadHeap s.heap n) m ↔ b ∈ weakRefs s.heap m ∧ b ≠ n := by
    intro b
    show nodeParent (deadHeap s.heap n) b = some m ↔ _
    rw [deadHeap_parent]
    split
    next hb => exact iff_of_false (fun hnone ↦ by cases hnone) fun hand ↦ hand.2 hb
    next hb => exact (and_iff_left hb).symm
  by_cases hl : nodeParent s.heap n = some m
  · have hweak : (deadHeap s.heap n m).weak = (s.heap m).weak - 1 := by
      unfold deadHeap
      rw [hl]
      simp
    rw [hweak]
    exact encard_erase (c := n) (h.weak m) hl hmem
  · have hweak : (deadHeap s.heap n m).weak = (s.heap m).weak := by
      unfold deadHeap
      cases hl' : nodeParent s.heap n with
      | none => rfl
      | some l =>
          have hml : m ≠ l := by
            intro heq
            subst heq
            exact hl hl'
          simp [hml]
    rw [hweak, ← h.weak m]
    congr 1
    ext b
    rw [hmem]
    exact and_iff_left_of_imp fun hin heq ↦ hl (heq ▸ hin)

section Dead

variable {rest : List ℕ} (h : s.Linked) (hdropping : s.dropping = n :: rest)
  (hlast : (s.heap n).strong = 1)
include h hdropping hlast

/-- The last strong reference is the one that is dropped. -/
theorem last_counts :
    s.refs.count n = 0 ∧ rest.count n = 0 ∧ parentOf s.heap n = none := by
  have hstrong := h.strong n
  rw [hlast, hdropping, List.count_cons_self] at hstrong
  have hparent : (parentOf s.heap n).isSome = false := by
    by_contra hsome
    rw [Bool.not_eq_false] at hsome
    rw [if_pos hsome] at hstrong
    omega
  rw [hparent, if_neg Bool.false_ne_true] at hstrong
  exact ⟨by omega, by omega, Option.not_isSome_iff_eq_none.mp (hparent ▸ Bool.false_ne_true)⟩

/-- The children of `n` lose their parent, and the others keep theirs. -/
theorem deadHeap_parentOf (b : ℕ) :
    parentOf (deadHeap s.heap n) b = if parentOf s.heap b = some n then none
      else parentOf s.heap b := by
  have hroot := (h.last_counts hdropping hlast).2.2
  apply Option.ext
  intro l
  rw [parentOf_eq_some, deadHeap_parent, deadHeap_live hlast]
  by_cases hb : b = n
  · subst hb
    rw [if_pos rfl, hroot]
    exact iff_of_false (fun hand ↦ by cases hand.1) (by simp)
  · rw [if_neg hb]
    split
    next hdead =>
      rw [(parentOf_eq_some.mp hdead).1]
      refine iff_of_false (fun hand ↦ ?_) (by simp)
      exact hand.2.1 (Option.some.inj hand.1).symm
    next hkeep =>
      rw [parentOf_eq_some]
      constructor
      · exact fun hand ↦ ⟨hand.1, hand.2.2⟩
      · intro hboth
        obtain ⟨hl, hlive⟩ := hboth
        refine ⟨hl, ?_, hlive⟩
        intro heq
        subst heq
        exact hkeep (parentOf_eq_some.mpr ⟨hl, hlive⟩)

/-- The references of `n` to its children are now being dropped. -/
theorem deadHeap_counts (b : ℕ) :
    (deadHeap s.heap n b).strong =
      s.refs.count b + (nodeChildren s.heap n ++ rest).count b +
        if (parentOf (deadHeap s.heap n) b).isSome then 1 else 0 := by
  rcases h.last_counts hdropping hlast with ⟨hrefs, hrest, hroot⟩
  have hstrong := h.strong b
  rw [hdropping] at hstrong
  rw [h.deadHeap_parentOf hdropping hlast, deadHeap_strong, List.count_append]
  by_cases hb : b = n
  · subst hb
    have hself : (nodeChildren s.heap b).count b = 0 := by
      rw [List.count_eq_zero, h.mem_children_iff, hroot]
      exact Option.some_ne_none b ∘ Eq.symm
    rw [if_pos rfl, hself, hroot, ite_self, Option.isSome_none, if_neg Bool.false_ne_true]
    omega
  · rw [List.count_cons_of_ne (Ne.symm hb)] at hstrong
    rw [if_neg hb]
    by_cases hchild : parentOf s.heap b = some n
    · have hcount : (nodeChildren s.heap n).count b = 1 :=
        List.count_eq_one_of_mem (h.nodup n) (h.child hchild)
      rw [hchild, Option.isSome_some, if_pos rfl] at hstrong
      rw [if_pos hchild, hcount]
      simp only [Option.isSome_none, Bool.false_eq_true, if_false]
      omega
    · have hcount : (nodeChildren s.heap n).count b = 0 := by
        rw [List.count_eq_zero, h.mem_children_iff]
        exact hchild
      rw [if_neg hchild, hcount]
      omega

theorem dead :
    Linked { s with heap := deadHeap s.heap n, dropping := nodeChildren s.heap n ++ rest } := by
  have hroot := (h.last_counts hdropping hlast).2.2
  have hlive := deadHeap_live hlast
  have hparentOf := h.deadHeap_parentOf hdropping hlast
  refine ⟨fun b ↦ ?_, fun p ↦ ?_, fun {p c} hc ↦ ?_, fun {p c} hc ↦ ?_, fun b ↦ ?_,
    h.deadHeap_weak⟩
  · rw [hlive, ← h.value, deadHeap_value]
    split
    next hb => exact iff_of_false Bool.false_ne_true fun hand ↦ hand.1 hb
    next hb => exact (and_iff_right hb).symm
  · rw [deadHeap_children]
    split
    next => exact List.nodup_nil
    next => exact h.nodup p
  · rw [deadHeap_children] at hc
    split at hc
    next => exact absurd hc List.not_mem_nil
    next =>
      rw [deadHeap_parent, if_neg]
      · exact h.parent hc
      · intro heq
        subst heq
        rw [h.mem_children_iff, hroot] at hc
        cases hc
  · rw [hparentOf] at hc
    split at hc
    next => cases hc
    next hkeep =>
      rw [deadHeap_children, if_neg]
      · exact h.child hc
      · intro heq
        subst heq
        exact hkeep hc
  · exact h.deadHeap_counts hdropping hlast b

end Dead

/-- The next piece of a drop. -/
theorem release (h : s.Linked) {rest : List ℕ} (hdropping : s.dropping = n :: rest) :
    (∀ b, Live (s.release n rest).heap b → Live s.heap b) ∧
      (∀ c, parentOf (s.release n rest).heap c = parentOf s.heap c ∨
        parentOf (s.release n rest).heap c = none) ∧ (s.release n rest).Linked := by
  by_cases hlast : (s.heap n).strong = 1
  · rw [h.release_last hdropping hlast]
    refine ⟨fun b hb ↦ ((deadHeap_live hlast b).mp hb).2, fun c ↦ ?_,
      h.dead hdropping hlast⟩
    rw [h.deadHeap_parentOf hdropping hlast]
    split
    next => exact Or.inr rfl
    next => exact Or.inl rfl
  · have heq : s.release n rest = { s with heap := s.heap.decStrong n, dropping := rest } := by
      unfold TreeState.release RcHeap.dropStrong
      rw [if_neg hlast]
    rw [heq]
    rcases h.decStrong hdropping hlast with ⟨hlive, hparentOf, hlinked⟩
    exact ⟨fun b ↦ (hlive b).mp, fun c ↦ Or.inl (hparentOf c), hlinked⟩

end Linked

end TreeState

end Divers.SmallRustTree
