import Divers.IoLoop.HeapBalance

/-! The end of the library: what `tdestroy` frees and closes, in whatever order it comes to the
nodes. -/

open Divers.Library

namespace Divers.IoLoop

namespace IolState

/-- `_iol_free_node`, with the file descriptor that it closes; `none` where it reads a record that
is not there. -/
def iolFreeNode (s : IolState) (ev : ℕ) : Option (IolState × ℤ) :=
  (s.fdOf ev).map fun fd ↦ (((s.epollCtlDel fd).freeData ev).freeEv ev, fd)

/-- `iol_exitlib`, where `tdestroy` comes to the nodes in this order. -/
def iolExitlib (s : IolState) : List ℕ → Option (IolState × List ℤ)
  | [] => some (s, [])
  | ev :: order =>
      (s.iolFreeNode ev).bind fun freed ↦
        (freed.1.iolExitlib order).map fun rest ↦ (rest.1, freed.2 :: rest.2)

variable {s t : IolState} {R : Registry} {fd fd' : ℤ} {r r' : Registration} {event : EpollEvent}
  {order : List ℕ} {fds : List ℤ}

/-! ## One node -/

/-- What `_iol_free_node` leaves of a registration. -/
def withoutNode (s : IolState) (fd : ℤ) (r : Registration) : IolState :=
  { s with
    evs := s.evs.free r.ev
    descs := s.descs.free r.desc
    epoll := Function.update s.epoll fd none }

theorem Holds.iolFreeNode (h : s.Holds fd r event) :
    s.iolFreeNode r.ev = some (s.withoutNode fd r, fd) := by
  have hdata : (s.epollCtlDel fd).dataOf r.ev = some r.desc := h.dataOf_eq
  rw [IolState.iolFreeNode, h.fdOf_eq, Option.map_some]
  unfold freeData
  rw [hdata]
  rfl

/-- The records of the other registrations stay. -/
theorem Holds.withoutNode (h : s.Holds fd' r' event) (hapart : r'.Apart r) :
    (s.withoutNode fd r).Holds fd' r' event := by
  refine ⟨?_, h.2.1, ?_⟩
  · show (s.evs.free r.ev).cell r'.ev = some event
    rw [Arena.free_cell_of_ne hapart.1]
    exact h.1
  · show ((s.descs.free r.desc).cell r'.desc).map IoloopEventDesc.iolFd = some fd'
    rw [Arena.free_cell_of_ne hapart.2]
    exact h.2.2

/-! ## All nodes -/

abbrev Node := ℤ × Registration

def withoutNodes (s : IolState) (nodes : List Node) : IolState :=
  nodes.foldl (fun s node ↦ s.withoutNode node.1 node.2) s

/-- Different registrations of the table, with their file descriptors. -/
structure Lists (s : IolState) (R : Registry) (nodes : List Node) : Prop where
  table : ∀ node ∈ nodes, R.table node.1 = some node.2
  holds : ∀ node ∈ nodes, ∃ event, s.Holds node.1 node.2 event
  nodup : (nodes.map Prod.fst).Nodup

theorem Lists.tail {node : Node} {nodes : List Node} (h : s.Lists R (node :: nodes)) :
    (s.withoutNode node.1 node.2).Lists R nodes := by
  have hnodup := List.nodup_cons.mp h.nodup
  refine ⟨fun node' hnode' ↦ h.table node' (List.mem_cons_of_mem _ hnode'), fun node' hnode' ↦ ?_,
    hnodup.2⟩
  have hne : node'.1 ≠ node.1 := by
    intro heq
    exact hnodup.1 (List.mem_map.mpr ⟨node', hnode', heq⟩)
  have hapart := R.table_apart (h.table node' (List.mem_cons_of_mem _ hnode'))
    (h.table node List.mem_cons_self) hne
  obtain ⟨event, hholds⟩ := h.holds node' (List.mem_cons_of_mem _ hnode')
  exact ⟨event, hholds.withoutNode hapart⟩

theorem Lists.iolExitlib {nodes : List Node} (h : s.Lists R nodes) :
    s.iolExitlib (nodes.map fun node ↦ node.2.ev) =
      some (s.withoutNodes nodes, nodes.map Prod.fst) := by
  induction nodes generalizing s with
  | nil => rfl
  | cons node nodes ih =>
      obtain ⟨event, hholds⟩ := h.holds node List.mem_cons_self
      rw [List.map_cons, IolState.iolExitlib, hholds.iolFreeNode, Option.bind_some, ih h.tail]
      rfl

theorem withoutNodes_epoll (s : IolState) (nodes : List Node) (fd : ℤ) :
    (s.withoutNodes nodes).epoll fd = if fd ∈ nodes.map Prod.fst then none else s.epoll fd := by
  induction nodes generalizing s with
  | nil => rfl
  | cons node nodes ih =>
      show ((s.withoutNode node.1 node.2).withoutNodes nodes).epoll fd = _
      have hone : (s.withoutNode node.1 node.2).epoll fd =
          if fd = node.1 then none else s.epoll fd := Function.update_apply ..
      rw [ih, hone]
      simp only [List.map_cons, List.mem_cons]
      by_cases hfd : fd = node.1
      · rw [if_pos hfd, if_pos (Or.inl hfd), ite_self]
      · simp only [hfd, false_or, if_false]

theorem withoutNodes_evs (s : IolState) (nodes : List Node) (a : ℕ) :
    ((s.withoutNodes nodes).evs.cell a).isSome ↔
      (s.evs.cell a).isSome ∧ ∀ node ∈ nodes, a ≠ node.2.ev := by
  induction nodes generalizing s with
  | nil => simp [withoutNodes]
  | cons node nodes ih =>
      show (((s.withoutNode node.1 node.2).withoutNodes nodes).evs.cell a).isSome ↔ _
      rw [ih, List.forall_mem_cons]
      show ((s.evs.free node.2.ev).cell a).isSome ∧ _ ↔ _
      rw [Arena.free_isSome]
      tauto

theorem withoutNodes_descs (s : IolState) (nodes : List Node) (a : ℕ) :
    ((s.withoutNodes nodes).descs.cell a).isSome ↔
      (s.descs.cell a).isSome ∧ ∀ node ∈ nodes, a ≠ node.2.desc := by
  induction nodes generalizing s with
  | nil => simp [withoutNodes]
  | cons node nodes ih =>
      show (((s.withoutNode node.1 node.2).withoutNodes nodes).descs.cell a).isSome ↔ _
      rw [ih, List.forall_mem_cons]
      show ((s.descs.free node.2.desc).cell a).isSome ∧ _ ↔ _
      rw [Arena.free_isSome]
      tauto

/-- The nodes of the tree, in any order, are registrations of their own. -/
theorem Represents.exists_lists (hR : s.Represents R) (hperm : order.Perm s.root) :
    ∃ nodes, order = nodes.map (fun node ↦ node.2.ev) ∧ s.Lists R nodes := by
  have hnodes : ∃ nodes : List Node, order = nodes.map (fun node ↦ node.2.ev) ∧
      ∀ node ∈ nodes, R.table node.1 = some node.2 := by
    have hmem : ∀ ev ∈ order, ∃ fd r, R.table fd = some r ∧ r.ev = ev :=
      fun ev hev ↦ hR.mem_root.mp (hperm.mem_iff.mp hev)
    clear hperm
    induction order with
    | nil => exact ⟨[], rfl, fun _ h ↦ absurd h List.not_mem_nil⟩
    | cons ev order ih =>
        obtain ⟨fd, r, hr, rfl⟩ := hmem ev List.mem_cons_self
        obtain ⟨nodes, rfl, htable⟩ := ih fun ev hev ↦ hmem ev (List.mem_cons_of_mem _ hev)
        exact ⟨(fd, r) :: nodes, rfl, List.forall_mem_cons.mpr ⟨hr, htable⟩⟩
  obtain ⟨nodes, horder, htable⟩ := hnodes
  refine ⟨nodes, horder, htable, fun node hnode ↦ hR.holds (htable node hnode), ?_⟩
  -- a file descriptor has one registration
  have hnodup : (nodes.map fun node ↦ node.2.ev).Nodup :=
    horder ▸ hperm.nodup_iff.mpr hR.root_nodup
  refine (List.Nodup.of_map _ hnodup).map_on fun p hp q hq heq ↦ Prod.ext heq ?_
  have hp' := htable p hp
  rw [heq, htable q hq] at hp'
  exact (Option.some.inj hp').symm

/-! ## Runs -/

/-- What `iol_exitlib` leaves, and the file descriptors that it closes. -/
structure Exits (s t : IolState) (closed : List ℤ) : Prop where
  nodup : closed.Nodup
  closed : ∀ fd, fd ∈ closed ↔ (s.tfind fd).isSome
  epoll : ∀ fd, t.epoll fd = none
  evs : ∀ a, (t.evs.cell a).isSome ↔ (s.evs.cell a).isSome ∧ a ∉ s.root
  descs : ∀ a, (t.descs.cell a).isSome ↔
    (s.descs.cell a).isSome ∧ ∀ ev ∈ s.root, s.dataOf ev ≠ some a

theorem Represents.exits (hR : s.Represents R) (hperm : order.Perm s.root) :
    ∃ t closed, s.iolExitlib order = some (t, closed) ∧ s.Exits t closed := by
  obtain ⟨nodes, rfl, hlists⟩ := hR.exists_lists hperm
  have hmem : ∀ fd, fd ∈ nodes.map Prod.fst ↔ ∃ r, R.table fd = some r := by
    intro fd
    constructor
    · intro hfd
      obtain ⟨node, hnode, rfl⟩ := List.mem_map.mp hfd
      exact ⟨node.2, hlists.table node hnode⟩
    · intro hexists
      obtain ⟨r, hr⟩ := hexists
      have hroot := hperm.mem_iff.mpr (hR.mem_root.mpr ⟨fd, r, hr, rfl⟩)
      obtain ⟨node, hnode, hev⟩ := List.mem_map.mp hroot
      refine List.mem_map.mpr ⟨node, hnode, ?_⟩
      by_contra hne
      exact (R.table_apart (hlists.table node hnode) hr hne).1 hev
  refine ⟨_, _, hlists.iolExitlib, hlists.nodup, fun fd ↦ ?_, fun fd ↦ ?_, fun a ↦ ?_, fun a ↦ ?_⟩
  · rw [hmem, hR.tfind_eq, Option.isSome_map, Option.isSome_iff_exists]
  · rw [withoutNodes_epoll]
    split
    next => rfl
    next hfd =>
      apply hR.absent
      by_contra hsome
      exact hfd ((hmem fd).mpr (Option.ne_none_iff_exists'.mp hsome))
  · have hroot : (∀ node ∈ nodes, a ≠ node.2.ev) ↔ a ∉ s.root := by
      rw [← hperm.mem_iff, List.mem_map, not_exists]
      exact ⟨fun h node hnode ↦ h node hnode.1 hnode.2.symm,
        fun h node hnode heq ↦ h node ⟨hnode, heq.symm⟩⟩
    rw [withoutNodes_evs, hroot]
  · have hdata : ∀ node ∈ nodes, a ≠ node.2.desc ↔ s.dataOf node.2.ev ≠ some a := by
      intro node hnode
      obtain ⟨event, hholds⟩ := hlists.holds node hnode
      rw [hholds.dataOf_eq, Ne, Ne, Option.some.injEq, eq_comm]
    have hroot : (∀ node ∈ nodes, a ≠ node.2.desc) ↔ ∀ ev ∈ s.root, s.dataOf ev ≠ some a := by
      simp only [← hperm.mem_iff, List.forall_mem_map]
      exact forall₂_congr hdata
    rw [withoutNodes_descs, hroot]

/-- Nothing is left where all records are those of the tree. -/
theorem Exits.nothing_left {closed : List ℤ} (h : s.Exits t closed) (hbalanced : s.Balanced)
    (hcleans : s.cleans = []) : (∀ a, t.evs.cell a = none) ∧ ∀ a, t.descs.cell a = none := by
  have hkept : ∀ ev, s.Kept ev ↔ ev ∈ s.root := by
    intro ev
    rw [Kept, hcleans]
    exact or_iff_left List.not_mem_nil
  constructor
  · intro a
    rw [← Option.not_isSome_iff_eq_none, h.evs, hbalanced.evs, hkept]
    exact fun hboth ↦ hboth.2 hboth.1
  · intro a
    rw [← Option.not_isSome_iff_eq_none, h.descs, hbalanced.descs]
    intro hboth
    obtain ⟨⟨ev, hev, hdata⟩, hnone⟩ := hboth
    exact hnone ev ((hkept ev).mp hev) hdata

/-- Wherever a run stops and in whatever order the nodes are freed, the end of the library reads no
record that is gone, closes each registered file descriptor once and no other, and leaves nothing
registered.  It leaves no record either, if the run removed no registration without an `iol_clean`
and no clean-up is running. -/
theorem exit_run_frees (hrun : Guarded IolState.step Respects init s) (hperm : order.Perm s.root) :
    ∃ t closed, s.iolExitlib order = some (t, closed) ∧ s.Exits t closed ∧
      (Guarded IolState.step (fun s op ↦ s.Respects op ∧ s.CleansUp op) init s → s.cleans = [] →
        (∀ a, t.evs.cell a = none) ∧ ∀ a, t.descs.cell a = none) := by
  obtain ⟨R, hR⟩ := run_represents hrun
  obtain ⟨t, closed, hexit, hexits⟩ := hR.exits hperm
  refine ⟨t, closed, hexit, hexits, fun hclean hcleans ↦ hexits.nothing_left ?_ hcleans⟩
  have hinvariant : s.Balanced ∧ ∃ R, s.Represents R := by
    apply hclean.invariant (I := fun s ↦ s.Balanced ∧ ∃ R, s.Represents R)
      ⟨init_balanced, _, init_represents⟩
    intro s op t hinv hallow hstep
    obtain ⟨hbalanced, R, hR⟩ := hinv
    exact ⟨(hR.balanced_step hallow.1 hstep).mpr ⟨hbalanced, hallow.2⟩, hR.step hallow.1 hstep⟩
  exact hinvariant.1

/-- File descriptor 3 is registered and removed with its clean-up before 4 and 5 are registered; the
end of the library comes to 4 first. -/
theorem exit_run_frees_two :
    ∃ (s t : IolState) (closed : List ℤ), s.cleans = [] ∧
      s.iolExitlib [1, 2] = some (t, closed) ∧ s.Exits t closed ∧
      (∀ a, t.evs.cell a = none) ∧ ∀ a, t.descs.cell a = none := by
  let s₁ := (init.iolAddEvent (some (cleaned 3 0)) none).1
  let s₂ := (s₁.iolDelEvent 3).1
  let s₃ := { s₂ with cleans := [] }.iolCleanReturn 0
  let s₄ := (s₃.iolAddEvent (some (watched 4)) none).1
  let s₅ := (s₄.iolAddEvent (some (watched 5)) none).1
  have hclean : s₁.CleansUp (.delEvent 3) := by
    intro fd hfd ev hev
    cases hfd
    cases hev
    rfl
  have hrun : ∀ allow : IolState → IolOp → Prop, (∀ s op, s.Respects op → s.CleansUp op →
      allow s op) → Guarded IolState.step allow init s₅ := by
    intro allow hallow
    refine Guarded.next (.addEvent (some (watched 5)) none) (t := s₄) ?_
      (hallow _ _ trivial fun _ h ↦ by cases h) rfl
    refine Guarded.next (.addEvent (some (watched 4)) none) (t := s₃) ?_
      (hallow _ _ trivial fun _ h ↦ by cases h) rfl
    refine Guarded.next .cleanReturn (t := s₂) ?_ (hallow _ _ trivial fun _ h ↦ by cases h) rfl
    refine Guarded.next (.delEvent 3) (t := s₁) ?_ (hallow _ _ trivial hclean) rfl
    exact Guarded.next (.addEvent (some (cleaned 3 0)) none) .refl
      (hallow _ _ trivial fun _ h ↦ by cases h) rfl
  have hperm : [1, 2].Perm s₅.root := List.Perm.swap 2 1 []
  obtain ⟨t, closed, hexit, hexits, hnothing⟩ :=
    exit_run_frees (hrun _ fun _ _ h _ ↦ h) hperm
  exact ⟨s₅, t, closed, rfl, hexit, hexits, hnothing (hrun _ fun _ _ h h' ↦ ⟨h, h'⟩) rfl⟩

end IolState

end Divers.IoLoop
