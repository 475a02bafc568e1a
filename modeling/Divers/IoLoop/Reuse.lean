import Divers.IoLoop.Agreement

/-! Runs in which the application closes registered file descriptors: the kernel drops them from the
interest list, the search tree keeps their nodes. -/

open Divers.Library

namespace Divers.IoLoop

namespace IolState

variable {s t u : IolState} {R : Registry} {fd fd' : ℤ} {r : Registration}

/-! ## The tree alone -/

/-- The tree holds the table of `R`, whatever the interest list holds. -/
def Plants (s : IolState) (R : Registry) : Prop :=
  ∃ epoll, Represents { s with epoll := epoll } R

theorem Represents.plants (hR : s.Represents R) : s.Plants R := ⟨s.epoll, hR⟩

namespace Plants

theorem keyed (hR : s.Plants R) : s.Keyed := by
  rcases hR with ⟨epoll, hR⟩
  exact hR.keyed

theorem tfind_eq (hR : s.Plants R) : s.tfind fd = (R.table fd).map Registration.ev := by
  rcases hR with ⟨epoll, hR⟩
  exact hR.tfind_eq

theorem holds (hR : s.Plants R) (hr : R.table fd = some r) : ∃ event, s.Holds fd r event := by
  rcases hR with ⟨epoll, hR⟩
  exact hR.holds hr

theorem fdOf_eq_iff (hR : s.Plants R) {ev : ℕ} (hev : ev ∈ s.root) :
    s.fdOf ev = some fd ↔ ∃ r, R.table fd = some r ∧ r.ev = ev := by
  rcases hR with ⟨epoll, hR⟩
  exact hR.fdOf_eq_iff hev

theorem extend (hR : s.Plants R) (hext : s.Extends t) : t.Plants R := by
  rcases hR with ⟨epoll, hR⟩
  exact ⟨epoll, hR.extend ⟨hext.root, rfl, hext.cleans, hext.evs, hext.descs⟩⟩

theorem write (hR : s.Plants R) {desc : ℕ} {content : IoloopEventDesc}
    (hlive : (s.descs.cell desc).isSome) (hkeep : s.KeepsFd (.write desc content)) :
    Plants { s with descs := s.descs.store desc content } R := by
  rcases hR with ⟨epoll, hR⟩
  exact ⟨epoll, hR.write hlive hkeep⟩

/-- The interest list plays no part. -/
theorem setEpoll (hR : s.Plants R) (epoll : ℤ → Option EpollEvent) :
    Plants { s with epoll := epoll } R := hR

/-! ### Removal -/

theorem iolDelEvent_absent (hR : s.Plants R) (hr : R.table fd = none) :
    s.iolDelEvent fd = (s, -1) := by
  unfold iolDelEvent
  rw [hR.tfind_eq, hr]
  rfl

theorem iolDelEvent_present (hR : s.Plants R) (hr : R.table fd = some r) :
    s.iolDelEvent fd = (s.iolDelInternalEvent fd r.ev, 0) := by
  unfold iolDelEvent
  rw [hR.tfind_eq, hr]
  rfl

theorem iolDelInternalEvent_eq (hR : s.Plants R) (hr : R.table fd = some r) :
    s.iolDelInternalEvent fd r.ev =
      if ((s.descOf r.ev).bind IoloopEventDesc.iolClean).isSome then
        { s with
          root := s.root.erase r.ev
          epoll := Function.update s.epoll fd none
          cleans := r.ev :: s.cleans }
      else
        { s with
          root := s.root.erase r.ev
          epoll := Function.update s.epoll fd none
          evs := s.evs.free r.ev } := by
  rcases hR with ⟨epoll, hR⟩
  have hdelete : s.tdelete r.ev = { s with root := s.root.erase r.ev } :=
    congrArg (fun t : IolState ↦ { t with epoll := s.epoll }) (hR.tdelete_eq hr)
  unfold iolDelInternalEvent
  rw [hdelete]
  rfl

/-- A removal takes one registration out of the table, and its clean-up starts if it has one. -/
theorem iolDelInternalEvent (hR : s.Plants R) (hr : R.table fd = some r) :
    ∃ R', (s.iolDelInternalEvent fd r.ev).Plants R' ∧
      R'.table = Function.update R.table fd none ∧
      R'.leaving = if ((s.descOf r.ev).bind IoloopEventDesc.iolClean).isSome then r :: R.leaving
        else R.leaving := by
  rw [hR.iolDelInternalEvent_eq hr]
  rcases hR with ⟨epoll, hR⟩
  split
  next => exact ⟨R.retire fd r hr, ⟨_, hR.retire hr⟩, rfl, rfl⟩
  next => exact ⟨R.withdraw fd, ⟨_, hR.withdraw hr⟩, rfl, rfl⟩

theorem release (hR : s.Plants R) {ev : ℕ} {cleans : List ℕ} (hcleans : s.cleans = ev :: cleans) :
    ({ s with cleans := cleans }.iolCleanReturn ev).Plants R.release := by
  rcases hR with ⟨epoll, hR⟩
  refine ⟨epoll, ?_⟩
  have hrelease := hR.release hcleans
  -- the end of a clean-up does not look at the interest list
  have hsame : { { s with cleans := cleans }.iolCleanReturn ev with epoll := epoll } =
      { { s with epoll := epoll } with cleans := cleans }.iolCleanReturn ev := by
    show { (freeData { s with cleans := cleans } ev).freeEv ev with epoll := epoll } =
      (freeData { { s with epoll := epoll } with cleans := cleans } ev).freeEv ev
    unfold freeData
    have hdata : dataOf { s with cleans := cleans } ev =
        dataOf { { s with epoll := epoll } with cleans := cleans } ev := rfl
    rw [hdata]
    split <;> rfl
  rw [hsame]
  exact hrelease

/-! ### Registration -/

/-- A registration that meets no node of its file descriptor enters the table. -/
theorem register (hR : s.Plants R) {desc : IoloopEventDesc} (habsent : R.table desc.iolFd = none)
    (epoll : ℤ → Option EpollEvent) :
    ∃ R', Plants { s.allocated desc with root := s.evs.brk :: s.root, epoll := epoll } R' ∧
      R'.table = Function.update R.table desc.iolFd (some s.newRegistration) ∧
      R'.leaving = R.leaving := by
  rcases hR with ⟨epoll', hR⟩
  exact ⟨_, ⟨_, hR.register habsent⟩, rfl, rfl⟩

/-- What `iol_add_event` does to the tree. -/
theorem addEvent (hR : s.Plants R) (ref : Option IoloopEventDesc) (fault : Option AddFault) :
    ∃ R', (s.iolAddEvent ref fault).1.Plants R' ∧ R'.leaving = R.leaving ∧
      (R'.table = R.table ∨ ∃ desc, ref = some desc ∧ R.table desc.iolFd = none ∧
        R'.table = Function.update R.table desc.iolFd (some s.newRegistration)) := by
  rcases iolAddEvent_cases hR.keyed ref fault with
    ⟨-, hext, -⟩ | ⟨desc, hdesc, -, -, -, heq⟩
  · exact ⟨R, hR.extend hext, rfl, Or.inl rfl⟩
  · rw [heq, hR.tfind_eq]
    cases hr : R.table desc.iolFd with
    | none =>
        rcases hR.register hr (Function.update s.epoll desc.iolFd
          (some ⟨desc.iolEv, some s.descs.brk⟩)) with ⟨R', hR', htable, hleaving⟩
        exact ⟨R', hR', hleaving, Or.inr ⟨desc, hdesc, hr, htable⟩⟩
    | some r =>
        -- `tsearch` found a node, and the new event stays outside the tree
        exact ⟨R, (hR.extend (extends_allocated desc)).setEpoll _, rfl, Or.inl rfl⟩

end Plants

/-! ## One registration -/

/-- The descriptors whose `iol_clean` is called on the way from `s` to `t`. -/
def cleanCalls (s t : IolState) : List ℕ :=
  (t.cleans.take (t.cleans.length - s.cleans.length)).filterMap t.dataOf

/-- The tree holds the registration `r` for `fd`, and its descriptor record holds `desc`. -/
structure Owns (s : IolState) (R : Registry) (fd : ℤ) (r : Registration)
    (desc : IoloopEventDesc) : Prop where
  plants : s.Plants R
  table : R.table fd = some r
  content : s.descs.cell r.desc = some desc

namespace Owns

variable {desc : IoloopEventDesc}

theorem iolClean_eq (h : s.Owns R fd r desc) :
    (s.descOf r.ev).bind IoloopEventDesc.iolClean = desc.iolClean := by
  rcases h.plants.holds h.table with ⟨event, hholds⟩
  unfold descOf
  rw [hholds.dataOf_eq, Option.bind_some, h.content, Option.bind_some]

/-- A registration in the table has a descriptor record. -/
theorem of_table (hR : s.Plants R) (hr : R.table fd = some r) : ∃ desc, s.Owns R fd r desc := by
  rcases hR.holds hr with ⟨event, hholds⟩
  rcases Option.map_eq_some_iff.mp hholds.2.2 with ⟨desc, hdesc, -⟩
  exact ⟨desc, hR, hr, hdesc⟩

/-- The registration that enters the table has the record that is allocated for it. -/
theorem register (hR : s.Plants R) (habsent : R.table desc.iolFd = none)
    (epoll : ℤ → Option EpollEvent) :
    ∃ R', Owns { s.allocated desc with root := s.evs.brk :: s.root, epoll := epoll } R' desc.iolFd
      s.newRegistration desc := by
  rcases hR.register habsent epoll with ⟨R', hR', htable, -⟩
  refine ⟨R', hR', ?_, Arena.alloc_cell_brk⟩
  rw [htable, Function.update_self]

/-- Records that stay outside the tree change nothing for it. -/
theorem allocated (h : s.Owns R fd r desc) (ref : IoloopEventDesc)
    (epoll : ℤ → Option EpollEvent) :
    Owns { s.allocated ref with epoll := epoll } R fd r desc :=
  ⟨(h.plants.extend (extends_allocated ref)).setEpoll epoll, h.table, Arena.alloc_cell h.content⟩

theorem apart_new (h : s.Owns R fd r desc) : s.newRegistration.Apart r := by
  rcases h.plants.holds h.table with ⟨event, hholds⟩
  exact hholds.apart_new

/-- `iol_del_event` calls the `iol_clean` of the registration in the tree. -/
theorem cleanCalls_eq (h : s.Owns R fd r desc) :
    s.cleanCalls (s.iolDelEvent fd).1 = if desc.iolClean.isSome then [r.desc] else [] := by
  rw [h.plants.iolDelEvent_present h.table, h.plants.iolDelInternalEvent_eq h.table, h.iolClean_eq]
  unfold cleanCalls
  rcases h.plants.holds h.table with ⟨event, hholds⟩
  split
  next =>
    have hlength : (r.ev :: s.cleans).length - s.cleans.length = 1 := by
      rw [List.length_cons]
      omega
    have hdata : dataOf { s with
        root := s.root.erase r.ev
        epoll := Function.update s.epoll fd none
        cleans := r.ev :: s.cleans } r.ev = some r.desc := hholds.dataOf_eq
    dsimp only
    rw [hlength, List.take_succ_cons, List.take_zero, List.filterMap_cons_some hdata,
      List.filterMap_nil]
  next => simp

/-- It takes the file descriptor out of the tree and of the interest list. -/
theorem iolDelEvent_gone (h : s.Owns R fd r desc) :
    (∀ node ∈ (s.iolDelEvent fd).1.root, (s.iolDelEvent fd).1.fdOf node ≠ some fd) ∧
      (s.iolDelEvent fd).1.epoll fd = none := by
  rw [h.plants.iolDelEvent_present h.table]
  rcases h.plants.iolDelInternalEvent h.table with ⟨R', hR', htable, -⟩
  constructor
  · intro node hnode hfd
    rcases (hR'.fdOf_eq_iff hnode).mp hfd with ⟨r', hr', -⟩
    rw [htable, Function.update_self] at hr'
    cases hr'
  · rw [h.plants.iolDelInternalEvent_eq h.table]
    split
    next => exact Function.update_self ..
    next => exact Function.update_self ..

/-! ### The steps that leave it alone -/

theorem addEvent (h : s.Owns R fd r desc) (ref : Option IoloopEventDesc) (fault : Option AddFault) :
    ∃ R', (s.iolAddEvent ref fault).1.Owns R' fd r desc := by
  rcases h.plants.addEvent ref fault with ⟨R', hR', -, htable⟩
  refine ⟨R', hR', ?_, ?_⟩
  · rcases htable with htable | ⟨desc', -, habsent, htable⟩
    · rw [htable]
      exact h.table
    · rw [htable, Function.update_of_ne (Registry.ne_of_absent habsent h.table)]
      exact h.table
  · rcases iolAddEvent_cases h.plants.keyed ref fault with
      ⟨-, -, hcell, -⟩ | ⟨desc', -, -, -, -, heq⟩
    · rw [hcell]
      exact h.content
    · rw [heq]
      exact Arena.alloc_cell h.content

theorem delEvent (h : s.Owns R fd r desc) (hfd : fd' ≠ fd) :
    ∃ R', (s.iolDelEvent fd').1.Owns R' fd r desc := by
  cases hr : R.table fd' with
  | none =>
      rw [h.plants.iolDelEvent_absent hr]
      exact ⟨R, h⟩
  | some r' =>
      rw [h.plants.iolDelEvent_present hr]
      rcases h.plants.iolDelInternalEvent hr with ⟨R', hR', htable, -⟩
      refine ⟨R', hR', ?_, ?_⟩
      · rw [htable, Function.update_of_ne hfd.symm]
        exact h.table
      · rw [h.plants.iolDelInternalEvent_eq hr]
        split
        next => exact h.content
        next => exact h.content

/-- The end of a clean-up frees records of another registration. -/
theorem cleanReturn (h : s.Owns R fd r desc) {ev : ℕ} {cleans : List ℕ}
    (hcleans : s.cleans = ev :: cleans) :
    ({ s with cleans := cleans }.iolCleanReturn ev).Owns R.release fd r desc := by
  refine ⟨h.plants.release hcleans, h.table, ?_⟩
  rcases h.plants with ⟨epoll, hR⟩
  rcases hR.head_leaving hcleans with ⟨r', hmem, rfl, hdata⟩
  have hdata' : dataOf { s with cleans := cleans } r'.ev = some r'.desc := hdata
  unfold iolCleanReturn freeData
  rw [hdata']
  show (s.descs.free r'.desc).cell r.desc = some desc
  rw [Arena.free_cell_of_ne (R.across h.table hmem).2]
  exact h.content

end Owns

/-! ## Runs -/

/-- The steps of an application that adds, removes and closes, and of the clean-ups it starts. -/
def AddDelClose : IolOp → Prop
  | .addEvent _ _ => True
  | .delEvent _ => True
  | .close _ => True
  | .cleanReturn => True
  | _ => False

theorem Plants.step_addDelClose {op : IolOp} (hR : s.Plants R) (hop : AddDelClose op)
    (hstep : s.step op = some t) : ∃ R', t.Plants R' := by
  have hcases := step_cases hstep
  cases op with
  | addEvent ref fault =>
      rw [hcases.2]
      rcases hR.addEvent ref fault with ⟨R', hR', -⟩
      exact ⟨R', hR'⟩
  | delEvent fd =>
      rw [hcases.2]
      cases hr : R.table fd with
      | none =>
          rw [hR.iolDelEvent_absent hr]
          exact ⟨R, hR⟩
      | some r =>
          rw [hR.iolDelEvent_present hr]
          rcases hR.iolDelInternalEvent hr with ⟨R', hR', -⟩
          exact ⟨R', hR'⟩
  | close fd =>
      rw [hcases.2]
      exact ⟨R, hR.setEpoll _⟩
  | cleanReturn =>
      rcases hcases with ⟨ev, cleans, hcleans, rfl⟩
      exact ⟨_, hR.release hcleans⟩
  | _ => cases hop

theorem run_plants (hrun : Guarded step (fun _ op ↦ AddDelClose op) init s) :
    ∃ R, s.Plants R := by
  apply hrun.invariant (I := fun s ↦ ∃ R, s.Plants R) ⟨_, init_represents.plants⟩
  intro s op t hinv hop hstep
  obtain ⟨R, hR⟩ := hinv
  exact hR.step_addDelClose hop hstep

/-- Until `iol_del_event` is called for it, a registration in the tree stays there. -/
theorem Owns.run {desc : IoloopEventDesc} (h : s.Owns R fd r desc)
    (hrun : Guarded step (fun _ op ↦ AddDelClose op ∧ op ≠ .delEvent fd) s u) :
    ∃ R', u.Owns R' fd r desc := by
  apply hrun.invariant (I := fun u ↦ ∃ R', u.Owns R' fd r desc) ⟨R, h⟩
  intro s op t hinv hallowed hstep
  obtain ⟨R, h⟩ := hinv
  obtain ⟨hop, hdel⟩ := hallowed
  have hcases := step_cases hstep
  cases op with
  | addEvent ref fault =>
      rw [hcases.2]
      exact h.addEvent ref fault
  | delEvent fd' =>
      rw [hcases.2]
      exact h.delEvent fun heq ↦ hdel (heq ▸ rfl)
  | close fd' =>
      rw [hcases.2]
      exact ⟨R, h.plants.setEpoll _, h.table, h.content⟩
  | cleanReturn =>
      rcases hcases with ⟨ev, cleans, hcleans, rfl⟩
      exact ⟨_, h.cleanReturn hcleans⟩
  | _ => cases hop

/-- `iol_del_event` runs the `iol_clean` of the descriptor `copy` of `ref`, if there is one, and no
other, and takes the file descriptor out of both registries. -/
structure RemovesCopy (u : IolState) (ref : IoloopEventDesc) (copy : ℕ) : Prop where
  ret : (u.iolDelEvent ref.iolFd).2 = 0
  cleans : u.cleanCalls (u.iolDelEvent ref.iolFd).1 = if ref.iolClean.isSome then [copy] else []
  tree : ∀ node ∈ (u.iolDelEvent ref.iolFd).1.root,
    (u.iolDelEvent ref.iolFd).1.fdOf node ≠ some ref.iolFd
  epoll : (u.iolDelEvent ref.iolFd).1.epoll ref.iolFd = none

theorem Owns.removesCopy {desc ref : IoloopEventDesc} {copy : ℕ}
    (h : s.Owns R ref.iolFd r desc)
    (hclean : (if desc.iolClean.isSome then [r.desc] else []) =
      if ref.iolClean.isSome then [copy] else []) : s.RemovesCopy ref copy where
  ret := by rw [h.plants.iolDelEvent_present h.table]
  cleans := h.cleanCalls_eq.trans hclean
  tree := h.iolDelEvent_gone.1
  epoll := h.iolDelEvent_gone.2

/-- Two records have the same clean-ups only when neither has any. -/
theorem cleanRecords_eq_iff {old new : ℕ} (hne : old ≠ new) {cleanOld cleanNew : Option ℕ} :
    (if cleanOld.isSome then [old] else []) = (if cleanNew.isSome then [new] else []) ↔
      cleanNew = none ∧ cleanOld = none := by
  cases cleanOld <;> cases cleanNew <;> simp [hne]

/-- Whatever the application closes, a registration that `iol_add_event` reports is the one that the
next `iol_del_event` removes exactly when the tree did not hold the file descriptor before, or when
neither the descriptor it held nor the new one has an `iol_clean`. -/
theorem addEvent_run_removes_iff {ref : IoloopEventDesc} {fault : Option AddFault}
    (hrun : Guarded step (fun _ op ↦ AddDelClose op) init s)
    (hadd : (s.iolAddEvent (some ref) fault).2 = 0) :
    ∃ copy, (s.iolAddEvent (some ref) fault).1.epollSet ref.iolFd = some copy ∧
      (s.iolAddEvent (some ref) fault).1.descs.cell copy = some ref ∧
      ((∀ u, Guarded step (fun _ op ↦ AddDelClose op ∧ op ≠ .delEvent ref.iolFd)
          (s.iolAddEvent (some ref) fault).1 u → u.RemovesCopy ref copy) ↔
        s.tfind ref.iolFd = none ∨
          (ref.iolClean = none ∧ ∀ node, s.tfind ref.iolFd = some node →
            (s.descOf node).bind IoloopEventDesc.iolClean = none)) := by
  rcases run_plants hrun with ⟨R, hR⟩
  rcases iolAddEvent_cases hR.keyed (some ref) fault with
    ⟨hret, -⟩ | ⟨desc, hdesc, -, -, -, heq⟩
  · rw [hret] at hadd
    cases hadd
  cases hdesc
  rw [heq]
  refine ⟨s.descs.brk, ?_, Arena.alloc_cell_brk, ?_⟩
  · unfold epollSet
    dsimp only
    rw [Function.update_self]
    rfl
  rw [hR.tfind_eq]
  cases hr : R.table ref.iolFd with
  | none =>
      -- the new event is in the tree
      rcases Owns.register hR hr (Function.update s.epoll ref.iolFd
        (some ⟨ref.iolEv, some s.descs.brk⟩)) with ⟨R', hnew⟩
      refine iff_of_true (fun u hu ↦ ?_) (Or.inl rfl)
      rcases hnew.run hu with ⟨R'', h⟩
      exact h.removesCopy rfl
  | some r =>
      -- the tree has the node of an earlier registration
      rcases Owns.of_table hR hr with ⟨old, howns⟩
      have hkeep := howns.allocated ref (Function.update s.epoll ref.iolFd
        (some ⟨ref.iolEv, some s.descs.brk⟩))
      rw [Option.map_some, Option.isSome_some, if_pos rfl]
      have hclean : (∀ node, some r.ev = some node →
          (s.descOf node).bind IoloopEventDesc.iolClean = none) ↔ old.iolClean = none := by
        rw [← howns.iolClean_eq]
        exact ⟨fun h ↦ h _ rfl, fun h node hnode ↦ Option.some.inj hnode ▸ h⟩
      have hne : r.desc ≠ s.descs.brk := fun h ↦ howns.apart_new.2 h.symm
      -- the `iol_clean` that runs is that of the old record
      rw [hclean, or_iff_right (Option.some_ne_none r.ev), ← cleanRecords_eq_iff hne]
      constructor
      · intro hall
        exact hkeep.cleanCalls_eq.symm.trans (hall _ .refl).cleans
      · intro hcleans u hu
        rcases hkeep.run hu with ⟨R', h⟩
        exact h.removesCopy hcleans

/-- File descriptor 3 is closed and its registration removed, then 3 is registered again; later 4 is
registered too. -/
theorem addEvent_run_removes_iff_reused :
    ∃ s u : IolState, Guarded step (fun _ op ↦ AddDelClose op) init s ∧
      Guarded step (fun _ op ↦ AddDelClose op ∧ op ≠ .delEvent 3)
        (s.iolAddEvent (some (cleaned 3 1)) none).1 u ∧
      u.root = [2, 1] ∧ u.RemovesCopy (cleaned 3 1) 1 := by
  let s₁ := (init.iolAddEvent (some (cleaned 3 0)) none).1
  let s₂ := s₁.epollCtlDel 3
  let s₃ := (s₂.iolDelEvent 3).1
  let s₄ := { s₃ with cleans := [] }.iolCleanReturn 0
  let s₅ := (s₄.iolAddEvent (some (cleaned 3 1)) none).1
  let s₆ := (s₅.iolAddEvent (some (cleaned 4 2)) none).1
  have hrun : Guarded step (fun _ op ↦ AddDelClose op) init s₄ := by
    refine Guarded.next .cleanReturn (t := s₃) ?_ trivial rfl
    refine Guarded.next (.delEvent 3) (t := s₂) ?_ trivial rfl
    refine Guarded.next (.close 3) (t := s₁) ?_ trivial rfl
    exact Guarded.next (.addEvent (some (cleaned 3 0)) none) .refl trivial rfl
  have hlater : Guarded step (fun _ op ↦ AddDelClose op ∧ op ≠ .delEvent 3) s₅ s₆ :=
    Guarded.next (.addEvent (some (cleaned 4 2)) none) .refl ⟨trivial, fun h ↦ by cases h⟩ rfl
  have hadd : (s₄.iolAddEvent (some (cleaned 3 1)) none).2 = 0 := rfl
  rcases addEvent_run_removes_iff hrun hadd with ⟨copy, hset, -, hiff⟩
  have hcopy : copy = 1 := (Option.some.inj hset).symm
  have hremoves : s₆.RemovesCopy (cleaned 3 1) copy := hiff.mpr (Or.inl rfl) s₆ hlater
  rw [hcopy] at hremoves
  exact ⟨s₄, s₆, hrun, hlater, rfl, hremoves⟩

/-- File descriptor 3 is registered, closed and registered again: the second registration is
reported, but the tree still has the first, whose clean-up is the one that runs. -/
theorem addEvent_run_not_removes :
    ¬ ∀ (s : IolState) (ref : IoloopEventDesc) (fault : Option AddFault),
      Guarded step (fun _ op ↦ AddDelClose op) init s →
      (s.iolAddEvent (some ref) fault).2 = 0 →
      ∃ copy, (s.iolAddEvent (some ref) fault).1.epollSet ref.iolFd = some copy ∧
        ∀ u, Guarded step (fun _ op ↦ AddDelClose op ∧ op ≠ .delEvent ref.iolFd)
          (s.iolAddEvent (some ref) fault).1 u → u.RemovesCopy ref copy := by
  intro hclaim
  let s₁ := (init.iolAddEvent (some (cleaned 3 0)) none).1
  let s₂ := s₁.epollCtlDel 3
  have hrun : Guarded step (fun _ op ↦ AddDelClose op) init s₂ :=
    (Guarded.refl.next (.addEvent (some (cleaned 3 0)) none) trivial rfl).next (.close 3) trivial
      rfl
  rcases hclaim s₂ (cleaned 3 1) none hrun rfl with ⟨copy, hset, hall⟩
  -- the new copy is at address 1, and the clean-up of the copy at address 0 runs
  have hcopy : copy = 1 := (Option.some.inj hset).symm
  have hcleans : [0] = [copy] := (hall _ .refl).cleans
  rw [hcopy] at hcleans
  cases hcleans

end IolState

end Divers.IoLoop
