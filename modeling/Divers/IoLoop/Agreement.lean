import Divers.IoLoop.MainLoop

/-! The search tree and the interest list hold the same descriptor records, whatever call of
`iol_add_event` fails. -/

open Divers.Library

namespace Divers.IoLoop

namespace IolState

variable {s t : IolState} {R : Registry} {fd : ℤ} {r : Registration}

/-! ## The two registries as maps -/

/-- The descriptor record that the tree holds for a file descriptor. -/
def treeSet (s : IolState) (fd : ℤ) : Option ℕ := (s.tfind fd).bind s.dataOf

/-- The descriptor record that the kernel holds for a file descriptor. -/
def epollSet (s : IolState) (fd : ℤ) : Option ℕ := (s.epoll fd).bind EpollEvent.data

namespace Represents

theorem treeSet_eq (hR : s.Represents R) :
    s.treeSet = fun fd ↦ (R.table fd).map Registration.desc := by
  funext fd
  unfold treeSet
  rw [hR.tfind_eq]
  cases hr : R.table fd with
  | none => rfl
  | some r =>
      rcases hR.holds hr with ⟨event, hholds⟩
      exact hholds.dataOf_eq

theorem epollSet_eq (hR : s.Represents R) :
    s.epollSet = fun fd ↦ (R.table fd).map Registration.desc := by
  funext fd
  unfold epollSet
  cases hr : R.table fd with
  | none =>
      rw [hR.absent hr]
      rfl
  | some r =>
      rcases hR.live hr with ⟨event, hholds, hepoll⟩
      rw [hepoll]
      exact hholds.2.1

end Represents

/-- What one registration changes in either map. -/
theorem map_desc_update (table : ℤ → Option Registration) (fd : ℤ) (r : Option Registration) :
    (fun fd' ↦ (Function.update table fd r fd').map Registration.desc) =
      Function.update (fun fd' ↦ (table fd').map Registration.desc) fd
        (r.map Registration.desc) := by
  funext fd'
  by_cases hfd : fd' = fd
  · rw [hfd, Function.update_self, Function.update_self]
  · rw [Function.update_of_ne hfd, Function.update_of_ne hfd]

/-! ## Agreement -/

/-- The tree has one node for each file descriptor of the interest list and no other, with the
record that the kernel has. -/
structure Agrees (s : IolState) : Prop where
  fds : ∀ fd, (∃ ev ∈ s.root, s.fdOf ev = some fd) ↔ (s.epoll fd).isSome
  single : s.root.Nodup ∧ ∀ ev ∈ s.root, ∃ fd, s.fdOf ev = some fd ∧ s.tfind fd = some ev
  records : s.treeSet = s.epollSet

/-- `iol_add_event` returned -1 and left both registries as they were, or it returned 0 and added a
copy of its argument to both. -/
def Adds (s : IolState) (ref : Option IoloopEventDesc) (t : IolState) (ret : ℤ) : Prop :=
  (ret = -1 ∧ t.root = s.root ∧ t.treeSet = s.treeSet ∧ t.epoll = s.epoll) ∨
  (ret = 0 ∧ ∃ desc copy, ref = some desc ∧ t.descs.cell copy = some desc ∧
    s.treeSet desc.iolFd = none ∧ s.epollSet desc.iolFd = none ∧
    t.treeSet = Function.update s.treeSet desc.iolFd (some copy) ∧
    t.epollSet = Function.update s.epollSet desc.iolFd (some copy))

/-- `iol_del_event` returned -1 and changed nothing, or it returned 0 and took its file descriptor
out of both registries. -/
def Deletes (s : IolState) (fd : ℤ) (t : IolState) (ret : ℤ) : Prop :=
  (ret = -1 ∧ t = s ∧ s.treeSet fd = none ∧ s.epollSet fd = none) ∨
  (ret = 0 ∧ s.treeSet fd ≠ none ∧ s.epollSet fd ≠ none ∧
    t.treeSet = Function.update s.treeSet fd none ∧
    t.epollSet = Function.update s.epollSet fd none)

namespace Represents

theorem agrees (hR : s.Represents R) : s.Agrees where
  fds fd := by
    constructor
    · intro hexists
      obtain ⟨ev, hev, hfd⟩ := hexists
      rcases (hR.fdOf_eq_iff hev).mp hfd with ⟨r, hr, -⟩
      rcases hR.live hr with ⟨event, -, hepoll⟩
      rw [hepoll]
      rfl
    · intro hepoll
      cases hr : R.table fd with
      | none =>
          rw [hR.absent hr] at hepoll
          cases hepoll
      | some r =>
          have hroot : r.ev ∈ s.root := hR.mem_root.mpr ⟨fd, r, hr, rfl⟩
          exact ⟨r.ev, hroot, (hR.fdOf_eq_iff hroot).mpr ⟨r, hr, rfl⟩⟩
  single := by
    refine ⟨hR.root_nodup, fun ev hev ↦ ?_⟩
    rcases hR.mem_root.mp hev with ⟨fd, r, hr, rfl⟩
    refine ⟨fd, (hR.fdOf_eq_iff hev).mpr ⟨r, hr, rfl⟩, ?_⟩
    rw [hR.tfind_eq, hr]
    rfl
  records := hR.treeSet_eq.trans hR.epollSet_eq.symm

theorem adds (hR : s.Represents R) (ref : Option IoloopEventDesc) (fault : Option AddFault) :
    s.Adds ref (s.iolAddEvent ref fault).1 (s.iolAddEvent ref fault).2 := by
  rcases hR.iolAddEvent ref fault with ⟨hret, hext, -⟩ | ⟨desc, rfl, -, habsent, hret, heq⟩
  · have htree := (hR.extend hext).treeSet_eq.trans hR.treeSet_eq.symm
    exact Or.inl ⟨hret, hext.root, htree, hext.epoll⟩
  · have hnew := hR.register habsent
    rw [← heq] at hnew
    refine Or.inr ⟨hret, desc, s.descs.brk, rfl, ?_, ?_, ?_, ?_, ?_⟩
    · rw [heq]
      exact Arena.alloc_cell_brk
    · rw [hR.treeSet_eq]
      simp only [habsent, Option.map_none]
    · rw [hR.epollSet_eq]
      simp only [habsent, Option.map_none]
    · rw [hnew.treeSet_eq, hR.treeSet_eq]
      exact map_desc_update R.table desc.iolFd (some s.newRegistration)
    · rw [hnew.epollSet_eq, hR.epollSet_eq]
      exact map_desc_update R.table desc.iolFd (some s.newRegistration)

/-- What a removal leaves is represented by the rest of the table. -/
theorem iolDelInternalEvent (hR : s.Represents R) (hr : R.table fd = some r) :
    ∃ R', (s.iolDelInternalEvent fd r.ev).Represents R' ∧
      R'.table = Function.update R.table fd none := by
  rw [hR.iolDelInternalEvent_eq hr]
  split
  next => exact ⟨_, hR.retire hr, rfl⟩
  next => exact ⟨_, hR.withdraw hr, rfl⟩

theorem deletes (hR : s.Represents R) (fd : ℤ) :
    s.Deletes fd (s.iolDelEvent fd).1 (s.iolDelEvent fd).2 := by
  cases hr : R.table fd with
  | none =>
      rw [hR.iolDelEvent_absent hr]
      refine Or.inl ⟨rfl, rfl, ?_, ?_⟩
      · rw [hR.treeSet_eq]
        simp only [hr, Option.map_none]
      · rw [hR.epollSet_eq]
        simp only [hr, Option.map_none]
  | some r =>
      rw [hR.iolDelEvent_present hr]
      rcases hR.iolDelInternalEvent hr with ⟨R', hR', htable⟩
      refine Or.inr ⟨rfl, ?_, ?_, ?_, ?_⟩
      · rw [hR.treeSet_eq]
        simp [hr]
      · rw [hR.epollSet_eq]
        simp [hr]
      · rw [hR'.treeSet_eq, hR.treeSet_eq, htable]
        exact map_desc_update R.table fd none
      · rw [hR'.epollSet_eq, hR.epollSet_eq, htable]
        exact map_desc_update R.table fd none

/-! ## Runs -/

theorem delEvent (hR : s.Represents R) (fd : ℤ) : ∃ R', (s.iolDelEvent fd).1.Represents R' := by
  cases hr : R.table fd with
  | none =>
      rw [hR.iolDelEvent_absent hr]
      exact ⟨R, hR⟩
  | some r =>
      rw [hR.iolDelEvent_present hr]
      rcases hR.iolDelInternalEvent hr with ⟨R', hR', -⟩
      exact ⟨R', hR'⟩

theorem wait (hR : s.Represents R) {ready : List (ℤ × UInt32)}
    (hwait : s.iolMainLoopWait ready = some t) : t.Represents R := by
  unfold iolMainLoopWait at hwait
  rcases Option.map_eq_some_iff.mp hwait with ⟨vec, -, rfl⟩
  split
  next => exact hR
  next => exact hR.setLoop _

/-- An entry of the batch may refer to a freed descriptor; the store into it is lost. -/
theorem next (hR : s.Represents R) (junk : IoloopEventDesc) (vec : List EpollEvent) :
    (s.iolMainLoopNext junk vec).Represents R := by
  unfold iolMainLoopNext
  split
  next => exact hR.setLoop _
  next event vec =>
    split
    next => exact hR.setLoop _
    next curr hdata =>
      dsimp only
      split
      next => exact hR.extend extends_setRev
      next => exact hR.setLoop _

theorem step {op : IolOp} (hR : s.Represents R) (hrespects : s.Respects op)
    (hstep : s.step op = some t) : ∃ R', t.Represents R' := by
  have hcases := step_cases hstep
  cases op with
  | addEvent ref fault =>
      rw [hcases.2]
      rcases hR.iolAddEvent ref fault with ⟨-, hext, -⟩ | ⟨desc, -, -, habsent, -, heq⟩
      · exact ⟨R, hR.extend hext⟩
      · rw [heq]
        exact ⟨_, hR.register habsent⟩
  | delEvent fd =>
      rw [hcases.2]
      exact hR.delEvent fd
  | write desc content =>
      rcases hcases with ⟨⟨-, hlive⟩, rfl⟩
      exact ⟨R, hR.write hlive hrespects⟩
  | close fd =>
      rw [hcases.2, epollCtlDel_absent hrespects]
      exact ⟨R, hR⟩
  | wait ready => exact ⟨R, hR.wait hcases.2⟩
  | next junk =>
      rcases hcases with ⟨-, vec, -, rfl⟩
      exact ⟨R, hR.next junk vec⟩
  | funcReturn ret junk =>
      rcases hcases with ⟨-, curr, vec, -, rfl⟩
      unfold iolMainLoopReturn
      dsimp only
      split
      next => exact (hR.setLoop _).delEvent _
      next => exact ⟨R, hR.setLoop _⟩
  | cleanReturn =>
      rcases hcases with ⟨ev, cleans, hcleans, rfl⟩
      exact ⟨_, hR.release hcleans⟩

end Represents

theorem run_represents (hrun : Guarded IolState.step Respects init s) : ∃ R, s.Represents R := by
  apply hrun.invariant (I := fun s ↦ ∃ R, s.Represents R) ⟨_, init_represents⟩
  intro s op t hinv hrespects hstep
  obtain ⟨R, hR⟩ := hinv
  exact hR.step hrespects hstep

/-- In every run whose client code respects the registry the two of its parts agree, and each call
changes both by its own file descriptor or not at all.  The main loop makes its call of
`iol_del_event` when it has moved on to the next entry. -/
theorem registry_run_agrees (hrun : Guarded IolState.step Respects init s) :
    s.Agrees ∧
    (∀ ref fault, s.Adds ref (s.iolAddEvent ref fault).1 (s.iolAddEvent ref fault).2) ∧
    ∀ loop fd, { s with loop := loop }.Deletes fd ({ s with loop := loop }.iolDelEvent fd).1
      ({ s with loop := loop }.iolDelEvent fd).2 := by
  rcases run_represents hrun with ⟨R, hR⟩
  exact ⟨hR.agrees, hR.adds, fun loop fd ↦ (hR.setLoop loop).deletes fd⟩

/-- The registration of file descriptor 4 fails in `tsearch` before it succeeds, and 3 is registered
and removed. -/
theorem registry_run_agrees_removed : ∃ s : IolState, s.root = [2] ∧ s.cleans = [1] ∧ s.Agrees := by
  let s₁ := (init.iolAddEvent (some (watched 4)) (some .tsearch)).1
  let s₂ := (s₁.iolAddEvent (some (cleaned 3 0)) none).1
  let s₃ := (s₂.iolAddEvent (some (watched 4)) none).1
  let s₄ := (s₃.iolDelEvent 3).1
  have hrun : Guarded IolState.step Respects init s₄ := by
    refine Guarded.next (.delEvent 3) (t := s₃) ?_ trivial rfl
    refine Guarded.next (.addEvent (some (watched 4)) none) (t := s₂) ?_ trivial rfl
    refine Guarded.next (.addEvent (some (cleaned 3 0)) none) (t := s₁) ?_ trivial rfl
    exact Guarded.next (.addEvent (some (watched 4)) (some .tsearch)) .refl trivial rfl
  exact ⟨s₄, rfl, rfl, (registry_run_agrees hrun).1⟩

end IolState

end Divers.IoLoop
