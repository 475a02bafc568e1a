import Divers.IoLoop.Model
import Mathlib.Data.List.Find

/-! The purpose of the event registry: a table from file descriptors to registrations, which the
search tree and the interest list both hold, and the registrations whose clean-up is running. -/

open Divers.Library

namespace Divers.IoLoop

/-! ## The abstract registry -/

/-- The two heap records of one successful `iol_add_event`. -/
structure Registration where
  ev : ℕ
  desc : ℕ
  deriving DecidableEq

def Registration.Apart (r r' : Registration) : Prop := r.ev ≠ r'.ev ∧ r.desc ≠ r'.desc

theorem Registration.Apart.symm {r r' : Registration} (h : r.Apart r') : r'.Apart r :=
  ⟨h.1.symm, h.2.symm⟩

/-- No two registrations share a record. -/
structure Registry where
  table : ℤ → Option Registration
  leaving : List Registration
  table_apart : ∀ {fd fd' r r'}, table fd = some r → table fd' = some r' → fd ≠ fd' → r.Apart r'
  leaving_apart : leaving.Pairwise Registration.Apart
  across : ∀ {fd r r'}, table fd = some r → r' ∈ leaving → r.Apart r'

namespace Registry

def empty : Registry where
  table := fun _ ↦ none
  leaving := []
  table_apart h := by cases h
  leaving_apart := List.Pairwise.nil
  across h := by cases h

variable (R : Registry) (fd : ℤ) (r : Registration)

theorem ne_of_absent {R : Registry} {fd fd' : ℤ} {r : Registration} (habsent : R.table fd = none)
    (hr : R.table fd' = some r) : fd' ≠ fd := by
  intro heq
  subst heq
  rw [habsent] at hr
  cases hr

theorem table_of_update {fd' : ℤ} {r' : Registration}
    (h : Function.update R.table fd none fd' = some r') : R.table fd' = some r' ∧ fd' ≠ fd := by
  by_cases hfd : fd' = fd
  · rw [hfd, Function.update_self] at h
    cases h
  · rw [Function.update_of_ne hfd] at h
    exact ⟨h, hfd⟩

def register (hnew : ∀ {fd' r'}, R.table fd' = some r' → r.Apart r')
    (hleaving : ∀ r' ∈ R.leaving, r.Apart r') : Registry where
  table := Function.update R.table fd (some r)
  leaving := R.leaving
  table_apart {fd₁ fd₂ r₁ r₂} h₁ h₂ hne := by
    by_cases hfd₁ : fd₁ = fd <;> by_cases hfd₂ : fd₂ = fd
    · exact absurd (hfd₁.trans hfd₂.symm) hne
    · rw [hfd₁, Function.update_self] at h₁
      rw [Function.update_of_ne hfd₂] at h₂
      cases h₁
      exact hnew h₂
    · rw [Function.update_of_ne hfd₁] at h₁
      rw [hfd₂, Function.update_self] at h₂
      cases h₂
      exact (hnew h₁).symm
    · rw [Function.update_of_ne hfd₁] at h₁
      rw [Function.update_of_ne hfd₂] at h₂
      exact R.table_apart h₁ h₂ hne
  leaving_apart := R.leaving_apart
  across {fd₁ r₁ r₂} h₁ h₂ := by
    by_cases hfd₁ : fd₁ = fd
    · rw [hfd₁, Function.update_self] at h₁
      cases h₁
      exact hleaving r₂ h₂
    · rw [Function.update_of_ne hfd₁] at h₁
      exact R.across h₁ h₂

/-- Removal of a registration without clean-up. -/
def withdraw : Registry where
  table := Function.update R.table fd none
  leaving := R.leaving
  table_apart h₁ h₂ hne :=
    R.table_apart (R.table_of_update fd h₁).1 (R.table_of_update fd h₂).1 hne
  leaving_apart := R.leaving_apart
  across h₁ h₂ := R.across (R.table_of_update fd h₁).1 h₂

/-- Removal of a registration up to its clean-up. -/
def retire (hr : R.table fd = some r) : Registry where
  table := Function.update R.table fd none
  leaving := r :: R.leaving
  table_apart h₁ h₂ hne :=
    R.table_apart (R.table_of_update fd h₁).1 (R.table_of_update fd h₂).1 hne
  leaving_apart := List.pairwise_cons.mpr ⟨fun _ h ↦ R.across hr h, R.leaving_apart⟩
  across {fd' r₁ r₂} h₁ h₂ := by
    rcases R.table_of_update fd h₁ with ⟨h₁, hfd⟩
    rcases List.mem_cons.mp h₂ with rfl | h₂
    · exact R.table_apart h₁ hr hfd
    · exact R.across h₁ h₂

/-- The end of the innermost clean-up. -/
def release : Registry where
  table := R.table
  leaving := R.leaving.tail
  table_apart := R.table_apart
  leaving_apart := R.leaving_apart.tail
  across h₁ h₂ := R.across h₁ (List.mem_of_mem_tail h₂)

end Registry

/-! ## What the state holds of it -/

namespace IolState

/-- The two records of `r`, which is a registration of `fd`. -/
def Holds (s : IolState) (fd : ℤ) (r : Registration) (event : EpollEvent) : Prop :=
  s.evs.cell r.ev = some event ∧ event.data = some r.desc ∧
    (s.descs.cell r.desc).map IoloopEventDesc.iolFd = some fd

structure Represents (s : IolState) (R : Registry) : Prop where
  root_nodup : s.root.Nodup
  mem_root : ∀ {ev}, ev ∈ s.root ↔ ∃ fd r, R.table fd = some r ∧ r.ev = ev
  live : ∀ {fd r}, R.table fd = some r → ∃ event, s.Holds fd r event ∧ s.epoll fd = some event
  absent : ∀ {fd}, R.table fd = none → s.epoll fd = none
  cleans : s.cleans = R.leaving.map Registration.ev
  leaving : ∀ r ∈ R.leaving, ∃ fd event, s.Holds fd r event

variable {s s' : IolState} {R : Registry} {fd fd' : ℤ} {r : Registration} {event : EpollEvent}

theorem init_represents : init.Represents Registry.empty where
  root_nodup := List.nodup_nil
  mem_root := by simp [init, Registry.empty]
  live h := by cases h
  absent _ := rfl
  cleans := rfl
  leaving _ h := absurd h List.not_mem_nil

namespace Holds

theorem dataOf_eq (h : s.Holds fd r event) : s.dataOf r.ev = some r.desc := by
  unfold dataOf
  rw [h.1]
  exact h.2.1

theorem fdOf_eq (h : s.Holds fd r event) : s.fdOf r.ev = some fd := by
  unfold fdOf descOf
  rw [h.dataOf_eq]
  exact h.2.2

end Holds

namespace Represents

theorem holds (hR : s.Represents R) (hr : R.table fd = some r) : ∃ event, s.Holds fd r event :=
  (hR.live hr).imp fun _ h ↦ h.1

theorem fdOf_eq_iff (hR : s.Represents R) {ev : ℕ} (hev : ev ∈ s.root) :
    s.fdOf ev = some fd ↔ ∃ r, R.table fd = some r ∧ r.ev = ev := by
  constructor
  · intro hfd
    rcases hR.mem_root.mp hev with ⟨fd', r, hr, rfl⟩
    rcases hR.holds hr with ⟨event, hholds⟩
    rw [hholds.fdOf_eq] at hfd
    cases hfd
    exact ⟨r, hr, rfl⟩
  · intro hexists
    obtain ⟨r, hr, rfl⟩ := hexists
    rcases hR.holds hr with ⟨event, hholds⟩
    exact hholds.fdOf_eq

/-- The tree finds the registration of the table. -/
theorem tfind_eq (hR : s.Represents R) : s.tfind fd = (R.table fd).map Registration.ev := by
  unfold tfind
  cases hr : R.table fd with
  | none =>
      rw [Option.map_none, List.find?_eq_none]
      intro ev hev hfd
      rw [decide_eq_true_eq, hR.fdOf_eq_iff hev] at hfd
      rcases hfd with ⟨r, hr', -⟩
      rw [hr] at hr'
      cases hr'
  | some r =>
      rw [Option.map_some]
      cases hfind : s.root.find? fun node ↦ s.fdOf node = some fd with
      | none =>
          -- the event of `r` would have been found
          have hroot : r.ev ∈ s.root := hR.mem_root.mpr ⟨fd, r, hr, rfl⟩
          have := List.find?_eq_none.mp hfind r.ev hroot
          rw [decide_eq_true_eq, hR.fdOf_eq_iff hroot] at this
          exact absurd ⟨r, hr, rfl⟩ this
      | some ev =>
          have hroot := List.mem_of_find?_eq_some hfind
          have hfd := List.find?_some hfind
          rw [decide_eq_true_eq, hR.fdOf_eq_iff hroot] at hfd
          rcases hfd with ⟨r', hr', rfl⟩
          rw [hr] at hr'
          cases hr'
          rfl

end Represents

/-! ## Changes that the registry does not see -/

/-- New records, and stores that leave `iol_fd` alone. -/
structure Extends (s s' : IolState) : Prop where
  root : s'.root = s.root
  epoll : s'.epoll = s.epoll
  cleans : s'.cleans = s.cleans
  evs : ∀ {a event}, s.evs.cell a = some event → s'.evs.cell a = some event
  descs : ∀ {a fd}, (s.descs.cell a).map IoloopEventDesc.iolFd = some fd →
    (s'.descs.cell a).map IoloopEventDesc.iolFd = some fd

theorem Holds.extend (h : s.Holds fd r event) (hext : s.Extends s') : s'.Holds fd r event :=
  ⟨hext.evs h.1, h.2.1, hext.descs h.2.2⟩

theorem fdOf_extend {ev : ℕ} (hext : s.Extends s') (hfd : s.fdOf ev = some fd) :
    s'.fdOf ev = some fd := by
  rcases Option.map_eq_some_iff.mp hfd with ⟨desc, hdesc, rfl⟩
  rcases Option.bind_eq_some_iff.mp hdesc with ⟨data, hdata, hcell⟩
  rcases Option.bind_eq_some_iff.mp hdata with ⟨event, hevent, hptr⟩
  have hdata' : s'.dataOf ev = some data := by
    unfold dataOf
    rw [hext.evs hevent]
    exact hptr
  unfold fdOf descOf
  rw [hdata']
  apply hext.descs
  rw [hcell]
  rfl

theorem Represents.extend (hR : s.Represents R) (hext : s.Extends s') : s'.Represents R where
  root_nodup := by
    rw [hext.root]
    exact hR.root_nodup
  mem_root := by
    rw [hext.root]
    exact hR.mem_root
  live hr := by
    rw [hext.epoll]
    rcases hR.live hr with ⟨event, hholds, hepoll⟩
    exact ⟨event, hholds.extend hext, hepoll⟩
  absent hr := by
    rw [hext.epoll]
    exact hR.absent hr
  cleans := by
    rw [hext.cleans]
    exact hR.cleans
  leaving r hr := by
    rcases hR.leaving r hr with ⟨fd, event, hholds⟩
    exact ⟨fd, event, hholds.extend hext⟩

theorem Represents.setLoop (hR : s.Represents R) (loop : MainLoop) :
    Represents { s with loop := loop } R :=
  hR.extend ⟨rfl, rfl, rfl, id, id⟩

theorem extends_store {desc : ℕ} {content : IoloopEventDesc} {loop : MainLoop}
    (hfd : ∀ old, s.descs.cell desc = some old → content.iolFd = old.iolFd) :
    s.Extends { s with descs := s.descs.store desc content, loop := loop } where
  root := rfl
  epoll := rfl
  cleans := rfl
  evs h := h
  descs {a fd} h := by
    by_cases ha : a = desc
    · subst ha
      cases hold : s.descs.cell a with
      | none =>
          rw [hold] at h
          cases h
      | some old =>
          rw [hold] at h
          show Option.map _ ((s.descs.store a content).cell a) = some fd
          rw [Arena.store_cell_self hold, Option.map_some, hfd old hold]
          exact h
    · show Option.map _ ((s.descs.store desc content).cell a) = some fd
      rwa [Arena.store_cell_of_ne ha]

theorem extends_write {desc : ℕ} {content : IoloopEventDesc}
    (hfd : (s.descs.cell desc).map IoloopEventDesc.iolFd = some content.iolFd) :
    s.Extends { s with descs := s.descs.store desc content } := by
  apply extends_store
  intro old hold
  rw [hold] at hfd
  exact (Option.some.inj hfd).symm

/-- The key of a record that is not in the tree may change. -/
theorem Represents.write (hR : s.Represents R) {desc : ℕ} {content : IoloopEventDesc}
    (hlive : (s.descs.cell desc).isSome)
    (hkeep : s.Registered desc →
      (s.descs.cell desc).map IoloopEventDesc.iolFd = some content.iolFd) :
    Represents { s with descs := s.descs.store desc content } R := by
  by_cases hregistered : s.Registered desc
  · exact hR.extend (extends_write (hkeep hregistered))
  · have hother : ∀ {fd r event}, r.desc ≠ desc → s.Holds fd r event →
        Holds { s with descs := s.descs.store desc content } fd r event := by
      intro fd r event hne h
      refine ⟨h.1, h.2.1, ?_⟩
      show ((s.descs.store desc content).cell r.desc).map _ = some fd
      rw [Arena.store_cell_of_ne hne]
      exact h.2.2
    refine ⟨hR.root_nodup, hR.mem_root, fun {fd r} hr ↦ ?_, hR.absent, hR.cleans, fun r hr ↦ ?_⟩
    · obtain ⟨event, hholds, hepoll⟩ := hR.live hr
      refine ⟨event, hother (fun heq ↦ hregistered ?_) hholds, hepoll⟩
      exact ⟨r.ev, hR.mem_root.mpr ⟨fd, r, hr, rfl⟩, heq ▸ hholds.dataOf_eq⟩
    · obtain ⟨fd, event, hholds⟩ := hR.leaving r hr
      by_cases hne : r.desc = desc
      · obtain ⟨old, hold⟩ := Option.isSome_iff_exists.mp hlive
        refine ⟨content.iolFd, event, hholds.1, hholds.2.1, ?_⟩
        show ((s.descs.store desc content).cell r.desc).map _ = some content.iolFd
        rw [hne, Arena.store_cell_self hold, Option.map_some]
      · exact ⟨fd, event, hother hne hholds⟩

/-- Only `iol_rev` is written, and the tree compares `iol_fd`. -/
theorem extends_setRev {desc : ℕ} {junk : IoloopEventDesc} {rev : UInt32} {loop : MainLoop} :
    s.Extends { s with
      descs := s.descs.store desc { s.load desc junk with iolRev := rev }
      loop := loop } := by
  apply extends_store
  intro old hold
  unfold load
  rw [hold]
  rfl

theorem epollCtlDel_absent {fd : ℤ} (h : s.epoll fd = none) : s.epollCtlDel fd = s := by
  unfold epollCtlDel
  rw [← h, Function.update_eq_self]

/-! ## Removal -/

theorem eraseP_eq_erase {α : Type*} [DecidableEq α] {l : List α} {p : α → Bool} {a : α}
    (hp : ∀ x ∈ l, p x = true ↔ x = a) : l.eraseP p = l.erase a := by
  induction l with
  | nil => rfl
  | cons x l ih =>
      have hx := hp x List.mem_cons_self
      by_cases hxa : x = a
      · rw [List.eraseP_cons_of_pos (hx.mpr hxa), hxa, List.erase_cons_head]
      · rw [List.eraseP_cons_of_neg (fun h ↦ hxa (hx.mp h)),
          List.erase_cons_tail (by simpa using hxa), ih fun y hy ↦ hp y (List.mem_cons_of_mem x hy)]

theorem Holds.freeEv (h : s.Holds fd r event) {ev : ℕ} (hne : r.ev ≠ ev) :
    (s.freeEv ev).Holds fd r event := by
  refine ⟨?_, h.2⟩
  show (s.evs.free ev).cell r.ev = some event
  rw [Arena.free_cell_of_ne hne]
  exact h.1

namespace Represents

theorem tdelete_eq (hR : s.Represents R) (hr : R.table fd = some r) :
    s.tdelete r.ev = { s with root := s.root.erase r.ev } := by
  rcases hR.holds hr with ⟨event, hholds⟩
  unfold tdelete
  rw [eraseP_eq_erase]
  intro node hnode
  rw [decide_eq_true_eq, hholds.fdOf_eq, hR.fdOf_eq_iff hnode]
  constructor
  · intro hexists
    obtain ⟨r', hr', rfl⟩ := hexists
    rw [hr] at hr'
    cases hr'
    rfl
  · intro heq
    subst heq
    exact ⟨r, hr, rfl⟩

/-- What is left in the tree. -/
theorem mem_erase_root (hR : s.Represents R) (hr : R.table fd = some r) {ev : ℕ} :
    ev ∈ s.root.erase r.ev ↔
      ∃ fd' r', Function.update R.table fd none fd' = some r' ∧ r'.ev = ev := by
  rw [hR.root_nodup.mem_erase_iff, hR.mem_root]
  constructor
  · intro hboth
    obtain ⟨hne, fd', r', hr', rfl⟩ := hboth
    -- two events of one descriptor would be the same
    have hfd : fd' ≠ fd := by
      intro heq
      subst heq
      rw [hr] at hr'
      cases hr'
      exact hne rfl
    exact ⟨fd', r', by rwa [Function.update_of_ne hfd], rfl⟩
  · intro hexists
    obtain ⟨fd', r', hr', rfl⟩ := hexists
    rcases R.table_of_update fd hr' with ⟨hr', hfd⟩
    exact ⟨(R.table_apart hr' hr hfd).1, fd', r', hr', rfl⟩

theorem absent_update (hR : s.Represents R)
    (h : Function.update R.table fd none fd' = none) :
    Function.update s.epoll fd none fd' = none := by
  by_cases hfd : fd' = fd
  · rw [hfd, Function.update_self]
  · rw [Function.update_of_ne hfd] at h ⊢
    exact hR.absent h

/-- The other descriptors keep their registrations. -/
theorem live_update (hR : s.Represents R) {r' : Registration}
    (hr' : Function.update R.table fd none fd' = some r') :
    R.table fd' = some r' ∧ fd' ≠ fd ∧
      ∃ event, s.Holds fd' r' event ∧ Function.update s.epoll fd none fd' = some event := by
  rcases R.table_of_update fd hr' with ⟨hr', hfd⟩
  rw [Function.update_of_ne hfd]
  exact ⟨hr', hfd, hR.live hr'⟩

theorem iolDelEvent_absent (hR : s.Represents R) (hr : R.table fd = none) :
    s.iolDelEvent fd = (s, -1) := by
  unfold iolDelEvent
  rw [hR.tfind_eq, hr]
  rfl

theorem iolDelEvent_present (hR : s.Represents R) (hr : R.table fd = some r) :
    s.iolDelEvent fd = (s.iolDelInternalEvent fd r.ev, 0) := by
  unfold iolDelEvent
  rw [hR.tfind_eq, hr]
  rfl

/-- The two ends of a removal: the event is freed, or its clean-up starts. -/
theorem iolDelInternalEvent_eq (hR : s.Represents R) (hr : R.table fd = some r) :
    s.iolDelInternalEvent fd r.ev =
      if ((s.descOf r.ev).bind IoloopEventDesc.iolClean).isSome then
        { s with
          root := s.root.erase r.ev
          epoll := Function.update s.epoll fd none
          cleans := r.ev :: s.cleans }
      else
        { s with
          root := s.root.erase r.ev
          epoll := Function.update s.epoll fd none
          evs := s.evs.free r.ev } := by
  unfold iolDelInternalEvent
  rw [hR.tdelete_eq hr]
  rfl

theorem withdraw (hR : s.Represents R) (hr : R.table fd = some r) :
    IolState.Represents
      { s with
        root := s.root.erase r.ev
        epoll := Function.update s.epoll fd none
        evs := s.evs.free r.ev } (R.withdraw fd) where
  root_nodup := hR.root_nodup.erase r.ev
  mem_root := hR.mem_erase_root hr
  live hr' := by
    rcases hR.live_update hr' with ⟨hr', hfd, event, hholds, hepoll⟩
    exact ⟨event, hholds.freeEv (R.table_apart hr' hr hfd).1, hepoll⟩
  absent h := hR.absent_update h
  cleans := hR.cleans
  leaving r' hr' := by
    rcases hR.leaving r' hr' with ⟨fd', event, hholds⟩
    exact ⟨fd', event, hholds.freeEv (R.across hr hr').1.symm⟩

theorem retire (hR : s.Represents R) (hr : R.table fd = some r) :
    IolState.Represents
      { s with
        root := s.root.erase r.ev
        epoll := Function.update s.epoll fd none
        cleans := r.ev :: s.cleans } (R.retire fd r hr) where
  root_nodup := hR.root_nodup.erase r.ev
  mem_root := hR.mem_erase_root hr
  live hr' := by
    rcases hR.live_update hr' with ⟨-, -, event, hholds, hepoll⟩
    exact ⟨event, hholds, hepoll⟩
  absent h := hR.absent_update h
  cleans := congrArg (r.ev :: ·) hR.cleans
  leaving r' hr' := by
    rcases List.mem_cons.mp hr' with rfl | hr'
    · rcases hR.holds hr with ⟨event, hholds⟩
      exact ⟨fd, event, hholds⟩
    · exact hR.leaving r' hr'

/-- The innermost running clean-up is that of a registration that has left the table. -/
theorem head_leaving (hR : s.Represents R) {ev : ℕ} {cleans : List ℕ}
    (hcleans : s.cleans = ev :: cleans) :
    ∃ r ∈ R.leaving, r.ev = ev ∧ s.dataOf ev = some r.desc := by
  have hmap := hR.cleans
  rw [hcleans] at hmap
  have hev : ev ∈ R.leaving.map Registration.ev := hmap ▸ List.mem_cons_self
  rcases List.mem_map.mp hev with ⟨r, hr, rfl⟩
  rcases hR.leaving r hr with ⟨fd, event, hholds⟩
  exact ⟨r, hr, rfl, hholds.dataOf_eq⟩

/-- The end of a clean-up frees the two records of the innermost removal. -/
theorem iolCleanReturn_eq (hR : s.Represents R) {ev : ℕ} {cleans : List ℕ}
    (hcleans : s.cleans = ev :: cleans) :
    ∃ r leaving, R.leaving = r :: leaving ∧ r.ev = ev ∧
      cleans = leaving.map Registration.ev ∧
      { s with cleans := cleans }.iolCleanReturn ev =
        { s with
          cleans := cleans
          descs := s.descs.free r.desc
          evs := s.evs.free r.ev } := by
  have hmap := hR.cleans
  rw [hcleans] at hmap
  rcases hleaving : R.leaving with - | ⟨r, leaving⟩
  · rw [hleaving] at hmap
    cases hmap
  · rw [hleaving, List.map_cons, List.cons.injEq] at hmap
    rcases hmap with ⟨rfl, hrest⟩
    rcases hR.leaving r (by simp [hleaving]) with ⟨fd, event, hholds⟩
    refine ⟨r, leaving, rfl, rfl, hrest, ?_⟩
    -- `ev->data.ptr` is still set when the clean-up returns
    have hdata : { s with cleans := cleans }.dataOf r.ev = some r.desc := hholds.dataOf_eq
    unfold iolCleanReturn freeData
    rw [hdata]
    rfl

theorem release (hR : s.Represents R) {ev : ℕ} {cleans : List ℕ}
    (hcleans : s.cleans = ev :: cleans) :
    ({ s with cleans := cleans }.iolCleanReturn ev).Represents R.release := by
  rcases hR.iolCleanReturn_eq hcleans with ⟨r, leaving, hleaving, -, hrest, heq⟩
  have hmem : r ∈ R.leaving := by simp [hleaving]
  have hapart := R.leaving_apart
  rw [hleaving, List.pairwise_cons] at hapart
  rw [heq]
  -- a registration apart from `r` keeps its records
  have hkeep : ∀ {fd' r' event'}, s.Holds fd' r' event' → r'.Apart r →
      Holds { s with
        cleans := cleans
        descs := s.descs.free r.desc
        evs := s.evs.free r.ev } fd' r' event' := by
    intro fd' r' event' h hne
    refine ⟨?_, h.2.1, ?_⟩
    · show (s.evs.free r.ev).cell r'.ev = some event'
      rw [Arena.free_cell_of_ne hne.1]
      exact h.1
    · show Option.map _ ((s.descs.free r.desc).cell r'.desc) = some fd'
      rw [Arena.free_cell_of_ne hne.2]
      exact h.2.2
  have htail : R.release.leaving = leaving := by
    show R.leaving.tail = leaving
    rw [hleaving, List.tail_cons]
  refine ⟨hR.root_nodup, hR.mem_root, fun {fd' r'} hr' ↦ ?_, hR.absent, ?_, fun r' hr' ↦ ?_⟩
  · rcases hR.live hr' with ⟨event', hholds', hepoll⟩
    exact ⟨event', hkeep hholds' (R.across hr' hmem), hepoll⟩
  · rw [htail]
    exact hrest
  · rw [htail] at hr'
    rcases hR.leaving r' (by simp [hleaving, hr']) with ⟨fd', event', hholds'⟩
    exact ⟨fd', event', hkeep hholds' (hapart.1 r' hr').symm⟩

end Represents

/-! ## Registration -/

/-- The addresses that `iol_add_event` allocates. -/
def newRegistration (s : IolState) : Registration := ⟨s.evs.brk, s.descs.brk⟩

theorem Holds.apart_new (h : s.Holds fd r event) : s.newRegistration.Apart r := by
  have hev := Arena.lt_brk h.1
  rcases Option.map_eq_some_iff.mp h.2.2 with ⟨desc, hdesc, -⟩
  have hlt := Arena.lt_brk hdesc
  constructor
  · show s.evs.brk ≠ r.ev
    omega
  · show s.descs.brk ≠ r.desc
    omega

/-- The records of `iol_add_event` once both allocations have succeeded. -/
def allocated (s : IolState) (ref : IoloopEventDesc) : IolState :=
  { s with
    evs := (s.evs.alloc ⟨0, none⟩).store s.evs.brk ⟨ref.iolEv, some s.descs.brk⟩
    descs := s.descs.alloc ref }

theorem allocated_evs_cell {ref : IoloopEventDesc} :
    (s.allocated ref).evs.cell s.evs.brk = some ⟨ref.iolEv, some s.descs.brk⟩ :=
  Arena.store_cell_self Arena.alloc_cell_brk

theorem extends_allocated (ref : IoloopEventDesc) : s.Extends (s.allocated ref) where
  root := rfl
  epoll := rfl
  cleans := rfl
  evs {a event} h := by
    have := Arena.lt_brk h
    show ((s.evs.alloc ⟨0, none⟩).store s.evs.brk ⟨ref.iolEv, some s.descs.brk⟩).cell a = some event
    rw [Arena.store_cell_of_ne (by omega)]
    exact Arena.alloc_cell h
  descs {a fd} h := by
    rcases Option.map_eq_some_iff.mp h with ⟨desc, hdesc, hfd⟩
    show ((s.descs.alloc ref).cell a).map IoloopEventDesc.iolFd = some fd
    rw [Arena.alloc_cell hdesc]
    exact congrArg some hfd

/-- The error path gives both records back. -/
theorem allocated_freed (ref : IoloopEventDesc) :
    (((s.allocated ref).freeData s.evs.brk).freeEv s.evs.brk) =
      { s.allocated ref with
        descs := (s.descs.alloc ref).free s.descs.brk
        evs := (s.allocated ref).evs.free s.evs.brk } := by
  have hdata : (s.allocated ref).dataOf s.evs.brk = some s.descs.brk := by
    unfold dataOf
    rw [allocated_evs_cell]
    rfl
  unfold freeData
  rw [hdata]
  rfl

theorem extends_freed (ref : IoloopEventDesc) :
    s.Extends (((s.allocated ref).freeData s.evs.brk).freeEv s.evs.brk) := by
  rw [allocated_freed]
  refine ⟨rfl, rfl, rfl, fun {a event} h ↦ ?_, fun {a fd} h ↦ ?_⟩
  · have := Arena.lt_brk h
    show ((s.allocated ref).evs.free s.evs.brk).cell a = some event
    rw [Arena.free_cell_of_ne (by omega)]
    exact (extends_allocated ref).evs h
  · show (((s.descs.alloc ref).free s.descs.brk).cell a).map IoloopEventDesc.iolFd = some fd
    rwa [Arena.free_alloc_cell]

theorem freed_descs_cell (ref : IoloopEventDesc) :
    (((s.allocated ref).freeData s.evs.brk).freeEv s.evs.brk).descs.cell = s.descs.cell := by
  rw [allocated_freed]
  exact Arena.free_alloc_cell

theorem freed_evs_cell (ref : IoloopEventDesc) :
    (((s.allocated ref).freeData s.evs.brk).freeEv s.evs.brk).evs.cell = s.evs.cell := by
  rw [allocated_freed]
  funext a
  show ((s.allocated ref).evs.free s.evs.brk).cell a = s.evs.cell a
  by_cases ha : a = s.evs.brk
  · rw [ha, Arena.free_cell_self, Arena.cell_brk]
  · rw [Arena.free_cell_of_ne ha]
    show ((s.evs.alloc ⟨0, none⟩).store s.evs.brk ⟨ref.iolEv, some s.descs.brk⟩).cell a = _
    rw [Arena.store_cell_of_ne ha]
    exact Function.update_of_ne ha ..

/-- Every node of the tree has a key. -/
def Keyed (s : IolState) : Prop := ∀ ev ∈ s.root, (s.fdOf ev).isSome

theorem Keyed.tfind_eq (hkeyed : s.Keyed) (hext : s.Extends s') (fd : ℤ) :
    s'.tfind fd = s.tfind fd := by
  unfold tfind
  rw [hext.root]
  -- the key of a node is still there, so it is still the same
  have hkey : ∀ ev ∈ s.root, s'.fdOf ev = s.fdOf ev := by
    intro ev hev
    rcases Option.isSome_iff_exists.mp (hkeyed ev hev) with ⟨fd', hfd⟩
    rw [hfd]
    exact fdOf_extend hext hfd
  apply List.find?_congr
  intro ev hev
  rw [hkey ev hev]

/-- `iol_add_event` returns -1, has freed what it allocated and changes neither registry, or it puts
its event into the interest list and, unless the tree already has a node for that descriptor, into
the tree. -/
theorem iolAddEvent_cases (hkeyed : s.Keyed) (ref : Option IoloopEventDesc)
    (fault : Option AddFault) :
    ((s.iolAddEvent ref fault).2 = -1 ∧ s.Extends (s.iolAddEvent ref fault).1 ∧
      (s.iolAddEvent ref fault).1.descs.cell = s.descs.cell ∧
      (s.iolAddEvent ref fault).1.evs.cell = s.evs.cell) ∨
    ∃ desc, ref = some desc ∧ 0 < desc.iolFd ∧ s.epoll desc.iolFd = none ∧
      (s.iolAddEvent ref fault).2 = 0 ∧
      (s.iolAddEvent ref fault).1 =
        { s.allocated desc with
          root := if (s.tfind desc.iolFd).isSome then s.root else s.evs.brk :: s.root
          epoll := Function.update s.epoll desc.iolFd (some ⟨desc.iolEv, some s.descs.brk⟩) } := by
  have hself : s.Extends s := ⟨rfl, rfl, rfl, id, id⟩
  cases ref with
  | none => exact Or.inl ⟨rfl, hself, rfl, rfl⟩
  | some desc =>
      unfold IolState.iolAddEvent
      dsimp only
      split
      next => exact Or.inl ⟨rfl, hself, rfl, rfl⟩
      next hfd =>
      split
      next => exact Or.inl ⟨rfl, hself, rfl, rfl⟩
      next =>
      split
      next =>
        -- only the event was allocated
        refine Or.inl ⟨rfl, ⟨rfl, rfl, rfl, fun {a event} h ↦ ?_, id⟩, rfl, Arena.free_alloc_cell⟩
        show ((s.evs.alloc ⟨0, none⟩).free s.evs.brk).cell a = some event
        rwa [Arena.free_alloc_cell]
      next =>
      split
      next =>
        exact Or.inl ⟨rfl, extends_freed desc, freed_descs_cell desc, freed_evs_cell desc⟩
      next hctl =>
        -- `epoll_ctl` refuses a descriptor that is in the interest list
        have habsent : s.epoll desc.iolFd = none := by
          cases hepoll : s.epoll desc.iolFd with
          | none => rfl
          | some event => exact absurd (Or.inr (by simp [hepoll])) hctl
        have hfind : tfind { s.allocated desc with
            epoll := Function.update s.epoll desc.iolFd (some ⟨desc.iolEv, some s.descs.brk⟩) }
            desc.iolFd = s.tfind desc.iolFd :=
          hkeyed.tfind_eq (extends_allocated desc) desc.iolFd
        simp only [allocated] at hfind
        rw [hfind]
        cases hnode : s.tfind desc.iolFd with
        | some node =>
            refine Or.inr ⟨desc, rfl, by omega, habsent, rfl, ?_⟩
            rw [hnode, Option.isSome_some, if_pos rfl]
            rfl
        | none =>
            dsimp only
            split
            next =>
              -- the descriptor leaves the interest list again
              have hundo : epollCtlDel { s.allocated desc with
                  epoll := Function.update s.epoll desc.iolFd
                    (some ⟨desc.iolEv, some s.descs.brk⟩) } desc.iolFd = s.allocated desc := by
                unfold epollCtlDel
                dsimp only
                rw [Function.update_idem, ← habsent, Function.update_eq_self]
                rfl
              simp only [allocated] at hundo
              rw [hundo]
              exact Or.inl ⟨rfl, extends_freed desc, freed_descs_cell desc, freed_evs_cell desc⟩
            next =>
              refine Or.inr ⟨desc, rfl, by omega, habsent, rfl, ?_⟩
              rw [hnode, Option.isSome_none, if_neg Bool.false_ne_true]
              rfl

theorem Represents.keyed (hR : s.Represents R) : s.Keyed := by
  intro ev hev
  rcases hR.mem_root.mp hev with ⟨fd, r, hr, rfl⟩
  rcases hR.holds hr with ⟨event, hholds⟩
  rw [hholds.fdOf_eq]
  rfl

/-- `iol_add_event` registers its descriptor, or returns -1, keeps no record and changes neither
registry. -/
theorem Represents.iolAddEvent (hR : s.Represents R) (ref : Option IoloopEventDesc)
    (fault : Option AddFault) :
    ((s.iolAddEvent ref fault).2 = -1 ∧ s.Extends (s.iolAddEvent ref fault).1 ∧
      (s.iolAddEvent ref fault).1.descs.cell = s.descs.cell ∧
      (s.iolAddEvent ref fault).1.evs.cell = s.evs.cell) ∨
    ∃ desc, ref = some desc ∧ 0 < desc.iolFd ∧ R.table desc.iolFd = none ∧
      (s.iolAddEvent ref fault).2 = 0 ∧
      (s.iolAddEvent ref fault).1 =
        { s.allocated desc with
          root := s.evs.brk :: s.root
          epoll := Function.update s.epoll desc.iolFd (some ⟨desc.iolEv, some s.descs.brk⟩) } := by
  rcases iolAddEvent_cases hR.keyed ref fault with
    hfailed | ⟨desc, hdesc, hpos, hepoll, hret, heq⟩
  · exact Or.inl hfailed
  · -- what is not in the interest list is not in the tree either
    have habsent : R.table desc.iolFd = none := by
      cases hr : R.table desc.iolFd with
      | none => rfl
      | some r =>
          rcases hR.live hr with ⟨event, -, hlive⟩
          rw [hepoll] at hlive
          cases hlive
    refine Or.inr ⟨desc, hdesc, hpos, habsent, hret, ?_⟩
    rw [heq, hR.tfind_eq, habsent]
    rfl

/-- A successful `iol_add_event` on the abstract registry. -/
theorem Represents.register (hR : s.Represents R) {desc : IoloopEventDesc}
    (habsent : R.table desc.iolFd = none) :
    Represents { s.allocated desc with
        root := s.evs.brk :: s.root
        epoll := Function.update s.epoll desc.iolFd (some ⟨desc.iolEv, some s.descs.brk⟩) }
      (R.register desc.iolFd s.newRegistration
        (fun hr ↦ (hR.holds hr).elim fun _ h ↦ h.apart_new)
        fun r hr ↦ (hR.leaving r hr).elim fun _ h ↦ h.elim fun _ h ↦ h.apart_new) := by
  -- the new records, and the old ones at their addresses
  have hnew : (s.allocated desc).Holds desc.iolFd s.newRegistration
      ⟨desc.iolEv, some s.descs.brk⟩ := by
    refine ⟨allocated_evs_cell, rfl, ?_⟩
    show ((s.descs.alloc desc).cell s.descs.brk).map IoloopEventDesc.iolFd = some desc.iolFd
    rw [Arena.alloc_cell_brk, Option.map_some]
  have hold : ∀ {fd r event}, s.Holds fd r event → (s.allocated desc).Holds fd r event :=
    fun h ↦ h.extend (extends_allocated desc)
  -- the new event is not in the tree yet
  have hfresh : s.evs.brk ∉ s.root := by
    intro hmem
    rcases hR.mem_root.mp hmem with ⟨fd, r, hr, hbrk⟩
    rcases hR.holds hr with ⟨event, hholds⟩
    exact hholds.apart_new.1 hbrk.symm
  refine ⟨List.nodup_cons.mpr ⟨hfresh, hR.root_nodup⟩, fun {ev} ↦ ?_, fun {fd r} hr ↦ ?_,
    fun {fd} hr ↦ ?_, hR.cleans, fun r hr ↦ ?_⟩
  · rw [List.mem_cons, hR.mem_root]
    constructor
    · intro heither
      obtain rfl | ⟨fd, r, hr, rfl⟩ := heither
      · exact ⟨desc.iolFd, s.newRegistration, Function.update_self .., rfl⟩
      · have hfd := Registry.ne_of_absent habsent hr
        exact ⟨fd, r, (Function.update_of_ne hfd ..).trans hr, rfl⟩
    · intro hexists
      obtain ⟨fd, r, hr, rfl⟩ := hexists
      by_cases hfd : fd = desc.iolFd
      · left
        rw [hfd] at hr
        simp only [Registry.register, Function.update_self] at hr
        cases hr
        rfl
      · simp only [Registry.register, Function.update_of_ne hfd] at hr
        exact Or.inr ⟨fd, r, hr, rfl⟩
  · dsimp only
    by_cases hfd : fd = desc.iolFd
    · subst hfd
      simp only [Registry.register, Function.update_self] at hr
      cases hr
      exact ⟨_, hnew, Function.update_self ..⟩
    · simp only [Registry.register, Function.update_of_ne hfd] at hr
      rcases hR.live hr with ⟨event, hholds, hepoll⟩
      exact ⟨event, hold hholds, (Function.update_of_ne hfd ..).trans hepoll⟩
  · have hfd : fd ≠ desc.iolFd := by
      intro heq
      subst heq
      simp only [Registry.register, Function.update_self] at hr
      cases hr
    simp only [Registry.register, Function.update_of_ne hfd] at hr
    exact (Function.update_of_ne hfd ..).trans (hR.absent hr)
  · rcases hR.leaving r hr with ⟨fd, event, hholds⟩
    exact ⟨fd, event, hold hholds⟩

end IolState

end Divers.IoLoop
