import Divers.IoLoop.Registry

/-! Runs of the main loop: which descriptors it touches, and what its removals remove. -/

open Divers.Library

namespace Divers.IoLoop

namespace IolState

variable {s t : IolState} {R : Registry} {fd : ℤ} {r : Registration}

theorem Represents.registered_iff (hR : s.Represents R) {desc : ℕ} :
    s.Registered desc ↔ ∃ fd r, R.table fd = some r ∧ r.desc = desc := by
  constructor
  · intro hexists
    obtain ⟨ev, hev, hdata⟩ := hexists
    rcases hR.mem_root.mp hev with ⟨fd, r, hr, rfl⟩
    rcases hR.holds hr with ⟨event, hholds⟩
    rw [hholds.dataOf_eq] at hdata
    exact ⟨fd, r, hr, Option.some.inj hdata⟩
  · intro hexists
    obtain ⟨fd, r, hr, rfl⟩ := hexists
    rcases hR.holds hr with ⟨event, hholds⟩
    exact ⟨r.ev, hR.mem_root.mpr ⟨fd, r, hr, rfl⟩, hholds.dataOf_eq⟩

/-- The `data.ptr` of the entries that the loop has still to visit. -/
def pending (s : IolState) : List (Option ℕ) :=
  match s.loop with
  | .outside => []
  | .next vec => vec.map EpollEvent.data
  | .inFunc _ vec => vec.map EpollEvent.data

@[simp] theorem freeData_loop (s : IolState) (ev : ℕ) : (s.freeData ev).loop = s.loop := by
  unfold freeData
  split <;> rfl

theorem iolAddEvent_loop (s : IolState) (ref : Option IoloopEventDesc)
    (fault : Option AddFault) : (s.iolAddEvent ref fault).1.loop = s.loop := by
  cases ref with
  | none => rfl
  | some desc =>
      unfold iolAddEvent
      dsimp only
      -- every branch ends in updates of other fields
      repeat' split
      all_goals first | rfl | exact freeData_loop ..

/-! ## What the loop relies on -/

structure Tracks (s : IolState) (R : Registry) : Prop where
  represents : s.Represents R
  nodup : s.pending.Nodup
  registered : ∀ {desc}, some desc ∈ s.pending → ∃ fd r, R.table fd = some r ∧ r.desc = desc
  current : ∀ {curr vec}, s.loop = .inFunc curr vec → some curr ∉ s.pending

theorem init_tracks : init.Tracks Registry.empty :=
  ⟨init_represents, List.nodup_nil, fun h ↦ absurd h List.not_mem_nil, fun h ↦ by cases h⟩

namespace Tracks

/-- A step inside client code leaves the loop where it is. -/
theorem of_loop_eq {R' : Registry} (h : s.Tracks R) (hloop : t.loop = s.loop)
    (hR : t.Represents R')
    (hkeep : ∀ {fd r}, some r.desc ∈ s.pending → R.table fd = some r → R'.table fd = some r) :
    t.Tracks R' := by
  have hpending : t.pending = s.pending := by
    unfold pending
    rw [hloop]
  refine ⟨hR, hpending ▸ h.nodup, fun {desc} hdesc ↦ ?_, fun {curr vec} hcurr ↦ ?_⟩
  · rw [hpending] at hdesc
    rcases h.registered hdesc with ⟨fd, r, hr, rfl⟩
    exact ⟨fd, r, hkeep hdesc hr, rfl⟩
  · rw [hpending]
    exact h.current (hloop ▸ hcurr)

theorem extend (h : s.Tracks R) (hloop : t.loop = s.loop) (hext : s.Extends t) : t.Tracks R :=
  h.of_loop_eq hloop (h.represents.extend hext) fun _ hr ↦ hr

theorem addEvent (h : s.Tracks R) (ref : Option IoloopEventDesc) (fault : Option AddFault) :
    ∃ R', (s.iolAddEvent ref fault).1.Tracks R' := by
  rcases h.represents.iolAddEvent ref fault with ⟨-, hext, -⟩ | ⟨desc, -, -, habsent, -, heq⟩
  · exact ⟨R, h.extend (iolAddEvent_loop s ref fault) hext⟩
  · rw [heq]
    refine ⟨_, h.of_loop_eq rfl (h.represents.register habsent) fun {fd r} _ hr ↦ ?_⟩
    -- a registration that was there stays where it was
    have hfd := Registry.ne_of_absent habsent hr
    exact (Function.update_of_ne hfd ..).trans hr

/-- Removing a registration that no pending entry refers to. -/
theorem delInternalEvent (h : s.Tracks R) (hr : R.table fd = some r)
    (hspare : some r.desc ∉ s.pending) : ∃ R', (s.iolDelInternalEvent fd r.ev).Tracks R' := by
  have hkeep : ∀ {fd' r'}, some r'.desc ∈ s.pending → R.table fd' = some r' →
      Function.update R.table fd none fd' = some r' := by
    intro fd' r' hpending hr'
    -- no pending entry refers to the registration of `fd`
    have hfd : fd' ≠ fd := by
      intro heq
      subst heq
      rw [hr] at hr'
      cases hr'
      exact hspare hpending
    rwa [Function.update_of_ne hfd]
  rw [h.represents.iolDelInternalEvent_eq hr]
  split
  next => exact ⟨_, h.of_loop_eq rfl (h.represents.retire hr) hkeep⟩
  next => exact ⟨_, h.of_loop_eq rfl (h.represents.withdraw hr) hkeep⟩

theorem delEvent (h : s.Tracks R)
    (hspare : ∀ {r}, R.table fd = some r → some r.desc ∉ s.pending) :
    ∃ R', (s.iolDelEvent fd).1.Tracks R' := by
  cases hr : R.table fd with
  | none =>
      rw [h.represents.iolDelEvent_absent hr]
      exact ⟨R, h⟩
  | some r =>
      rw [h.represents.iolDelEvent_present hr]
      exact h.delInternalEvent hr (hspare hr)

/-- The entries `epoll_wait` reports refer to registrations of different file descriptors. -/
theorem ready_vec (hR : s.Represents R) {ready : List (ℤ × UInt32)} {vec : List EpollEvent}
    (hnodup : (ready.map Prod.fst).Nodup) (hready : ready.mapM s.ready = some vec) :
    (vec.map EpollEvent.data).Nodup ∧
    ∀ data ∈ vec.map EpollEvent.data,
      ∃ fd ∈ ready.map Prod.fst, ∃ r, R.table fd = some r ∧ data = some r.desc := by
  induction ready generalizing vec with
  | nil =>
      rw [List.mapM_nil] at hready
      cases hready
      exact ⟨List.nodup_nil, fun _ h ↦ absurd h List.not_mem_nil⟩
  | cons a ready ih =>
      rw [List.mapM_cons] at hready
      rcases Option.bind_eq_some_iff.mp hready with ⟨event, hevent, hready⟩
      rcases Option.bind_eq_some_iff.mp hready with ⟨vec, hvec, hready⟩
      cases hready
      rw [List.map_cons, List.nodup_cons] at hnodup
      rcases ih hnodup.2 hvec with ⟨hrest, hmem⟩
      -- the interest list holds what the table holds
      have hhead : ∃ r, R.table a.1 = some r ∧ event.data = some r.desc := by
        rcases Option.map_eq_some_iff.mp hevent with ⟨event', hepoll, rfl⟩
        cases hr : R.table a.1 with
        | none =>
            rw [hR.absent hr] at hepoll
            cases hepoll
        | some r =>
            rcases hR.live hr with ⟨event, hholds, hlive⟩
            rw [hlive] at hepoll
            cases hepoll
            exact ⟨r, rfl, hholds.2.1⟩
      rcases hhead with ⟨r, hr, hdata⟩
      constructor
      · rw [List.map_cons, List.nodup_cons]
        refine ⟨fun hin ↦ ?_, hrest⟩
        rcases hmem _ hin with ⟨fd, hfd, r', hr', hdata'⟩
        -- two entries with one descriptor would be for one file descriptor
        have hne : fd ≠ a.1 := by
          intro heq
          subst heq
          exact hnodup.1 hfd
        rw [hdata] at hdata'
        exact (R.table_apart hr' hr hne).2 (Option.some.inj hdata').symm
      · intro data hin
        rcases List.mem_cons.mp hin with rfl | hin
        · exact ⟨a.1, List.mem_cons_self, r, hr, hdata⟩
        · rcases hmem data hin with ⟨fd, hfd, hrest⟩
          exact ⟨fd, List.mem_cons_of_mem _ hfd, hrest⟩

theorem wait (h : s.Tracks R) {ready : List (ℤ × UInt32)} (hnodup : (ready.map Prod.fst).Nodup)
    (hwait : s.iolMainLoopWait ready = some t) : t.Tracks R := by
  unfold iolMainLoopWait at hwait
  rcases Option.map_eq_some_iff.mp hwait with ⟨vec, hvec, rfl⟩
  split
  next => exact h
  next =>
    rcases ready_vec h.represents hnodup hvec with ⟨hvecNodup, hmem⟩
    refine ⟨h.represents.setLoop _, hvecNodup, fun {desc} hdesc ↦ ?_,
      fun hcurr ↦ by cases hcurr⟩
    rcases hmem _ hdesc with ⟨fd, -, r, hr, hdata⟩
    exact ⟨fd, r, hr, (Option.some.inj hdata).symm⟩

/-- Dropping the first entry. -/
theorem next (h : s.Tracks R) {vec : List EpollEvent} (hloop : s.loop = .next vec)
    (junk : IoloopEventDesc) : (s.iolMainLoopNext junk vec).Tracks R := by
  have hpending : s.pending = vec.map EpollEvent.data := by
    unfold pending
    rw [hloop]
  have hnodup := h.nodup
  have hregistered : ∀ {desc}, some desc ∈ vec.map EpollEvent.data →
      ∃ fd r, R.table fd = some r ∧ r.desc = desc := fun hdesc ↦ h.registered (hpending ▸ hdesc)
  rw [hpending] at hnodup
  cases vec with
  | nil =>
      exact ⟨h.represents.setLoop _, List.nodup_nil,
        fun hdesc ↦ absurd hdesc List.not_mem_nil, fun hcurr ↦ by cases hcurr⟩
  | cons event vec =>
      rw [List.map_cons, List.nodup_cons] at hnodup
      -- the entry is passed over: no descriptor, or one without `iol_func`
      have hskip : { s with loop := .next vec }.Tracks R :=
        ⟨h.represents.setLoop _, hnodup.2,
          fun hdesc ↦ hregistered (List.mem_cons_of_mem _ hdesc), fun hcurr ↦ by cases hcurr⟩
      cases hdata : event.data with
      | none =>
          have heq : s.iolMainLoopNext junk (event :: vec) = { s with loop := .next vec } := by
            simp [iolMainLoopNext, hdata]
          rwa [heq]
      | some curr =>
          by_cases hfunc : (s.load curr junk).iolFunc.isSome = true
          · have heq : s.iolMainLoopNext junk (event :: vec) =
                { s with
                  descs := s.descs.store curr { s.load curr junk with iolRev := event.events }
                  loop := .inFunc curr vec } := by
              simp [iolMainLoopNext, hdata, hfunc]
            rw [heq]
            refine ⟨h.represents.extend extends_setRev, hnodup.2,
              fun hdesc ↦ hregistered (List.mem_cons_of_mem _ hdesc), fun {curr' vec'} hcurr ↦ ?_⟩
            cases hcurr
            rw [← hdata]
            exact hnodup.1
          · have heq : s.iolMainLoopNext junk (event :: vec) = { s with loop := .next vec } := by
              simp [iolMainLoopNext, hdata, hfunc]
            rwa [heq]

/-- What the loop removes after a callback whose registration is still there. -/
theorem iolMainLoopReturn_eq (hR : s.Represents R) {curr : ℕ} (vec : List EpollEvent) {ret : ℤ}
    (hret : ret ≤ 0) (junk : IoloopEventDesc) (hown : s.Registered curr) :
    ∃ fd r, R.table fd = some r ∧ r.desc = curr ∧
      s.iolMainLoopReturn ret junk curr vec =
        { s with loop := .next vec }.iolDelInternalEvent fd r.ev := by
  rcases hR.registered_iff.mp hown with ⟨fd, r, hr, rfl⟩
  rcases hR.holds hr with ⟨event, hholds⟩
  rcases Option.map_eq_some_iff.mp hholds.2.2 with ⟨desc, hdesc, rfl⟩
  refine ⟨desc.iolFd, r, hr, rfl, ?_⟩
  have hback : { s with loop := .next vec }.Represents R := hR.setLoop _
  -- the descriptor has not been freed, so its `iol_fd` is read
  have hload : { s with loop := .next vec }.load r.desc junk = desc := by
    unfold load
    dsimp only
    rw [hdesc]
    rfl
  unfold iolMainLoopReturn
  dsimp only
  rw [if_pos hret, hload, hback.iolDelEvent_present hr]

theorem funcReturn (h : s.Tracks R) {curr : ℕ} {vec : List EpollEvent}
    (hloop : s.loop = .inFunc curr vec) (ret : ℤ) (junk : IoloopEventDesc)
    (hown : ret ≤ 0 → s.Registered curr) :
    ∃ R', (s.iolMainLoopReturn ret junk curr vec).Tracks R' := by
  have hpending : s.pending = vec.map EpollEvent.data := by
    unfold pending
    rw [hloop]
  have hcurr := h.current hloop
  have hnodup := h.nodup
  have hregistered : ∀ desc, some desc ∈ s.pending → ∃ fd r, R.table fd = some r ∧ r.desc = desc :=
    fun _ ↦ h.registered
  rw [hpending] at hcurr hnodup
  simp only [hpending] at hregistered
  have hback : { s with loop := .next vec }.Tracks R :=
    ⟨h.represents.setLoop _, hnodup, fun hdesc ↦ hregistered _ hdesc,
      fun hcurr ↦ by cases hcurr⟩
  by_cases hret : ret ≤ 0
  · rcases iolMainLoopReturn_eq h.represents vec hret junk (hown hret) with ⟨fd, r, hr, rfl, heq⟩
    rw [heq]
    exact hback.delInternalEvent hr hcurr
  · unfold iolMainLoopReturn
    rw [if_neg hret]
    exact ⟨R, hback⟩

theorem cleanReturn (h : s.Tracks R) {ev : ℕ} {cleans : List ℕ}
    (hcleans : s.cleans = ev :: cleans) :
    ({ s with cleans := cleans }.iolCleanReturn ev).Tracks R.release := by
  refine h.of_loop_eq ?_ (h.represents.release hcleans) fun _ hr ↦ hr
  exact freeData_loop ..

end Tracks

/-! ## Runs -/

/-- The client code keeps clear of the batch: it removes no registration that a pending entry
refers to, and a callback that has removed its own returns a positive value.  It neither closes a
registered file descriptor nor stores another one into the record of a registration. -/
def Spares (s : IolState) : IolOp → Prop
  | .delEvent fd => ∀ ev ∈ s.root, s.fdOf ev = some fd → s.dataOf ev ∉ s.pending
  | .funcReturn ret _ => ret ≤ 0 → ∀ curr vec, s.loop = .inFunc curr vec → s.Registered curr
  | op => s.Respects op

theorem Tracks.step {op : IolOp} (h : s.Tracks R) (hspares : s.Spares op)
    (hstep : s.step op = some t) : ∃ R', t.Tracks R' := by
  have hcases := step_cases hstep
  cases op with
  | addEvent ref fault =>
      rw [hcases.2]
      exact h.addEvent ref fault
  | delEvent fd =>
      rw [hcases.2]
      apply h.delEvent
      intro r hr
      rcases h.represents.holds hr with ⟨event, hholds⟩
      rw [← hholds.dataOf_eq]
      exact hspares r.ev (h.represents.mem_root.mpr ⟨fd, r, hr, rfl⟩) hholds.fdOf_eq
  | write desc content =>
      rcases hcases with ⟨⟨-, hlive⟩, rfl⟩
      exact ⟨R, h.of_loop_eq rfl (h.represents.write hlive hspares) fun _ hr ↦ hr⟩
  | close fd =>
      rw [hcases.2, epollCtlDel_absent hspares]
      exact ⟨R, h⟩
  | wait ready => exact ⟨R, h.wait hcases.1.2.2.2 hcases.2⟩
  | next junk =>
      rcases hcases with ⟨-, vec, hloop, rfl⟩
      exact ⟨R, h.next hloop junk⟩
  | funcReturn ret junk =>
      rcases hcases with ⟨-, curr, vec, hloop, rfl⟩
      exact h.funcReturn hloop ret junk fun hret ↦ hspares hret curr vec hloop
  | cleanReturn =>
      rcases hcases with ⟨ev, cleans, hcleans, rfl⟩
      exact ⟨_, h.cleanReturn hcleans⟩

theorem run_tracks (hrun : Guarded step Spares init s) : ∃ R, s.Tracks R := by
  apply hrun.invariant (I := fun s ↦ ∃ R, s.Tracks R) ⟨_, init_tracks⟩
  intro s op t hinv hspares hstep
  obtain ⟨R, h⟩ := hinv
  exact h.step hspares hstep

/-- The main loop touches a descriptor in `next`, where it reads `iol_func`, writes `iol_rev` and
calls, and in `funcReturn`, where it reads `iol_fd` to remove the registration. -/
def TouchesRegistered (s : IolState) : IolOp → Prop
  | .next _ => ∀ event vec curr, s.loop = .next (event :: vec) → event.data = some curr →
      s.Registered curr
  | .funcReturn ret _ => ret ≤ 0 → ∀ curr vec, s.loop = .inFunc curr vec → s.Registered curr
  | _ => True

/-- After a callback that returned at most 0, its registration and no other leaves both the tree
and the interest list. -/
def RemovesCurrent (s t : IolState) : IolOp → Prop
  | .funcReturn ret _ => ret ≤ 0 → ∀ curr vec, s.loop = .inFunc curr vec →
      ∃ ev ∈ s.root, s.dataOf ev = some curr ∧ t.root = s.root.erase ev ∧
        ∃ fd, s.fdOf ev = some fd ∧ t.epoll = Function.update s.epoll fd none
  | _ => True

theorem mainLoop_run_safe {op : IolOp} (hrun : Guarded step Spares init s)
    (hspares : s.Spares op) (hstep : s.step op = some t) :
    s.TouchesRegistered op ∧ s.RemovesCurrent t op := by
  rcases run_tracks hrun with ⟨R, h⟩
  cases op with
  | next junk =>
      refine ⟨fun event vec curr hloop hdata ↦ ?_, trivial⟩
      apply h.represents.registered_iff.mpr
      apply h.registered
      unfold pending
      rw [hloop, ← hdata]
      exact List.mem_cons_self
  | funcReturn ret junk =>
      refine ⟨hspares, fun hret curr vec hloop ↦ ?_⟩
      obtain ⟨fd, r, hr, rfl, heq⟩ :=
        Tracks.iolMainLoopReturn_eq h.represents vec hret junk (hspares hret curr vec hloop)
      rcases h.represents.holds hr with ⟨event, hholds⟩
      have hback : { s with loop := .next vec }.Represents R :=
        h.represents.setLoop _
      rcases step_cases hstep with ⟨-, curr', vec', hloop', rfl⟩
      rw [hloop] at hloop'
      cases hloop'
      rw [heq, hback.iolDelInternalEvent_eq hr]
      refine ⟨r.ev, h.represents.mem_root.mpr ⟨fd, r, hr, rfl⟩, hholds.dataOf_eq, ?_⟩
      split
      next => exact ⟨rfl, fd, hholds.fdOf_eq, rfl⟩
      next => exact ⟨rfl, fd, hholds.fdOf_eq, rfl⟩
  | _ => exact ⟨trivial, trivial⟩

/-- A descriptor with a callback and no clean-up. -/
def watched (fd : ℤ) : IoloopEventDesc := ⟨fd, 1, 0, none, some 0, none⟩

/-- A descriptor with a clean-up and no callback. -/
def cleaned (fd : ℤ) (clean : ℕ) : IoloopEventDesc := ⟨fd, 1, 0, none, none, some clean⟩

/-- File descriptors 3 and 4 are ready.  The callback of 3 registers 5 and returns 0, which removes
3 and leaves 4 and 5. -/
theorem mainLoop_run_safe_callback :
    ∃ s t, step s (.funcReturn 0 (watched 3)) = some t ∧ s.loop = .inFunc 0 [⟨1, some 1⟩] ∧
      s.root = [2, 1, 0] ∧ s.RemovesCurrent t (.funcReturn 0 (watched 3)) := by
  let s₁ := (init.iolAddEvent (some (watched 3)) none).1
  let s₂ := (s₁.iolAddEvent (some (watched 4)) none).1
  let s₃ := { s₂ with loop := .next [⟨1, some 0⟩, ⟨1, some 1⟩] }
  let s₄ := s₃.iolMainLoopNext (watched 3) [⟨1, some 0⟩, ⟨1, some 1⟩]
  let s₅ := (s₄.iolAddEvent (some (watched 5)) none).1
  have hrun : Guarded step Spares init s₅ := by
    refine Guarded.next (.addEvent (some (watched 5)) none) (t := s₄) ?_ trivial rfl
    refine Guarded.next (.next (watched 3)) (t := s₃) ?_ trivial rfl
    refine Guarded.next (.wait [(3, 1), (4, 1)]) (t := s₂) ?_ trivial rfl
    refine Guarded.next (.addEvent (some (watched 4)) none) (t := s₁) ?_ trivial rfl
    exact Guarded.next (.addEvent (some (watched 3)) none) .refl trivial rfl
  have hloop : s₅.loop = .inFunc 0 [⟨1, some 1⟩] := rfl
  have hroot : s₅.root = [2, 1, 0] := rfl
  have hown : s₅.Spares (.funcReturn 0 (watched 3)) := by
    intro _ curr vec hcurr
    rw [hloop] at hcurr
    cases hcurr
    have hdata : s₅.dataOf 0 = some 0 := rfl
    refine ⟨0, ?_, hdata⟩
    rw [hroot]
    exact List.mem_cons_of_mem _ (List.mem_cons_of_mem _ List.mem_cons_self)
  have hstep : s₅.step (.funcReturn 0 (watched 3)) =
      some (s₅.iolMainLoopReturn 0 (watched 3) 0 [⟨1, some 1⟩]) := rfl
  exact ⟨s₅, _, hstep, hloop, hroot, (mainLoop_run_safe hrun hown hstep).2⟩

/-- Two descriptors are ready, and the callback of the first removes the second: the loop goes on
to the freed event's descriptor. -/
theorem mainLoop_run_unsafe :
    ¬ ∀ s op t, Guarded step Respects init s → step s op = some t →
      s.TouchesRegistered op ∧ s.RemovesCurrent t op := by
  intro hclaim
  let s₁ := (init.iolAddEvent (some (watched 3)) none).1
  let s₂ := (s₁.iolAddEvent (some (watched 4)) none).1
  let s₃ := { s₂ with loop := .next [⟨1, some 0⟩, ⟨1, some 1⟩] }
  let s₄ := s₃.iolMainLoopNext (watched 3) [⟨1, some 0⟩, ⟨1, some 1⟩]
  let s₅ := (s₄.iolDelEvent 4).1
  let s₆ := s₅.iolMainLoopReturn 1 (watched 3) 0 [⟨1, some 1⟩]
  have hrun : Guarded step Respects init s₆ := by
    refine Guarded.next (.funcReturn 1 (watched 3)) (t := s₅) ?_ trivial rfl
    refine Guarded.next (.delEvent 4) (t := s₄) ?_ trivial rfl
    refine Guarded.next (.next (watched 3)) (t := s₃) ?_ trivial rfl
    refine Guarded.next (.wait [(3, 1), (4, 1)]) (t := s₂) ?_ trivial rfl
    refine Guarded.next (.addEvent (some (watched 4)) none) (t := s₁) ?_ trivial rfl
    exact Guarded.next (.addEvent (some (watched 3)) none) .refl trivial rfl
  have htouch := (hclaim s₆ (.next (watched 3)) _ hrun rfl).1
  rcases htouch ⟨1, some 1⟩ [] 1 rfl rfl with ⟨ev, hev, hdata⟩
  -- only the event of file descriptor 3 is left in the tree
  have hroot : s₆.root = [0] := rfl
  rw [hroot, List.mem_singleton] at hev
  subst hev
  have : s₆.dataOf 0 = some 0 := rfl
  rw [this] at hdata
  cases hdata

end IolState

end Divers.IoLoop
