import Divers.IoLoop.Reuse

/-! Clean-ups and callbacks that call the library themselves, with whatever closing of file
descriptors in between: no descriptor is cleaned twice, or while a registry still holds it. -/

open Divers.Library

namespace Divers.IoLoop

namespace IolState

variable {s t : IolState} {R : Registry} {fd : ℤ} {r : Registration} {log : List ℕ}

/-- A step of a run that also records the descriptors whose `iol_clean` has been called. -/
def loggedStep (c : IolState × List ℕ) (op : IolOp) : Option (IolState × List ℕ) :=
  (c.1.step op).map fun t ↦ (t, c.1.cleanCalls t ++ c.2)

theorem logged_next {allow : IolState × List ℕ → IolOp → Prop}
    (hrun : Guarded loggedStep allow (init, []) (s, log)) (op : IolOp) (hallow : allow (s, log) op)
    (hstep : s.step op = some t) {calls : List ℕ} (hcalls : s.cleanCalls t = calls) :
    Guarded loggedStep allow (init, []) (t, calls ++ log) := by
  apply hrun.next op hallow
  unfold loggedStep
  rw [hstep, Option.map_some, hcalls]

theorem cleanCalls_of_length_le (h : t.cleans.length ≤ s.cleans.length) : s.cleanCalls t = [] := by
  unfold cleanCalls
  rw [Nat.sub_eq_zero_of_le h, List.take_zero, List.filterMap_nil]

@[simp] theorem freeData_cleans (s : IolState) (ev : ℕ) : (s.freeData ev).cleans = s.cleans := by
  unfold freeData
  split <;> rfl

@[simp] theorem freeData_descs_brk (s : IolState) (ev : ℕ) :
    (s.freeData ev).descs.brk = s.descs.brk := by
  unfold freeData
  split <;> rfl

theorem iolAddEvent_cleans (s : IolState) (ref : Option IoloopEventDesc)
    (fault : Option AddFault) : (s.iolAddEvent ref fault).1.cleans = s.cleans := by
  cases ref with
  | none => rfl
  | some desc =>
      unfold iolAddEvent
      dsimp only
      repeat' split
      all_goals first | rfl | exact freeData_cleans ..

theorem iolAddEvent_descs_brk_le (s : IolState) (ref : Option IoloopEventDesc)
    (fault : Option AddFault) : s.descs.brk ≤ (s.iolAddEvent ref fault).1.descs.brk := by
  cases ref with
  | none => exact Nat.le_refl _
  | some desc =>
      unfold iolAddEvent
      dsimp only
      -- a record is allocated or not, and `free` leaves the next address alone
      repeat' split
      all_goals first
        | exact Nat.le_refl _
        | exact Nat.le_succ _
        | (show s.descs.brk ≤ (freeData _ _).descs.brk
           rw [freeData_descs_brk]
           exact Nat.le_succ _)

/-! ## The invariant -/

/-- The kernel has the record `d` for `fd`: it has not been cleaned, and is not that of another file
descriptor in the tree. -/
structure Interest (table : ℤ → Option Registration) (brk : ℕ) (log : List ℕ) (fd : ℤ) (d : ℕ) :
    Prop where
  uncleaned : d ∉ log
  allocated : d < brk
  own : ∀ {fd' r}, table fd' = some r → r.desc = d → fd' = fd

/-- The descriptors of `log` have been cleaned, those of running clean-ups included: neither
registry holds one of them. -/
structure Cleaned (s : IolState) (R : Registry) (log : List ℕ) : Prop where
  plants : s.Plants R
  interest : ∀ {fd event}, s.epoll fd = some event →
    ∃ d, event.data = some d ∧ Interest R.table s.descs.brk log fd d
  nodup : log.Nodup
  allocated : ∀ d ∈ log, d < s.descs.brk
  table : ∀ {fd r}, R.table fd = some r → r.desc ∉ log
  leaving : ∀ r ∈ R.leaving, r.desc ∈ log

theorem init_cleaned : init.Cleaned Registry.empty [] where
  plants := init_represents.plants
  interest h := by cases h
  nodup := List.nodup_nil
  allocated _ h := absurd h List.not_mem_nil
  table h := by cases h
  leaving _ h := absurd h List.not_mem_nil

namespace Cleaned

/-- A step that the registries and the clean-ups do not see. -/
theorem extend (h : s.Cleaned R log) (hext : s.Extends t) (hbrk : s.descs.brk ≤ t.descs.brk) :
    t.Cleaned R log where
  plants := h.plants.extend hext
  interest {fd event} hepoll := by
    rw [hext.epoll] at hepoll
    rcases h.interest hepoll with ⟨d, hdata, hd⟩
    exact ⟨d, hdata, hd.uncleaned, Nat.lt_of_lt_of_le hd.allocated hbrk, hd.own⟩
  nodup := h.nodup
  allocated d hd := Nat.lt_of_lt_of_le (h.allocated d hd) hbrk
  table := h.table
  leaving := h.leaving

/-- A store into a record allocates nothing. -/
theorem write (h : s.Cleaned R log) {desc : ℕ} {content : IoloopEventDesc}
    (hlive : (s.descs.cell desc).isSome) (hkeep : s.KeepsFd (.write desc content)) :
    Cleaned { s with descs := s.descs.store desc content } R log where
  plants := h.plants.write hlive hkeep
  interest := h.interest
  nodup := h.nodup
  allocated := h.allocated
  table := h.table
  leaving := h.leaving

theorem setLoop (h : s.Cleaned R log) (loop : MainLoop) :
    Cleaned { s with loop := loop } R log :=
  h.extend ⟨rfl, rfl, rfl, id, id⟩ (Nat.le_refl _)

/-- What the kernel keeps when it drops `fd`. -/
theorem interest_update (h : s.Cleaned R log) {fd fd' : ℤ} {event : EpollEvent}
    (hepoll : Function.update s.epoll fd none fd' = some event) :
    fd' ≠ fd ∧ ∃ d, event.data = some d ∧ Interest R.table s.descs.brk log fd' d := by
  have hne : fd' ≠ fd := by
    intro heq
    subst heq
    rw [Function.update_self] at hepoll
    cases hepoll
  rw [Function.update_of_ne hne] at hepoll
  exact ⟨hne, h.interest hepoll⟩

/-- The kernel drops a closed file descriptor. -/
theorem close (h : s.Cleaned R log) (fd : ℤ) : (s.epollCtlDel fd).Cleaned R log where
  plants := h.plants.setEpoll _
  interest hepoll := (h.interest_update hepoll).2
  nodup := h.nodup
  allocated := h.allocated
  table := h.table
  leaving := h.leaving

/-- A successful registration writes its records at new addresses. -/
theorem addEvent (h : s.Cleaned R log) (ref : Option IoloopEventDesc) (fault : Option AddFault) :
    ∃ R', (s.iolAddEvent ref fault).1.Cleaned R' log := by
  rcases iolAddEvent_cases h.plants.keyed ref fault with
    ⟨-, hext, -⟩ | ⟨desc, hdesc, -, -, -, heq⟩
  · exact ⟨R, h.extend hext (iolAddEvent_descs_brk_le s ref fault)⟩
  · rcases h.plants.addEvent ref fault with ⟨R', hR', hleaving, htable⟩
    have hnew : s.newRegistration.desc ∉ log := fun hmem ↦
      Nat.lt_irrefl _ (h.allocated _ hmem)
    -- what the table holds now was there before, or is new
    have hold : ∀ {fd r}, R.table fd = some r → r.desc < s.descs.brk := by
      intro fd r hr
      rcases h.plants.holds hr with ⟨event, hholds⟩
      rcases Option.map_eq_some_iff.mp hholds.2.2 with ⟨content, hcell, -⟩
      exact Arena.lt_brk hcell
    have hentry : ∀ {fd r}, R'.table fd = some r →
        R.table fd = some r ∨ fd = desc.iolFd ∧ r = s.newRegistration := by
      intro fd r hr
      rcases htable with htable | ⟨desc', hdesc', -, htable⟩
      · exact Or.inl (htable ▸ hr)
      · rw [hdesc] at hdesc'
        cases hdesc'
        rw [htable] at hr
        by_cases hfd : fd = desc.iolFd
        · rw [hfd, Function.update_self, Option.some.injEq] at hr
          exact Or.inr ⟨hfd, hr.symm⟩
        · rw [Function.update_of_ne hfd] at hr
          exact Or.inl hr
    rw [heq] at hR' ⊢
    refine ⟨R', hR', fun {fd event} hepoll ↦ ?_, h.nodup, fun d hd ↦ ?_, fun {fd r} hr ↦ ?_,
      fun r hr ↦ h.leaving r (hleaving ▸ hr)⟩
    · change Function.update s.epoll desc.iolFd _ fd = some event at hepoll
      by_cases hfd : fd = desc.iolFd
      · rw [hfd, Function.update_self] at hepoll
        cases hepoll
        refine ⟨s.descs.brk, rfl, hnew, Nat.lt_succ_self _, fun {fd' r} hr hbrk ↦ ?_⟩
        rcases hentry hr with hr | ⟨hfd', -⟩
        · exact absurd hbrk (Nat.ne_of_lt (hold hr))
        · exact hfd'.trans hfd.symm
      · rw [Function.update_of_ne hfd] at hepoll
        rcases h.interest hepoll with ⟨d, hdata, hd⟩
        refine ⟨d, hdata, hd.uncleaned, Nat.lt_succ_of_lt hd.allocated, fun {fd' r} hr hrd ↦ ?_⟩
        rcases hentry hr with hr | ⟨-, rfl⟩
        · exact hd.own hr hrd
        · exact absurd hrd.symm (Nat.ne_of_lt hd.allocated)
    · exact Nat.lt_succ_of_lt (h.allocated d hd)
    · rcases hentry hr with hr | ⟨-, rfl⟩
      · exact h.table hr
      · exact hnew

/-- The kernel keeps no event of the descriptor that leaves the tree. -/
theorem interest_other (h : s.Cleaned R log) {R' : Registry} {fd fd' : ℤ} {r : Registration}
    {event : EpollEvent} (hr : R.table fd = some r)
    (htable : R'.table = Function.update R.table fd none)
    (hepoll : Function.update s.epoll fd none fd' = some event) :
    ∃ d, event.data = some d ∧ Interest R'.table s.descs.brk (r.desc :: log) fd' d := by
  rcases h.interest_update hepoll with ⟨hne, d, hdata, hd⟩
  refine ⟨d, hdata, ?_, hd.allocated, fun hr' ↦ ?_⟩
  · rw [List.mem_cons, not_or]
    exact ⟨fun heq ↦ hne (hd.own hr heq.symm).symm, hd.uncleaned⟩
  · rw [htable] at hr'
    exact hd.own (R.table_of_update fd hr').1

/-- Nor does the tree keep a registration of it. -/
theorem table_other (h : s.Cleaned R log) {fd fd' : ℤ} {r r' : Registration}
    (hr : R.table fd = some r) (hr' : Function.update R.table fd none fd' = some r') :
    r'.desc ∉ r.desc :: log := by
  rcases R.table_of_update fd hr' with ⟨hr', hne⟩
  rw [List.mem_cons, not_or]
  exact ⟨(R.table_apart hr' hr hne).2, h.table hr'⟩

/-- A removal starts the clean-up of a descriptor that has not been cleaned before, and takes it
out of both registries first. -/
theorem delEvent (h : s.Cleaned R log) (fd : ℤ) :
    ∃ R', (s.iolDelEvent fd).1.Cleaned R' (s.cleanCalls (s.iolDelEvent fd).1 ++ log) := by
  cases hr : R.table fd with
  | none =>
      rw [h.plants.iolDelEvent_absent hr, cleanCalls_of_length_le (Nat.le_refl _)]
      exact ⟨R, h⟩
  | some r =>
      rcases Owns.of_table h.plants hr with ⟨desc, howns⟩
      rcases h.plants.iolDelInternalEvent hr with ⟨R', hR', htable, hleaving⟩
      have hstay : ∀ {fd' r'}, R'.table fd' = some r' → r'.desc ∉ r.desc :: log :=
        fun hr' ↦ h.table_other hr (htable ▸ hr')
      rw [howns.cleanCalls_eq, h.plants.iolDelEvent_present hr]
      rw [howns.iolClean_eq] at hleaving
      rw [h.plants.iolDelInternalEvent_eq hr, howns.iolClean_eq] at hR' ⊢
      split at hleaving
      next hclean =>
        rw [if_pos hclean] at hR' ⊢
        rw [if_pos hclean]
        refine ⟨R', hR', h.interest_other hr htable, ?_, fun d hd ↦ ?_, hstay, fun r' hr' ↦ ?_⟩
        · exact List.nodup_cons.mpr ⟨h.table hr, h.nodup⟩
        · rcases List.mem_cons.mp hd with rfl | hd
          · exact Arena.lt_brk howns.content
          · exact h.allocated d hd
        · rw [hleaving] at hr'
          rcases List.mem_cons.mp hr' with rfl | hr'
          · exact List.mem_cons_self
          · exact List.mem_cons_of_mem _ (h.leaving r' hr')
      next hclean =>
        rw [if_neg hclean] at hR' ⊢
        rw [if_neg hclean]
        refine ⟨R', hR', fun hepoll ↦ ?_, h.nodup, h.allocated,
          fun hr' hmem ↦ hstay hr' (List.mem_cons_of_mem _ hmem),
          fun r' hr' ↦ h.leaving r' (hleaving ▸ hr')⟩
        rcases h.interest_other hr htable hepoll with ⟨d, hdata, hd⟩
        exact ⟨d, hdata, fun hmem ↦ hd.uncleaned (List.mem_cons_of_mem _ hmem), hd.allocated,
          hd.own⟩

/-- The end of a clean-up frees a cleaned descriptor. -/
theorem cleanReturn (h : s.Cleaned R log) {ev : ℕ} {cleans : List ℕ}
    (hcleans : s.cleans = ev :: cleans) :
    ({ s with cleans := cleans }.iolCleanReturn ev).Cleaned R.release log := by
  have hR := h.plants.release hcleans
  rcases h.plants with ⟨epoll, hrep⟩
  rcases hrep.head_leaving hcleans with ⟨r, hmem, rfl, hdata⟩
  have heq : { s with cleans := cleans }.iolCleanReturn r.ev =
      { s with cleans := cleans, descs := s.descs.free r.desc, evs := s.evs.free r.ev } := by
    have hdata' : dataOf { s with cleans := cleans } r.ev = some r.desc := hdata
    unfold iolCleanReturn freeData
    rw [hdata']
    rfl
  rw [heq] at hR ⊢
  exact ⟨hR, h.interest, h.nodup, h.allocated, h.table,
    fun r' hr' ↦ h.leaving r' (List.mem_of_mem_tail hr')⟩

theorem wait (h : s.Cleaned R log) {ready : List (ℤ × UInt32)}
    (hwait : s.iolMainLoopWait ready = some t) : t.Cleaned R log ∧ t.cleans = s.cleans := by
  unfold iolMainLoopWait at hwait
  rcases Option.map_eq_some_iff.mp hwait with ⟨vec, -, rfl⟩
  split
  next => exact ⟨h, rfl⟩
  next => exact ⟨h.setLoop _, rfl⟩

theorem next (h : s.Cleaned R log) (junk : IoloopEventDesc) (vec : List EpollEvent) :
    (s.iolMainLoopNext junk vec).Cleaned R log ∧
      (s.iolMainLoopNext junk vec).cleans = s.cleans := by
  unfold iolMainLoopNext
  split
  next => exact ⟨h.setLoop _, rfl⟩
  next event vec =>
    split
    next => exact ⟨h.setLoop _, rfl⟩
    next curr hdata =>
      dsimp only
      split
      next => exact ⟨h.extend extends_setRev (Nat.le_refl _), rfl⟩
      next => exact ⟨h.setLoop _, rfl⟩

theorem step {op : IolOp} (h : s.Cleaned R log) (hkeep : s.KeepsFd op)
    (hstep : s.step op = some t) :
    ∃ R', t.Cleaned R' (s.cleanCalls t ++ log) := by
  have hcases := step_cases hstep
  -- no clean-up starts in a step that leaves the stack of clean-ups alone
  have hquiet : ∀ {R'}, t.cleans = s.cleans → t.Cleaned R' log →
      ∃ R', t.Cleaned R' (s.cleanCalls t ++ log) := by
    intro R' hcleans h'
    rw [cleanCalls_of_length_le (hcleans ▸ Nat.le_refl _)]
    exact ⟨R', h'⟩
  cases op with
  | addEvent ref fault =>
      rcases h.addEvent ref fault with ⟨R', h'⟩
      rw [← hcases.2] at h'
      apply hquiet _ h'
      rw [hcases.2]
      exact iolAddEvent_cleans s ref fault
  | delEvent fd =>
      rw [hcases.2]
      exact h.delEvent fd
  | write desc content =>
      rcases hcases with ⟨⟨-, hlive⟩, rfl⟩
      exact hquiet rfl (h.write hlive hkeep)
  | close fd =>
      rw [hcases.2] at hquiet ⊢
      exact hquiet rfl (h.close fd)
  | wait ready =>
      rcases h.wait hcases.2 with ⟨h', hcleans⟩
      exact hquiet hcleans h'
  | next junk =>
      rcases hcases with ⟨-, vec, -, rfl⟩
      rcases h.next junk vec with ⟨h', hcleans⟩
      exact hquiet hcleans h'
  | funcReturn ret junk =>
      rcases hcases with ⟨-, curr, vec, -, rfl⟩
      unfold iolMainLoopReturn at hquiet ⊢
      dsimp only at hquiet ⊢
      split
      next => exact (h.setLoop (.next vec)).delEvent _
      next hret =>
        rw [if_neg hret] at hquiet
        exact hquiet rfl (h.setLoop _)
  | cleanReturn =>
      rcases hcases with ⟨ev, cleans, hcleans, rfl⟩
      have hlength : ({ s with cleans := cleans }.iolCleanReturn ev).cleans.length ≤
          s.cleans.length := by
        show (freeData { s with cleans := cleans } ev).cleans.length ≤ s.cleans.length
        rw [freeData_cleans, hcleans]
        exact Nat.le_succ _
      rw [cleanCalls_of_length_le hlength]
      exact ⟨_, h.cleanReturn hcleans⟩

end Cleaned

/-! ## Runs -/

/-- In every run of the registry that keeps the `iol_fd` of the records in the tree, however its
callbacks and clean-ups call back into it, no descriptor is cleaned twice, and once its clean-up is
called neither registry holds it. -/
theorem reentrant_run_cleans_once
    (hrun : Guarded loggedStep (fun c op ↦ c.1.KeepsFd op) (init, []) (s, log)) :
    log.Nodup ∧ ∀ d ∈ log, ¬ s.Registered d ∧ ∀ fd, s.epollSet fd ≠ some d := by
  have hinv : ∃ R, Cleaned s R log := by
    apply hrun.invariant (I := fun c ↦ ∃ R, Cleaned c.1 R c.2) ⟨_, init_cleaned⟩
    intro before op c hinv hkeep hstep
    obtain ⟨s, log⟩ := before
    obtain ⟨R, h⟩ := hinv
    rcases Option.map_eq_some_iff.mp hstep with ⟨t, ht, rfl⟩
    exact h.step hkeep ht
  rcases hinv with ⟨R, h⟩
  refine ⟨h.nodup, fun d hd ↦ ⟨?_, fun fd hepoll ↦ ?_⟩⟩
  · intro hexists
    obtain ⟨ev, hev, hdata⟩ := hexists
    rcases Option.isSome_iff_exists.mp (h.plants.keyed ev hev) with ⟨fd, hfd⟩
    rcases (h.plants.fdOf_eq_iff hev).mp hfd with ⟨r, hr, rfl⟩
    rcases h.plants.holds hr with ⟨event, hholds⟩
    rw [hholds.dataOf_eq] at hdata
    cases hdata
    exact h.table hr hd
  · rcases Option.bind_eq_some_iff.mp hepoll with ⟨event, hevent, hdata⟩
    rcases h.interest hevent with ⟨d', hdata', hd'⟩
    rw [hdata] at hdata'
    cases hdata'
    exact hd'.uncleaned hd

/-- The clean-up of file descriptor 3 removes it once more, and stores -1 into its record. -/
theorem reentrant_run_cleans_once_nested :
    ∃ s, Guarded loggedStep (fun c op ↦ c.1.KeepsFd op) (init, []) (s, [0]) ∧ [0].Nodup ∧
      ∀ d ∈ [0], ¬ s.Registered d ∧ ∀ fd, s.epollSet fd ≠ some d := by
  let s₁ := (init.iolAddEvent (some (cleaned 3 0)) none).1
  let s₂ := (s₁.iolDelEvent 3).1
  let s₃ := { s₂ with descs := s₂.descs.store 0 (cleaned (-1) 0) }
  have hrun₁ : Guarded loggedStep (fun c op ↦ c.1.KeepsFd op) (init, []) (s₁, [] ++ []) :=
    logged_next .refl (.addEvent (some (cleaned 3 0)) none) trivial rfl rfl
  have hrun₂ : Guarded loggedStep (fun c op ↦ c.1.KeepsFd op) (init, []) (s₂, [0] ++ []) :=
    logged_next hrun₁ (.delEvent 3) trivial rfl rfl
  have hkeep : s₂.KeepsFd (.write 0 (cleaned (-1) 0)) := by
    rintro ⟨ev, hev, -⟩
    exact absurd hev List.not_mem_nil
  have hrun₃ : Guarded loggedStep (fun c op ↦ c.1.KeepsFd op) (init, []) (s₃, [] ++ [0]) :=
    logged_next hrun₂ (.write 0 (cleaned (-1) 0)) hkeep rfl rfl
  have hrun : Guarded loggedStep (fun c op ↦ c.1.KeepsFd op) (init, [])
      ((s₃.iolDelEvent 3).1, [] ++ [0]) :=
    logged_next hrun₃ (.delEvent 3) trivial rfl rfl
  exact ⟨_, hrun, reentrant_run_cleans_once hrun⟩

end IolState

end Divers.IoLoop
