import Divers.IoLoop.Agreement
import Mathlib.Data.List.Pairwise

/-! The heap records of the library: which of them are freed, and when. -/

open Divers.Library

namespace Divers.IoLoop

/-! ## The registrations that have records -/

instance : Std.Symm Registration.Apart := ⟨fun _ _ h ↦ h.symm⟩

namespace Registry

/-- The registration is in the table, or its clean-up is running. -/
def Has (R : Registry) (r : Registration) : Prop := (∃ fd, R.table fd = some r) ∨ r ∈ R.leaving

variable {R : Registry} {fd : ℤ} {r r' : Registration}

theorem Has.apart (h : R.Has r) (h' : R.Has r') (hne : r ≠ r') : r.Apart r' := by
  obtain ⟨fd, hr⟩ | hr := h <;> obtain ⟨fd', hr'⟩ | hr' := h'
  · apply R.table_apart hr hr'
    intro hfd
    subst hfd
    rw [hr, Option.some.injEq] at hr'
    exact hne hr'
  · exact R.across hr hr'
  · exact (R.across hr' hr).symm
  · exact R.leaving_apart.forall hr hr' hne

theorem has_register {hnew : ∀ {fd' r'}, R.table fd' = some r' → r.Apart r'}
    {hleaving : ∀ r' ∈ R.leaving, r.Apart r'} (habsent : R.table fd = none) :
    (R.register fd r hnew hleaving).Has r' ↔ r' = r ∨ R.Has r' := by
  constructor
  · intro hhas
    obtain ⟨fd', hr'⟩ | hr' := hhas
    · by_cases hfd : fd' = fd
      · subst hfd
        simp only [register, Function.update_self, Option.some.injEq] at hr'
        exact Or.inl hr'.symm
      · simp only [register, Function.update_of_ne hfd] at hr'
        exact Or.inr (Or.inl ⟨fd', hr'⟩)
    · exact Or.inr (Or.inr hr')
  · intro heither
    obtain rfl | ⟨fd', hr'⟩ | hr' := heither
    · exact Or.inl ⟨fd, Function.update_self ..⟩
    · have hfd := ne_of_absent habsent hr'
      exact Or.inl ⟨fd', (Function.update_of_ne hfd ..).trans hr'⟩
    · exact Or.inr hr'

theorem has_withdraw (hr : R.table fd = some r) :
    (R.withdraw fd).Has r' ↔ R.Has r' ∧ r' ≠ r := by
  constructor
  · intro hhas
    obtain ⟨fd', hr'⟩ | hr' := hhas
    · obtain ⟨hr', hfd⟩ := R.table_of_update fd hr'
      refine ⟨Or.inl ⟨fd', hr'⟩, fun heq ↦ ?_⟩
      exact (R.table_apart hr' hr hfd).1 (congrArg Registration.ev heq)
    · refine ⟨Or.inr hr', fun heq ↦ ?_⟩
      exact (R.across hr hr').1 (congrArg Registration.ev heq.symm)
  · intro hboth
    obtain ⟨⟨fd', hr'⟩ | hr', hne⟩ := hboth
    · have hfd : fd' ≠ fd := by
        intro heq
        subst heq
        rw [hr, Option.some.injEq] at hr'
        exact hne hr'.symm
      exact Or.inl ⟨fd', (Function.update_of_ne hfd ..).trans hr'⟩
    · exact Or.inr hr'

theorem has_retire (hr : R.table fd = some r) : (R.retire fd r hr).Has r' ↔ R.Has r' := by
  constructor
  · intro hhas
    obtain ⟨fd', hr'⟩ | hr' := hhas
    · exact Or.inl ⟨fd', (R.table_of_update fd hr').1⟩
    · obtain rfl | hr' := List.mem_cons.mp hr'
      · exact Or.inl ⟨fd, hr⟩
      · exact Or.inr hr'
  · intro hhas
    obtain ⟨fd', hr'⟩ | hr' := hhas
    · by_cases hfd : fd' = fd
      · subst hfd
        rw [hr, Option.some.injEq] at hr'
        subst hr'
        exact Or.inr List.mem_cons_self
      · exact Or.inl ⟨fd', (Function.update_of_ne hfd ..).trans hr'⟩
    · exact Or.inr (List.mem_cons_of_mem _ hr')

theorem has_release {leaving : List Registration} (hleaving : R.leaving = r :: leaving) :
    R.release.Has r' ↔ R.Has r' ∧ r' ≠ r := by
  have hhead : r ∈ R.leaving := by simp [hleaving]
  have htail : R.release.leaving = leaving := by
    show R.leaving.tail = leaving
    rw [hleaving, List.tail_cons]
  constructor
  · intro hhas
    obtain ⟨fd, hr'⟩ | hr' := hhas
    · refine ⟨Or.inl ⟨fd, hr'⟩, fun heq ↦ ?_⟩
      exact (R.across hr' hhead).1 (congrArg Registration.ev heq)
    · rw [htail] at hr'
      have hapart := R.leaving_apart
      rw [hleaving, List.pairwise_cons] at hapart
      refine ⟨Or.inr (by simp [hleaving, hr']), fun heq ↦ ?_⟩
      exact (hapart.1 r' hr').1 (congrArg Registration.ev heq.symm)
  · intro hboth
    obtain ⟨⟨fd, hr'⟩ | hr', hne⟩ := hboth
    · exact Or.inl ⟨fd, hr'⟩
    · rw [hleaving] at hr'
      right
      rw [htail]
      exact (List.mem_cons.mp hr').resolve_left hne

end Registry

namespace IolState

variable {s t : IolState} {R R' : Registry} {fd : ℤ} {r : Registration}

theorem Represents.has_holds (hR : s.Represents R) (hr : R.Has r) :
    ∃ fd event, s.Holds fd r event := by
  obtain ⟨fd, hr⟩ | hr := hr
  · exact ⟨fd, hR.holds hr⟩
  · exact hR.leaving r hr

/-! ## Balance -/

/-- The nodes of the tree, and the events whose clean-up is running. -/
def Kept (s : IolState) (ev : ℕ) : Prop := ev ∈ s.root ∨ ev ∈ s.cleans

/-- The heap holds an event and a descriptor copy of its own for each registration, and nothing
else. -/
structure Balanced (s : IolState) : Prop where
  evs : ∀ a, (s.evs.cell a).isSome ↔ s.Kept a
  descs : ∀ a, (s.descs.cell a).isSome ↔ ∃ ev, s.Kept ev ∧ s.dataOf ev = some a
  own : ∀ ev ev', s.Kept ev → s.Kept ev' → s.dataOf ev = s.dataOf ev' → ev = ev'

/-- No record is without a registration. -/
structure Accounts (s : IolState) (R : Registry) : Prop where
  evs : ∀ a, (s.evs.cell a).isSome → ∃ r, R.Has r ∧ r.ev = a
  descs : ∀ a, (s.descs.cell a).isSome → ∃ r, R.Has r ∧ r.desc = a

/-! ### Owners -/

/-- Every cell has an owner. -/
def Owned (live : ℕ → Prop) (has : Registration → Prop) (cell : Registration → ℕ) : Prop :=
  ∀ a, live a → ∃ r, has r ∧ cell r = a

section Owners

variable {live live' : ℕ → Prop} {has has' : Registration → Prop} {cell : Registration → ℕ}

theorem owned_congr (hlive : ∀ a, live' a ↔ live a) (hhas : ∀ r, has' r ↔ has r) :
    Owned live' has' cell ↔ Owned live has cell := by
  unfold Owned
  simp only [hlive, hhas]

/-- A new cell comes with its owner. -/
theorem owned_insert (hnew : ¬ live (cell r)) (hlive : ∀ a, live' a ↔ a = cell r ∨ live a)
    (hhas : ∀ r', has' r' ↔ r' = r ∨ has r') :
    Owned live' has' cell ↔ Owned live has cell := by
  constructor
  · intro howned a ha
    obtain ⟨r', hr', rfl⟩ := howned a ((hlive a).mpr (Or.inr ha))
    obtain rfl | hr' := (hhas r').mp hr'
    · exact absurd ha hnew
    · exact ⟨r', hr', rfl⟩
  · intro howned a ha
    obtain rfl | ha := (hlive a).mp ha
    · exact ⟨r, (hhas r).mpr (Or.inl rfl), rfl⟩
    · obtain ⟨r', hr', hcell⟩ := howned a ha
      exact ⟨r', (hhas r').mpr (Or.inr hr'), hcell⟩

/-- A cell goes with its owner. -/
theorem owned_erase (hr : has r) (hlive : ∀ a, live' a ↔ a ≠ cell r ∧ live a)
    (hhas : ∀ r', has' r' ↔ has r' ∧ r' ≠ r) : Owned live' has' cell ↔ Owned live has cell := by
  constructor
  · intro howned a ha
    by_cases hcell : a = cell r
    · exact ⟨r, hr, hcell.symm⟩
    · obtain ⟨r', hr', hcell'⟩ := howned a ((hlive a).mpr ⟨hcell, ha⟩)
      exact ⟨r', ((hhas r').mp hr').1, hcell'⟩
  · intro howned a ha
    obtain ⟨hcell, ha⟩ := (hlive a).mp ha
    obtain ⟨r', hr', rfl⟩ := howned a ha
    exact ⟨r', (hhas r').mpr ⟨hr', fun heq ↦ hcell (congrArg cell heq)⟩, rfl⟩

end Owners

theorem accounts_iff_owned :
    s.Accounts R ↔ Owned (fun a ↦ (s.evs.cell a).isSome) R.Has Registration.ev ∧
      Owned (fun a ↦ (s.descs.cell a).isSome) R.Has Registration.desc :=
  ⟨fun h ↦ ⟨h.evs, h.descs⟩, fun h ↦ ⟨h.1, h.2⟩⟩

namespace Represents

theorem kept_iff (hR : s.Represents R) {ev : ℕ} : s.Kept ev ↔ ∃ r, R.Has r ∧ r.ev = ev := by
  unfold Kept
  rw [hR.mem_root, hR.cleans, List.mem_map]
  constructor
  · intro heither
    obtain ⟨fd, r, hr, hev⟩ | ⟨r, hr, hev⟩ := heither
    · exact ⟨r, Or.inl ⟨fd, hr⟩, hev⟩
    · exact ⟨r, Or.inr hr, hev⟩
  · intro hexists
    obtain ⟨r, ⟨fd, hr⟩ | hr, hev⟩ := hexists
    · exact Or.inl ⟨fd, r, hr, hev⟩
    · exact Or.inr ⟨r, hr, hev⟩

theorem ev_isSome (hR : s.Represents R) (hr : R.Has r) : (s.evs.cell r.ev).isSome := by
  obtain ⟨fd, event, hholds⟩ := hR.has_holds hr
  rw [hholds.1]
  rfl

theorem desc_isSome (hR : s.Represents R) (hr : R.Has r) : (s.descs.cell r.desc).isSome := by
  obtain ⟨fd, event, hholds⟩ := hR.has_holds hr
  obtain ⟨desc, hdesc, -⟩ := Option.map_eq_some_iff.mp hholds.2.2
  rw [hdesc]
  rfl

theorem has_dataOf (hR : s.Represents R) (hr : R.Has r) : s.dataOf r.ev = some r.desc := by
  obtain ⟨fd, event, hholds⟩ := hR.has_holds hr
  exact hholds.dataOf_eq

theorem balanced_iff (hR : s.Represents R) : s.Balanced ↔ s.Accounts R := by
  constructor
  · intro hbalanced
    refine ⟨fun a ha ↦ hR.kept_iff.mp ((hbalanced.evs a).mp ha), fun a ha ↦ ?_⟩
    obtain ⟨ev, hkept, hdata⟩ := (hbalanced.descs a).mp ha
    obtain ⟨r, hr, rfl⟩ := hR.kept_iff.mp hkept
    rw [hR.has_dataOf hr, Option.some.injEq] at hdata
    exact ⟨r, hr, hdata⟩
  · intro haccounts
    refine ⟨fun a ↦ ⟨fun ha ↦ hR.kept_iff.mpr (haccounts.evs a ha), fun hkept ↦ ?_⟩,
      fun a ↦ ⟨fun ha ↦ ?_, fun hexists ↦ ?_⟩, fun ev ev' hkept hkept' hdata ↦ ?_⟩
    · obtain ⟨r, hr, rfl⟩ := hR.kept_iff.mp hkept
      exact hR.ev_isSome hr
    · obtain ⟨r, hr, rfl⟩ := haccounts.descs a ha
      exact ⟨r.ev, hR.kept_iff.mpr ⟨r, hr, rfl⟩, hR.has_dataOf hr⟩
    · obtain ⟨ev, hkept, hdata⟩ := hexists
      obtain ⟨r, hr, rfl⟩ := hR.kept_iff.mp hkept
      rw [hR.has_dataOf hr, Option.some.injEq] at hdata
      exact hdata ▸ hR.desc_isSome hr
    · obtain ⟨r, hr, rfl⟩ := hR.kept_iff.mp hkept
      obtain ⟨r', hr', rfl⟩ := hR.kept_iff.mp hkept'
      rw [hR.has_dataOf hr, hR.has_dataOf hr', Option.some.injEq] at hdata
      by_contra hne
      exact (hr.apart hr' fun heq ↦ hne (congrArg Registration.ev heq)).2 hdata

end Represents

/-! ## Steps -/

/-- A removal of `fd` here frees both records, now or when the clean-up returns. -/
def FreesBoth (s : IolState) (fd : ℤ) : Prop :=
  ∀ ev, s.tfind fd = some ev → ((s.descOf ev).bind IoloopEventDesc.iolClean).isSome

/-- What a step does to the records and to the registrations; `clean` says that it removes no
registration without an `iol_clean`. -/
inductive HeapStep (s : IolState) (R : Registry) (clean : Prop) (t : IolState) (R' : Registry) :
    Prop
  | quiet (hclean : clean) (hevs : ∀ a, (t.evs.cell a).isSome ↔ (s.evs.cell a).isSome)
      (hdescs : ∀ a, (t.descs.cell a).isSome ↔ (s.descs.cell a).isSome)
      (hhas : ∀ r, R'.Has r ↔ R.Has r)
  | added (hclean : clean)
      (hevs : ∀ a, (t.evs.cell a).isSome ↔ a = s.evs.brk ∨ (s.evs.cell a).isSome)
      (hdescs : ∀ a, (t.descs.cell a).isSome ↔ a = s.descs.brk ∨ (s.descs.cell a).isSome)
      (hhas : ∀ r, R'.Has r ↔ r = s.newRegistration ∨ R.Has r)
  | released (r : Registration) (hclean : clean) (hr : R.Has r)
      (hevs : ∀ a, (t.evs.cell a).isSome ↔ a ≠ r.ev ∧ (s.evs.cell a).isSome)
      (hdescs : ∀ a, (t.descs.cell a).isSome ↔ a ≠ r.desc ∧ (s.descs.cell a).isSome)
      (hhas : ∀ r', R'.Has r' ↔ R.Has r' ∧ r' ≠ r)
  | leaked (r : Registration) (hclean : ¬ clean) (hr : R.Has r)
      (hdescs : ∀ a, (t.descs.cell a).isSome ↔ (s.descs.cell a).isSome)
      (hhas : ∀ r', R'.Has r' ↔ R.Has r' ∧ r' ≠ r)

/-- The position in the main loop plays no part. -/
theorem HeapStep.setLoop {clean clean' : Prop} (loop : MainLoop)
    (h : HeapStep { s with loop := loop } R clean t R') (hiff : clean' ↔ clean) :
    HeapStep s R clean' t R' := by
  cases h with
  | quiet hclean hevs hdescs hhas => exact .quiet (hiff.mpr hclean) hevs hdescs hhas
  | added hclean hevs hdescs hhas => exact .added (hiff.mpr hclean) hevs hdescs hhas
  | released r hclean hr hevs hdescs hhas =>
      exact .released r (hiff.mpr hclean) hr hevs hdescs hhas
  | leaked r hclean hr hdescs hhas =>
      exact .leaked r (fun hclean' ↦ hclean (hiff.mp hclean')) hr hdescs hhas

/-- A descriptor copy that is not freed with its registration stays without one. -/
theorem HeapStep.accounts_iff {clean : Prop} (hR : s.Represents R)
    (h : HeapStep s R clean t R') : t.Accounts R' ↔ s.Accounts R ∧ clean := by
  cases h with
  | quiet hclean hevs hdescs hhas =>
      rw [accounts_iff_owned, accounts_iff_owned, owned_congr hevs hhas, owned_congr hdescs hhas,
        and_iff_left hclean]
  | added hclean hevs hdescs hhas =>
      -- the new records were not allocated before
      have hev : ¬ (s.evs.cell s.newRegistration.ev).isSome := by
        rw [show s.evs.cell s.newRegistration.ev = none from Arena.cell_brk]
        exact Bool.false_ne_true
      have hdesc : ¬ (s.descs.cell s.newRegistration.desc).isSome := by
        rw [show s.descs.cell s.newRegistration.desc = none from Arena.cell_brk]
        exact Bool.false_ne_true
      rw [accounts_iff_owned, accounts_iff_owned, owned_insert hev hevs hhas,
        owned_insert hdesc hdescs hhas, and_iff_left hclean]
  | released r hclean hr hevs hdescs hhas =>
      rw [accounts_iff_owned, accounts_iff_owned, owned_erase hr hevs hhas,
        owned_erase hr hdescs hhas, and_iff_left hclean]
  | leaked r hclean hr hdescs hhas =>
      constructor
      · intro ht
        -- the copy of `r` is still there, and no other registration has it
        obtain ⟨r', hr', hdesc⟩ := ht.descs r.desc ((hdescs _).mpr (hR.desc_isSome hr))
        obtain ⟨hr', hne⟩ := (hhas r').mp hr'
        exact absurd hdesc (hr'.apart hr hne).2
      · intro hboth
        exact absurd hboth.2 hclean

namespace Represents

theorem delEvent_heapStep (hR : s.Represents R) (fd : ℤ) :
    ∃ R', (s.iolDelEvent fd).1.Represents R' ∧
      HeapStep s R (s.FreesBoth fd) (s.iolDelEvent fd).1 R' := by
  cases hr : R.table fd with
  | none =>
      have hclean : s.FreesBoth fd := by
        intro ev hev
        rw [hR.tfind_eq, hr] at hev
        cases hev
      rw [hR.iolDelEvent_absent hr]
      exact ⟨R, hR, .quiet hclean (fun _ ↦ Iff.rfl) (fun _ ↦ Iff.rfl) fun _ ↦ Iff.rfl⟩
  | some r =>
      have hclean : s.FreesBoth fd ↔
          ((s.descOf r.ev).bind IoloopEventDesc.iolClean).isSome := by
        unfold FreesBoth
        rw [hR.tfind_eq, hr]
        simp
      rw [hR.iolDelEvent_present hr, hR.iolDelInternalEvent_eq hr]
      by_cases hsome : ((s.descOf r.ev).bind IoloopEventDesc.iolClean).isSome
      · rw [if_pos hsome]
        exact ⟨_, hR.retire hr, .quiet (hclean.mpr hsome) (fun _ ↦ Iff.rfl) (fun _ ↦ Iff.rfl)
          fun _ ↦ Registry.has_retire hr⟩
      · rw [if_neg hsome]
        exact ⟨_, hR.withdraw hr, .leaked r (fun h ↦ hsome (hclean.mp h)) (Or.inl ⟨fd, hr⟩)
          (fun _ ↦ Iff.rfl) fun _ ↦ Registry.has_withdraw hr⟩

theorem addEvent_heapStep (hR : s.Represents R) (ref : Option IoloopEventDesc)
    (fault : Option AddFault) :
    ∃ R', (s.iolAddEvent ref fault).1.Represents R' ∧
      HeapStep s R True (s.iolAddEvent ref fault).1 R' := by
  obtain ⟨-, hext, hdescs, hevs⟩ | ⟨desc, -, -, habsent, -, heq⟩ := hR.iolAddEvent ref fault
  · refine ⟨R, hR.extend hext, .quiet trivial (fun a ↦ ?_) (fun a ↦ ?_) fun _ ↦ Iff.rfl⟩
    · rw [hevs]
    · rw [hdescs]
  · rw [heq]
    refine ⟨_, hR.register habsent, .added trivial (fun a ↦ ?_) (fun _ ↦ Arena.alloc_isSome)
      fun _ ↦ Registry.has_register habsent⟩
    exact Arena.store_isSome.trans Arena.alloc_isSome

/-- The end of a clean-up frees the event and the copy of the innermost removal. -/
theorem cleanReturn_heapStep (hR : s.Represents R) {ev : ℕ} {cleans : List ℕ}
    (hcleans : s.cleans = ev :: cleans) :
    HeapStep s R True ({ s with cleans := cleans }.iolCleanReturn ev) R.release := by
  obtain ⟨r, leaving, hleaving, -, -, heq⟩ := hR.iolCleanReturn_eq hcleans
  rw [heq]
  exact .released r trivial (Or.inr (by simp [hleaving])) (fun _ ↦ Arena.free_isSome)
    (fun _ ↦ Arena.free_isSome) fun _ ↦ Registry.has_release hleaving

end Represents

theorem next_heapStep (s : IolState) (R : Registry) (junk : IoloopEventDesc)
    (vec : List EpollEvent) : HeapStep s R True (s.iolMainLoopNext junk vec) R := by
  have hquiet : ∀ loop, HeapStep s R True { s with loop := loop } R := fun _ ↦
    .quiet trivial (fun _ ↦ Iff.rfl) (fun _ ↦ Iff.rfl) fun _ ↦ Iff.rfl
  unfold iolMainLoopNext
  split
  next => exact hquiet _
  next event vec =>
  split
  next => exact hquiet _
  next curr hdata =>
  dsimp only
  split
  next => exact .quiet trivial (fun _ ↦ Iff.rfl) (fun _ ↦ Arena.store_isSome) fun _ ↦ Iff.rfl
  next => exact hquiet _

/-- The file descriptor that the step passes to `iol_del_event`. -/
def removedFd (s : IolState) : IolOp → Option ℤ
  | .delEvent fd => some fd
  | .funcReturn ret junk =>
      match s.loop with
      | .inFunc curr _ => if ret ≤ 0 then some (s.load curr junk).iolFd else none
      | _ => none
  | _ => none

/-- The step removes no registration without an `iol_clean`. -/
def CleansUp (s : IolState) (op : IolOp) : Prop :=
  ∀ fd, s.removedFd op = some fd → s.FreesBoth fd

theorem Represents.heapStep {op : IolOp} (hR : s.Represents R) (hrespects : s.Respects op)
    (hstep : s.step op = some t) :
    ∃ R', t.Represents R' ∧ HeapStep s R (s.CleansUp op) t R' := by
  have hcases := step_cases hstep
  have hquiet : HeapStep s R True s R :=
    .quiet trivial (fun _ ↦ Iff.rfl) (fun _ ↦ Iff.rfl) fun _ ↦ Iff.rfl
  -- steps that call no `iol_del_event`
  have hnone : s.removedFd op = none → (s.CleansUp op ↔ True) := by
    intro hnone
    unfold CleansUp
    rw [hnone]
    simp
  cases op with
  | addEvent ref fault =>
      obtain ⟨R', hR', hheap⟩ := hR.addEvent_heapStep ref fault
      rw [hcases.2]
      exact ⟨R', hR', hheap.setLoop s.loop (hnone rfl)⟩
  | delEvent fd =>
      obtain ⟨R', hR', hheap⟩ := hR.delEvent_heapStep fd
      rw [hcases.2]
      refine ⟨R', hR', hheap.setLoop s.loop ?_⟩
      simp [CleansUp, removedFd]
  | write desc content =>
      obtain ⟨⟨-, hlive⟩, rfl⟩ := hcases
      exact ⟨R, hR.write hlive hrespects, .quiet ((hnone rfl).mpr trivial)
        (fun _ ↦ Iff.rfl) (fun _ ↦ Arena.store_isSome) fun _ ↦ Iff.rfl⟩
  | close fd =>
      rw [hcases.2, epollCtlDel_absent hrespects]
      exact ⟨R, hR, hquiet.setLoop s.loop (hnone rfl)⟩
  | wait ready =>
      have ht := hcases.2
      unfold iolMainLoopWait at ht
      obtain ⟨vec, -, rfl⟩ := Option.map_eq_some_iff.mp ht
      refine ⟨R, hR.wait hcases.2, ?_⟩
      split
      next => exact hquiet.setLoop s.loop (hnone rfl)
      next =>
        exact .quiet ((hnone rfl).mpr trivial) (fun _ ↦ Iff.rfl) (fun _ ↦ Iff.rfl) fun _ ↦ Iff.rfl
  | next junk =>
      obtain ⟨-, vec, -, rfl⟩ := hcases
      exact ⟨R, hR.next junk vec, (next_heapStep s R junk vec).setLoop s.loop (hnone rfl)⟩
  | funcReturn ret junk =>
      obtain ⟨-, curr, vec, hloop, rfl⟩ := hcases
      unfold iolMainLoopReturn
      dsimp only
      split
      next hret =>
        obtain ⟨R', hR', hheap⟩ :=
          (hR.setLoop (.next vec)).delEvent_heapStep (s.load curr junk).iolFd
        refine ⟨R', hR', hheap.setLoop _ ?_⟩
        simp only [CleansUp, removedFd, hloop, if_pos hret, Option.some.injEq, forall_eq']
        exact Iff.rfl
      next hret =>
        refine ⟨R, hR.setLoop _, .quiet ((hnone ?_).mpr trivial) (fun _ ↦ Iff.rfl)
          (fun _ ↦ Iff.rfl) fun _ ↦ Iff.rfl⟩
        simp only [removedFd, hloop, if_neg hret]
  | cleanReturn =>
      obtain ⟨ev, cleans, hcleans, rfl⟩ := hcases
      exact ⟨_, hR.release hcleans,
        (hR.cleanReturn_heapStep hcleans).setLoop s.loop (hnone rfl)⟩

/-- A step keeps the balance if it frees what it removes, and no later step makes up for it. -/
theorem Represents.balanced_step {op : IolOp} (hR : s.Represents R) (hrespects : s.Respects op)
    (hstep : s.step op = some t) : t.Balanced ↔ s.Balanced ∧ s.CleansUp op := by
  obtain ⟨R', hR', hheap⟩ := hR.heapStep hrespects hstep
  rw [hR'.balanced_iff, hR.balanced_iff]
  exact hheap.accounts_iff hR

/-! ## Runs -/

/-- Both records are there, and `t` is without them. -/
structure FreesRecords (s t : IolState) (ev desc : ℕ) : Prop where
  ev_live : (s.evs.cell ev).isSome
  desc_live : (s.descs.cell desc).isSome
  evs : t.evs = s.evs.free ev
  descs : t.descs = s.descs.free desc

theorem init_balanced : init.Balanced :=
  init_represents.balanced_iff.mpr ⟨fun _ ha ↦ (by cases ha), fun _ ha ↦ (by cases ha)⟩

/-- The heap records are exactly those of the registrations if and only if no registration without
an `iol_clean` was removed.  A failed `iol_add_event` leaves no record; a removal frees the event,
and the copy only after an `iol_clean`, both of them once. -/
theorem heap_run_balanced_iff (hrun : Guarded IolState.step Respects init s) :
    (s.Balanced ↔ Guarded IolState.step (fun s op ↦ s.Respects op ∧ s.CleansUp op) init s) ∧
    (∀ ref fault, (s.iolAddEvent ref fault).2 = -1 →
      (s.iolAddEvent ref fault).1.evs.cell = s.evs.cell ∧
      (s.iolAddEvent ref fault).1.descs.cell = s.descs.cell) ∧
    (∀ fd ev, s.tfind fd = some ev → ∃ desc, s.dataOf ev = some desc ∧
      (s.evs.cell ev).isSome ∧ (s.descs.cell desc).isSome ∧
      if ((s.descOf ev).bind IoloopEventDesc.iolClean).isSome then
        (s.iolDelEvent fd).1.evs = s.evs ∧ (s.iolDelEvent fd).1.descs = s.descs ∧
          (s.iolDelEvent fd).1.cleans = ev :: s.cleans
      else (s.iolDelEvent fd).1.evs = s.evs.free ev ∧ (s.iolDelEvent fd).1.descs = s.descs) ∧
    ∀ ev cleans, s.cleans = ev :: cleans → ∃ desc, s.dataOf ev = some desc ∧
      s.FreesRecords ({ s with cleans := cleans }.iolCleanReturn ev) ev desc := by
  obtain ⟨R, hR⟩ := run_represents hrun
  refine ⟨⟨fun hbalanced ↦ ?_, fun hclean ↦ ?_⟩, fun ref fault hret ↦ ?_, fun fd ev hev ↦ ?_,
    fun ev cleans hcleans ↦ ?_⟩
  · -- a balanced state is reached by balanced states only
    clear hR
    induction hrun with
    | refl => exact .refl
    | next op hrun hrespects hstep ih =>
        obtain ⟨R', hR'⟩ := run_represents hrun
        obtain ⟨hbefore, hclean⟩ := (hR'.balanced_step hrespects hstep).mp hbalanced
        exact (ih hbefore).next op ⟨hrespects, hclean⟩ hstep
  · have hinvariant : s.Balanced ∧ ∃ R, s.Represents R := by
      apply hclean.invariant (I := fun s ↦ s.Balanced ∧ ∃ R, s.Represents R)
        ⟨init_balanced, _, init_represents⟩
      intro s op t hinv hallow hstep
      obtain ⟨hbalanced, R, hR⟩ := hinv
      exact ⟨(hR.balanced_step hallow.1 hstep).mpr ⟨hbalanced, hallow.2⟩,
        hR.step hallow.1 hstep⟩
    exact hinvariant.1
  · obtain ⟨-, -, hdescs, hevs⟩ | ⟨desc, -, -, -, hzero, -⟩ := hR.iolAddEvent ref fault
    · exact ⟨hevs, hdescs⟩
    · rw [hzero] at hret
      cases hret
  · rw [hR.tfind_eq] at hev
    obtain ⟨r, hr, rfl⟩ := Option.map_eq_some_iff.mp hev
    have hhas : R.Has r := Or.inl ⟨fd, hr⟩
    refine ⟨r.desc, hR.has_dataOf hhas, hR.ev_isSome hhas, hR.desc_isSome hhas, ?_⟩
    rw [hR.iolDelEvent_present hr, hR.iolDelInternalEvent_eq hr]
    split
    next => exact ⟨rfl, rfl, rfl⟩
    next => exact ⟨rfl, rfl⟩
  · obtain ⟨r, leaving, hleaving, rfl, -, heq⟩ := hR.iolCleanReturn_eq hcleans
    have hhas : R.Has r := Or.inr (by simp [hleaving])
    refine ⟨r.desc, hR.has_dataOf hhas, hR.ev_isSome hhas, hR.desc_isSome hhas, ?_, ?_⟩
    · rw [heq]
    · rw [heq]

/-- File descriptor 3 is registered and removed with its clean-up, and the registration of 4 fails
in `tsearch` before it succeeds. -/
theorem heap_run_balanced_iff_cleaned :
    ∃ s : IolState, s.cleans = [] ∧ s.descs.brk = 3 ∧ s.Balanced := by
  let s₁ := (init.iolAddEvent (some (cleaned 3 0)) none).1
  let s₂ := (s₁.iolAddEvent (some (watched 4)) (some .tsearch)).1
  let s₃ := (s₂.iolDelEvent 3).1
  let s₄ := (s₃.iolAddEvent (some (watched 4)) none).1
  let s₅ := { s₄ with cleans := [] }.iolCleanReturn 0
  have hclean : s₂.CleansUp (.delEvent 3) := by
    intro fd hfd ev hev
    cases hfd
    cases hev
    rfl
  have hrun : ∀ allow : IolState → IolOp → Prop, (∀ s op, s.Respects op → s.CleansUp op →
      allow s op) → Guarded IolState.step allow init s₅ := by
    intro allow hallow
    refine Guarded.next .cleanReturn (t := s₄) ?_ (hallow _ _ trivial fun _ h ↦ by cases h) rfl
    refine Guarded.next (.addEvent (some (watched 4)) none) (t := s₃) ?_
      (hallow _ _ trivial fun _ h ↦ by cases h) rfl
    refine Guarded.next (.delEvent 3) (t := s₂) ?_ (hallow _ _ trivial hclean) rfl
    refine Guarded.next (.addEvent (some (watched 4)) (some .tsearch)) (t := s₁) ?_
      (hallow _ _ trivial fun _ h ↦ by cases h) rfl
    exact Guarded.next (.addEvent (some (cleaned 3 0)) none) .refl
      (hallow _ _ trivial fun _ h ↦ by cases h) rfl
  have hbalanced := (heap_run_balanced_iff (hrun _ fun _ _ h _ ↦ h)).1.mpr
    (hrun _ fun _ _ h h' ↦ ⟨h, h'⟩)
  exact ⟨s₅, rfl, rfl, hbalanced⟩

/-- A descriptor without a clean-up is registered and removed: its copy stays. -/
theorem heap_run_not_balanced :
    ¬ ∀ s, Guarded IolState.step (fun _ op ↦ (∃ ref fault, op = .addEvent ref fault) ∨
      ∃ fd, op = .delEvent fd) init s → s.Balanced := by
  intro hclaim
  let s₁ := (init.iolAddEvent (some (watched 3)) none).1
  let s₂ := (s₁.iolDelEvent 3).1
  have hadd : Guarded IolState.step (fun _ op ↦ (∃ ref fault, op = .addEvent ref fault) ∨
      ∃ fd, op = .delEvent fd) init s₁ :=
    Guarded.refl.next (.addEvent (some (watched 3)) none) (Or.inl ⟨_, _, rfl⟩) rfl
  have hdel := hadd.next (u := s₂) (.delEvent 3) (Or.inr ⟨3, rfl⟩) rfl
  have hcopy : (s₂.descs.cell 0).isSome := rfl
  obtain ⟨ev, hroot | hcleans, -⟩ := ((hclaim s₂ hdel).descs 0).mp hcopy
  · exact absurd hroot List.not_mem_nil
  · exact absurd hcleans List.not_mem_nil

end IolState

end Divers.IoLoop
