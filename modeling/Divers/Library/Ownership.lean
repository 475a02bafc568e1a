import Divers.Library.HandleLog
import Mathlib.Logic.Function.Basic

/-!
# Who holds what is open

The books on a log of handles: every handle that is open is open once, and either one key holds it
or it is lost, that is, nobody will close it.
-/

namespace Divers.Library

open HandleEvent

variable {η ι : Type*} {held : ι → List η} {lost : List η} {h h' : η} {i : ι}

def Owned (held : ι → List η) (lost : List η) (h : η) : Prop := h ∈ lost ∨ ∃ i, h ∈ held i

theorem owned_update_cons [DecidableEq ι] :
    Owned (Function.update held i (h :: held i)) lost h' ↔ h' = h ∨ Owned held lost h' := by
  unfold Owned
  constructor
  · rintro (hlost | ⟨j, hmem⟩)
    · exact Or.inr (Or.inl hlost)
    · by_cases hj : j = i
      · subst hj
        rw [Function.update_self, List.mem_cons] at hmem
        exact hmem.imp_right fun hmem ↦ Or.inr ⟨j, hmem⟩
      · rw [Function.update_of_ne hj] at hmem
        exact Or.inr (Or.inr ⟨j, hmem⟩)
  · rintro (rfl | hlost | ⟨j, hmem⟩)
    · exact Or.inr ⟨i, by rw [Function.update_self]; exact List.mem_cons_self⟩
    · exact Or.inl hlost
    · refine Or.inr ⟨j, ?_⟩
      by_cases hj : j = i
      · subst hj
        rw [Function.update_self]
        exact List.mem_cons_of_mem h hmem
      · rwa [Function.update_of_ne hj]

variable [DecidableEq η] {log : List (HandleEvent η)}

structure Accounts (held : ι → List η) (lost : List η) (log : List (HandleEvent η)) : Prop where
  balanced : Balanced log
  owned : ∀ h, Owned held lost h → timesOpened log h = timesClosed log h + 1
  not_owned : ∀ h, ¬ Owned held lost h → timesOpened log h = timesClosed log h
  nodup : ∀ i, (held i).Nodup
  apart : ∀ {i j h}, h ∈ held i → h ∈ held j → i = j
  lost_apart : ∀ {i h}, h ∈ held i → h ∉ lost

theorem timesOpened_opened_self (log : List (HandleEvent η)) (h : η) :
    timesOpened (opened h :: log) h = timesOpened log h + 1 := List.count_cons_self

theorem timesOpened_opened_of_ne (hne : h' ≠ h) (log : List (HandleEvent η)) :
    timesOpened (opened h :: log) h' = timesOpened log h' :=
  List.count_cons_of_ne (by simpa using hne.symm)

theorem timesClosed_closed_of_ne (hne : h' ≠ h) (log : List (HandleEvent η)) :
    timesClosed (closed h :: log) h' = timesClosed log h' :=
  List.count_cons_of_ne (by simpa using hne.symm)

theorem isOpen_opened_of_ne (hne : h' ≠ h) : IsOpen (opened h :: log) h' ↔ IsOpen log h' := by
  unfold HandleEvent.IsOpen
  rw [timesOpened_opened_of_ne hne, timesClosed_opened]

namespace Accounts

theorem none : Accounts (fun _ : ι ↦ ([] : List η)) [] [] where
  balanced := trivial
  owned h hown := by simp [Owned] at hown
  not_owned _ _ := rfl
  nodup _ := List.nodup_nil
  apart hmem := by cases hmem
  lost_apart hmem := by cases hmem

theorem isOpen_iff (hacc : Accounts held lost log) (h : η) :
    IsOpen log h ↔ Owned held lost h := by
  unfold HandleEvent.IsOpen
  by_cases hown : Owned held lost h
  · have := hacc.owned h hown
    exact iff_of_true (by omega) hown
  · have := hacc.not_owned h hown
    exact iff_of_false (by omega) hown

theorem timesOpened_le (hacc : Accounts held lost log) (h : η) :
    timesOpened log h ≤ timesClosed log h + 1 := by
  by_cases hown : Owned held lost h
  · exact Nat.le_of_eq (hacc.owned h hown)
  · exact Nat.le_succ_of_le (Nat.le_of_eq (hacc.not_owned h hown))

/-- A handle nobody will close. -/
theorem lose (hacc : Accounts held lost log) (hnew : ¬ IsOpen log h) :
    Accounts held (h :: lost) (opened h :: log) := by
  rw [hacc.isOpen_iff] at hnew
  refine ⟨hacc.balanced, fun h' hown ↦ ?_, fun h' hown ↦ ?_, hacc.nodup, hacc.apart,
    fun {i h'} hmem hlost ↦ ?_⟩
  · by_cases hh : h' = h
    · subst hh
      rw [timesOpened_opened_self, timesClosed_opened, hacc.not_owned h' hnew]
    · rw [timesOpened_opened_of_ne hh, timesClosed_opened]
      exact hacc.owned h' (hown.imp_left fun hmem ↦ (List.mem_cons.mp hmem).resolve_left hh)
  · have hh : h' ≠ h := fun hh ↦ hown (Or.inl (hh ▸ List.mem_cons_self))
    rw [timesOpened_opened_of_ne hh, timesClosed_opened]
    exact hacc.not_owned h' fun h ↦ hown (h.imp_left (List.mem_cons_of_mem _))
  · rcases List.mem_cons.mp hlost with rfl | hlost
    · exact hnew (Or.inr ⟨i, hmem⟩)
    · exact hacc.lost_apart hmem hlost

variable [DecidableEq ι]

/-- A key takes a new handle. -/
theorem acquire (hacc : Accounts held lost log) (i : ι) (hnew : ¬ IsOpen log h) :
    Accounts (Function.update held i (h :: held i)) lost (opened h :: log) := by
  rw [hacc.isOpen_iff] at hnew
  have hout : ∀ j, h ∉ held j := fun j hmem ↦ hnew (Or.inr ⟨j, hmem⟩)
  have hmem_update : ∀ {j h'}, h' ∈ Function.update held i (h :: held i) j →
      (h' = h ∧ j = i) ∨ h' ∈ held j := by
    intro j h' hmem
    by_cases hj : j = i
    · subst hj
      rw [Function.update_self, List.mem_cons] at hmem
      exact hmem.imp_left fun hh ↦ ⟨hh, rfl⟩
    · rw [Function.update_of_ne hj] at hmem
      exact Or.inr hmem
  refine ⟨hacc.balanced, fun h' hown ↦ ?_, fun h' hown ↦ ?_, fun j ↦ ?_, fun {j k h'} hj hk ↦ ?_,
    fun {j h'} hj hlost ↦ ?_⟩
  · rw [owned_update_cons] at hown
    by_cases hh : h' = h
    · subst hh
      rw [timesOpened_opened_self, timesClosed_opened, hacc.not_owned h' hnew]
    · rw [timesOpened_opened_of_ne hh, timesClosed_opened]
      exact hacc.owned h' (hown.resolve_left hh)
  · rw [owned_update_cons, not_or] at hown
    rw [timesOpened_opened_of_ne hown.1, timesClosed_opened]
    exact hacc.not_owned h' hown.2
  · by_cases hj : j = i
    · subst hj
      rw [Function.update_self]
      exact List.nodup_cons.mpr ⟨hout j, hacc.nodup j⟩
    · rw [Function.update_of_ne hj]
      exact hacc.nodup j
  · obtain ⟨hj₁, hj₂⟩ | hj := hmem_update hj
    · obtain ⟨-, hk₂⟩ | hk := hmem_update hk
      · exact hj₂.trans hk₂.symm
      · exact absurd (hj₁ ▸ hk) (hout k)
    · obtain ⟨hk₁, -⟩ | hk := hmem_update hk
      · exact absurd (hk₁ ▸ hj) (hout j)
      · exact hacc.apart hj hk
  · obtain ⟨hj₁, -⟩ | hj := hmem_update hj
    · exact hnew (Or.inl (hj₁ ▸ hlost))
    · exact hacc.lost_apart hj hlost

/-- A key closes one of its handles. -/
theorem release (hacc : Accounts held lost log) (hmem : h ∈ held i) :
    Accounts (Function.update held i ((held i).erase h)) lost (closed h :: log) := by
  have hmem_update : ∀ {j h'}, h' ∈ Function.update held i ((held i).erase h) j →
      h' ∈ held j ∧ h' ≠ h := by
    intro j h' hj
    by_cases hji : j = i
    · subst hji
      rw [Function.update_self] at hj
      exact ⟨List.mem_of_mem_erase hj,
        fun hh ↦ (hacc.nodup j).not_mem_erase (hh ▸ hj)⟩
    · rw [Function.update_of_ne hji] at hj
      exact ⟨hj, fun hh ↦ hji (hacc.apart hj (hh ▸ hmem))⟩
  have hkept : ∀ {h'}, h' ≠ h → Owned held lost h' →
      Owned (Function.update held i ((held i).erase h)) lost h' := by
    rintro h' hne (hlost | ⟨j, hj⟩)
    · exact Or.inl hlost
    · refine Or.inr ⟨j, ?_⟩
      by_cases hji : j = i
      · subst hji
        rw [Function.update_self]
        exact (List.mem_erase_of_ne hne).mpr hj
      · rwa [Function.update_of_ne hji]
  have hopen : IsOpen log h := (hacc.isOpen_iff h).mpr (Or.inr ⟨i, hmem⟩)
  refine ⟨⟨hopen, hacc.balanced⟩, fun h' hown ↦ ?_, fun h' hown ↦ ?_, fun j ↦ ?_,
    fun hj hk ↦ hacc.apart (hmem_update hj).1 (hmem_update hk).1,
    fun hj ↦ hacc.lost_apart (hmem_update hj).1⟩
  · have hne : h' ≠ h := by
      rintro rfl
      rcases hown with hlost | ⟨j, hj⟩
      · exact hacc.lost_apart hmem hlost
      · exact (hmem_update hj).2 rfl
    rw [timesOpened_closed, timesClosed_closed_of_ne hne]
    exact hacc.owned h' (hown.imp_right fun ⟨j, hj⟩ ↦ ⟨j, (hmem_update hj).1⟩)
  · by_cases hh : h' = h
    · subst hh
      rw [timesOpened_closed, timesClosed_closed, hacc.owned h' (Or.inr ⟨i, hmem⟩)]
    · rw [timesOpened_closed, timesClosed_closed_of_ne hh]
      exact hacc.not_owned h' fun hown' ↦ hown (hkept hh hown')
  · by_cases hji : j = i
    · subst hji
      rw [Function.update_self]
      exact (hacc.nodup j).erase h
    · rw [Function.update_of_ne hji]
      exact hacc.nodup j

/-- A key closes what it took last. -/
theorem closeNewest (hacc : Accounts (Function.update held i (h :: held i)) lost log) :
    Accounts held lost (closed h :: log) := by
  have hmem : h ∈ Function.update held i (h :: held i) i := by
    rw [Function.update_self]
    exact List.mem_cons_self
  have hclosed := hacc.release hmem
  rwa [Function.update_self, List.erase_cons_head, Function.update_idem,
    Function.update_eq_self] at hclosed

end Accounts

end Divers.Library
