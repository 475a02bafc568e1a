import Divers.Dso.Model
import Divers.Library.Transition

/-! Calls on one descriptor in a row.  Neither `dso_plugin_exit` nor the error handling of
`dso_plugin_init` takes the handle that it closes out of the descriptor, which is the only record of
what is open. -/

open Divers.Library Divers.Library.HandleEvent

namespace Divers.Dso

namespace Plugin

variable {s : Plugin} {file ent : List UInt8} {dl : Dl} {vmem : ℕ}

/-- Nothing is closed twice, and behind a failed `dso_plugin_init` the descriptor holds nothing that
is open and nothing that `dso_plugin_exit` would close. -/
structure Sound (s : Plugin) : Prop where
  once : ∀ h, timesClosed s.log h ≤ timesOpened s.log h
  balanced : Balanced s.log
  failed : s.lastRet = some (-1) →
    (∀ h, s.desc.dsoVmem = some h → ¬ IsOpen s.log h) ∧
      dsoPluginExit (some s.desc) s.log = s.log

/-- The calls after which nothing is wrong: the handle of the descriptor is open where it is closed,
an argument is NULL only where the descriptor has no handle, and what is opened has the symbol. -/
def Orderly (s : Plugin) : Call → Prop
  | .exit => ∀ h, s.desc.dsoVmem = some h → IsOpen s.log h
  | .init (some file) (some ent) dl => ∀ h, dl.dlopen file = some h → dl.dlsym h ent ≠ none
  | .init _ _ _ => s.desc.dsoVmem = none

/-! ## One call -/

theorem dsoPluginExit_eq_self :
    dsoPluginExit (some s.desc) s.log = s.log ↔ s.desc.dsoVmem = none := by
  unfold dsoPluginExit
  dsimp only
  cases s.desc.dsoVmem with
  | none => exact iff_of_true rfl rfl
  | some vmem => exact iff_of_false (List.cons_ne_self _ _) (Option.some_ne_none vmem)

/-- Behind a failed call the descriptor has to be empty. -/
theorem sound_failed_iff (hret : s.lastRet = some (-1)) :
    s.Sound ↔ Balanced s.log ∧ s.desc.dsoVmem = none := by
  constructor
  · intro h
    exact ⟨h.balanced, dsoPluginExit_eq_self.mp (h.failed hret).2⟩
  · intro h
    refine ⟨h.1.timesClosed_le, h.1, fun _ ↦ ⟨fun vmem hvmem ↦ ?_, dsoPluginExit_eq_self.mpr h.2⟩⟩
    rw [h.2] at hvmem
    cases hvmem

theorem sound_iff (hret : s.lastRet ≠ some (-1)) : s.Sound ↔ Balanced s.log :=
  ⟨fun h ↦ h.balanced, fun h ↦ ⟨h.timesClosed_le, h, fun hfailed ↦ absurd hfailed hret⟩⟩

theorem next_null {file ent : Option (List UInt8)} (h : file = none ∨ ent = none) :
    s.next (.init file ent dl) = ⟨s.desc, s.log, some (-1)⟩ := by
  cases file with
  | none => rfl
  | some file =>
      cases ent with
      | none => rfl
      | some ent => simp at h

theorem next_dlopen_none (h : dl.dlopen file = none) :
    s.next (.init (some file) (some ent) dl) = ⟨⟨none, s.desc.dsoVsym⟩, s.log, some (-1)⟩ := by
  unfold next dsoPluginInit
  simp [h]

theorem next_dlsym_none (h : dl.dlopen file = some vmem) (hsym : dl.dlsym vmem ent = none) :
    s.next (.init (some file) (some ent) dl) =
      ⟨⟨some vmem, none⟩, .closed vmem :: .opened vmem :: s.log, some (-1)⟩ := by
  unfold next dsoPluginInit
  simp [h, hsym]

theorem next_opened {vsym : ℕ} (h : dl.dlopen file = some vmem)
    (hsym : dl.dlsym vmem ent = some vsym) :
    s.next (.init (some file) (some ent) dl) =
      ⟨⟨some vmem, some vsym⟩, .opened vmem :: s.log, some 0⟩ := by
  unfold next dsoPluginInit
  simp [h, hsym]

/-- A call keeps things right exactly if it is orderly. -/
theorem next_sound_iff (s : Plugin) (call : Call) (h : s.Sound) :
    (s.next call).Sound ↔ s.Orderly call := by
  have hbalanced := h.balanced
  cases call with
  | exit =>
      rw [sound_iff (by nofun)]
      show Balanced (dsoPluginExit (some s.desc) s.log) ↔ ∀ h, s.desc.dsoVmem = some h → _
      unfold dsoPluginExit
      dsimp only
      cases s.desc.dsoVmem with
      | none => exact iff_of_true hbalanced nofun
      | some vmem =>
          constructor
          · intro hclosed h hvmem
            cases hvmem
            exact hclosed.1
          · intro hopen
            exact ⟨hopen vmem rfl, hbalanced⟩
  | init file ent dl =>
      cases file with
      | none =>
          rw [next_null (.inl rfl), sound_failed_iff rfl]
          exact and_iff_right hbalanced
      | some file =>
          cases ent with
          | none =>
              rw [next_null (.inr rfl), sound_failed_iff rfl]
              exact and_iff_right hbalanced
          | some ent =>
              -- `dlopen` overwrites what the descriptor held, whatever it was
              show _ ↔ ∀ h, dl.dlopen file = some h → dl.dlsym h ent ≠ none
              cases hopen : dl.dlopen file with
              | none =>
                  rw [next_dlopen_none hopen, sound_failed_iff rfl]
                  exact iff_of_true ⟨hbalanced, rfl⟩ nofun
              | some vmem =>
                  cases hsym : dl.dlsym vmem ent with
                  | none =>
                      -- the closed handle stays in the descriptor
                      rw [next_dlsym_none hopen hsym, sound_failed_iff rfl]
                      exact iff_of_false (fun hsound ↦ by cases hsound.2) fun hall ↦
                        hall vmem rfl hsym
                  | some vsym =>
                      rw [next_opened hopen hsym, sound_iff (by nofun)]
                      refine iff_of_true hbalanced fun h hh hnone ↦ ?_
                      cases hh
                      rw [hsym] at hnone
                      cases hnone

theorem start_sound : start.Sound := ⟨fun _ ↦ Nat.le_refl 0, trivial, nofun⟩

/-- In every run the handles are accounted for, in all of its states, exactly if all of its calls
are orderly. -/
theorem dsoPlugin_run_iff (calls : List Call) :
    HoldsAlong next Sound start calls ↔ EachStep next Orderly start calls :=
  holdsAlong_iff next_sound_iff start_sound

def loads : Dl := ⟨fun _ ↦ some 7, fun _ _ ↦ some 8⟩

def noSymbol : Dl := ⟨fun _ ↦ some 7, fun _ _ ↦ none⟩

/-- The second of two calls of `dso_plugin_exit` closes the handle again, and so does the one behind
a `dso_plugin_init` whose `dlsym` failed; a NULL argument leaves the handle to be closed. -/
theorem dsoPlugin_closes_again :
    ((start.next (.init (some []) (some []) loads)).next .exit).next .exit =
        ⟨⟨some 7, some 8⟩, [.closed 7, .closed 7, .opened 7], none⟩ ∧
      (start.next (.init (some []) (some []) noSymbol)).next .exit =
        ⟨⟨some 7, none⟩, [.closed 7, .closed 7, .opened 7], none⟩ ∧
      ¬ HoldsAlong next Sound start [.init (some []) (some []) loads, .exit, .exit] ∧
      ¬ HoldsAlong next Sound start [.init (some []) (some []) noSymbol] ∧
      ¬ HoldsAlong next Sound start
        [.init (some []) (some []) loads, .init none (some []) loads] := by
  refine ⟨rfl, rfl, fun h ↦ ?_, fun h ↦ ?_, fun h ↦ ?_⟩
  · exact absurd (h.2.2.2.once 7) (by decide)
  · exact absurd (h.2.failed rfl).2 (by decide)
  · exact absurd (h.2.2.failed rfl).2 (by decide)

end Plugin

end Divers.Dso
