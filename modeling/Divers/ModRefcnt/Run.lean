import Divers.ModRefcnt.Model

/-! Loads and unloads in a row: what is registered agrees with whether the module is loaded, until
`device_create` fails or the module is unloaded. -/

open Divers.Library

namespace Divers.ModRefcnt

/-- `device_create` does not fail after the other calls succeeded. -/
def Answers.DeviceCreated (answers : Answers) : Prop :=
  ∀ dnum ptr, answers.allocChrdevRegion = .ok dnum → answers.classCreate = .ok ptr →
    answers.cdevAdd = .ok () → ∃ device, answers.deviceCreate = .ok device

namespace Module

variable {s t : Module} {op : Op} {answers : Answers}

/-- The range, the class, the character device and the device of the driver are registered. -/
def AllRegistered (s : Module) : Prop :=
  ∃ ptr, s.lbridgenDriver.lbclass = .addr ptr ∧
    .region s.lbridgenDriver.lbdnum ∈ s.registered ∧ .class ptr ∈ s.registered ∧
    .cdev ∈ s.registered ∧ .device ptr s.lbridgenDriver.lbdnum ∈ s.registered

/-- `resget_init` returned 0 exactly when everything is registered, nothing is after a failed load
or an unload, and nothing was released that was not registered. -/
structure Sound (s : Module) : Prop where
  loaded_iff : s.loaded = true ↔ s.AllRegistered
  unloaded : s.loaded = false → s.registered = []
  stray : s.stray = []

def Clean (_ : Module) : Op → Prop
  | .load answers => answers.DeviceCreated
  | .unload => False

/-! ## What is registered -/

/-- The module before it is loaded, and after a load that succeeded. -/
inductive Standing : Module → Prop
  | unloaded (driver : LbridgenDriver) : Standing ⟨driver, false, [], []⟩
  | loaded (dnum : DevT) (ptr : ℕ) (device : Pointer) :
      Standing ⟨⟨dnum, .addr ptr, device⟩, true,
        [.device ptr dnum, .cdev, .class ptr, .region dnum], []⟩

theorem Standing.sound (h : s.Standing) : s.Sound := by
  cases h with
  | unloaded driver =>
      refine ⟨?_, fun _ ↦ rfl, rfl⟩
      constructor
      · nofun
      · intro hexists
        obtain ⟨ptr, -, hregion, -⟩ := hexists
        cases hregion
  | loaded dnum ptr device =>
      refine ⟨iff_of_true rfl ⟨ptr, rfl, ?_⟩, nofun, rfl⟩
      simp

/-! ### The error handler -/

theorem release_head {r : Resource} {l : List Resource} (h : s.registered = r :: l) :
    s.release r = { s with registered := l } := by
  rw [release, h, if_pos List.mem_cons_self, List.erase_cons_head]

section Handler

variable (driver : LbridgenDriver) (dnum : DevT) (ptr : ℕ) (device : Pointer) (ret : ℤ)

theorem chrdevClassCreateErr_eq :
    chrdevClassCreateErr ⟨driver, false, [.region driver.lbdnum], []⟩ ret =
      (ret, ⟨driver, false, [], []⟩) := by
  rw [chrdevClassCreateErr, unregisterChrdevRegion, release_head rfl]

theorem chrdevChardevAddError_eq :
    chrdevChardevAddError ⟨⟨dnum, .addr ptr, device⟩, false, [.class ptr, .region dnum], []⟩ ret =
      (ret, ⟨⟨dnum, .addr ptr, device⟩, false, [], []⟩) := by
  unfold chrdevChardevAddError classDestroy
  dsimp only
  rw [release_head rfl]
  exact chrdevClassCreateErr_eq ⟨dnum, .addr ptr, device⟩ ret

theorem chrdevDeviceCreateErr_eq :
    chrdevDeviceCreateErr ⟨⟨dnum, .addr ptr, device⟩, false, [.cdev, .class ptr, .region dnum], []⟩
      ret = (ret, ⟨⟨dnum, .addr ptr, device⟩, false, [], []⟩) := by
  rw [chrdevDeviceCreateErr, cdevDel, release_head rfl]
  exact chrdevChardevAddError_eq dnum ptr device ret

end Handler

/-! ### A load -/

/-- `resget_create_char_device` registers everything and returns 0, or nothing: then it returns an
error code, except that it returns 0 if it was `device_create` that failed. -/
theorem resgetCreateCharDevice_cases (driver : LbridgenDriver) (answers : Answers) :
    (answers.DeviceCreated ∧ ∃ ret driver', ret ≠ 0 ∧
        resgetCreateCharDevice ⟨driver, false, [], []⟩ answers = (ret, ⟨driver', false, [], []⟩)) ∨
    (answers.DeviceCreated ∧ ∃ dnum ptr device,
        resgetCreateCharDevice ⟨driver, false, [], []⟩ answers =
          (0, ⟨⟨dnum, .addr ptr, device⟩, false,
            [.device ptr dnum, .cdev, .class ptr, .region dnum], []⟩)) ∨
    (¬ answers.DeviceCreated ∧ ∃ driver',
        resgetCreateCharDevice ⟨driver, false, [], []⟩ answers =
          (0, ⟨driver', false, [], []⟩)) := by
  rcases answers with ⟨allocChrdevRegion, classCreate, cdevAdd, deviceCreate⟩
  cases allocChrdevRegion with
  | error code => exact Or.inl ⟨nofun, code, driver, code.2, rfl⟩
  | ok dnum =>
      cases classCreate with
      | error code =>
          exact Or.inl ⟨nofun, -enomem, _, by decide,
            chrdevClassCreateErr_eq ⟨dnum, .err code, driver.device⟩ (-enomem)⟩
      | ok ptr =>
          cases cdevAdd with
          | error code =>
              exact Or.inl ⟨nofun, code, _, code.2,
                chrdevChardevAddError_eq dnum ptr driver.device code⟩
          | ok =>
              cases deviceCreate with
              | error code =>
                  refine Or.inr (Or.inr ⟨fun hcreated ↦ ?_, _,
                    chrdevDeviceCreateErr_eq dnum ptr (.err code) 0⟩)
                  rcases hcreated dnum ptr rfl rfl rfl with ⟨device, hdevice⟩
                  cases hdevice
              | ok device =>
                  exact Or.inr (Or.inl
                    ⟨fun _ _ _ _ _ ↦ ⟨device, rfl⟩, dnum, ptr, .addr device, rfl⟩)

/-- After a load without that failure the module is as `Standing` says, and after one with it the
module is loaded with nothing registered. -/
theorem load_unloaded (driver : LbridgenDriver) (answers : Answers) :
    (answers.DeviceCreated ∧ (load ⟨driver, false, [], []⟩ answers).Standing) ∨
      (¬ answers.DeviceCreated ∧ ¬ (load ⟨driver, false, [], []⟩ answers).Sound) := by
  unfold load resgetInit
  rcases resgetCreateCharDevice_cases lbridgenDriverInitializer answers with
    ⟨hcreated, ret, driver', hret, heq⟩ | ⟨hcreated, dnum, ptr, device, heq⟩ |
      ⟨hfailed, driver', heq⟩
  · refine Or.inl ⟨hcreated, ?_⟩
    simp only [heq, ne_eq, hret, not_false_eq_true, if_true, decide_false]
    exact .unloaded driver'
  · refine Or.inl ⟨hcreated, ?_⟩
    simp only [heq, ne_eq, not_true_eq_false, if_false, decide_true]
    exact .loaded dnum ptr device
  · refine Or.inr ⟨hfailed, ?_⟩
    simp only [heq, ne_eq, not_true_eq_false, if_false, decide_true]
    intro hsound
    -- the module is loaded, and its class is not registered
    rcases hsound.loaded_iff.mp rfl with ⟨ptr, -, hregion, -⟩
    cases hregion

/-! ### An unload -/

/-- `resget_exit` gives back all but the device numbers. -/
theorem unload_loaded (dnum : DevT) (ptr : ℕ) (device : Pointer) :
    unload ⟨⟨dnum, .addr ptr, device⟩, true,
        [.device ptr dnum, .cdev, .class ptr, .region dnum], []⟩ =
      ⟨⟨dnum, .addr ptr, device⟩, false, [.region dnum], []⟩ := by
  simp [unload, resgetExit, cdevDel, deviceDestroy, classDestroy, release]

/-! ## Runs -/

theorem Standing.step (h : s.Standing) (hstep : s.step op = some t) :
    (s.Clean op ∧ t.Standing) ∨ (¬ s.Clean op ∧ ¬ t.Sound) := by
  cases op with
  | load answers =>
      unfold Module.step at hstep
      dsimp only at hstep
      split at hstep
      next hload =>
        cases hstep
        cases h with
        | unloaded driver => exact load_unloaded driver answers
        | loaded => cases hload.1
      next => cases hstep
  | unload =>
      unfold Module.step at hstep
      dsimp only at hstep
      split at hstep
      next hload =>
        cases hstep
        cases h with
        | unloaded => cases hload
        | loaded dnum ptr device =>
            refine Or.inr ⟨id, ?_⟩
            rw [unload_loaded]
            intro hsound
            cases hsound.unloaded rfl
      next => cases hstep

/-- As long as no load has only `device_create` fail and the module is not unloaded, what is
registered agrees with what `resget_init` returned, and the first step that does either ends
that. -/
theorem module_run_sound (hrun : Guarded step Clean init s) :
    s.Sound ∧ ∀ op t, s.step op = some t → (t.Sound ↔ s.Clean op) := by
  have hstanding : s.Standing := by
    apply hrun.invariant (I := Standing) (.unloaded _)
    intro s op t h hclean hstep
    rcases h.step hstep with ⟨-, ht⟩ | ⟨hnot, -⟩
    · exact ht
    · exact absurd hclean hnot
  refine ⟨hstanding.sound, fun op t hstep ↦ ?_⟩
  rcases hstanding.step hstep with ⟨hclean, ht⟩ | ⟨hnot, ht⟩
  · exact iff_of_true ht.sound hclean
  · exact iff_of_false ht hnot

/-- All calls of the load succeed. -/
def granted : Answers := ⟨.ok 1, .ok 2, .ok (), .ok 3⟩

theorem module_run_sound_loaded :
    (init.load granted).Sound ∧ (init.load granted).loaded = true := by
  have hclean : init.Clean (.load granted) := fun _ _ _ _ _ ↦ ⟨3, rfl⟩
  exact ⟨(module_run_sound (.next (.load granted) .refl hclean rfl)).1, rfl⟩

/-- A load and an unload: the device numbers stay registered. -/
theorem module_run_not_sound :
    ¬ ∀ s, Reachable step init s → s.Sound := by
  intro hclaim
  have hrun : Reachable step init (init.load granted).unload :=
    (Guarded.refl.next (.load granted) trivial rfl).next .unload trivial rfl
  exact absurd ((hclaim _ hrun).unloaded rfl) (by decide)

end Module

end Divers.ModRefcnt
