import Divers.Library.Transition
import Mathlib.Data.List.Basic

/-!
# modrefcnt

The character device of `modtest.c`: what `resget_init` registers with the kernel, in which order a
failed load gives it back, and what `resget_exit` gives back.  The answers of the kernel are carried
by the load.  A release of something that is not registered is recorded.
-/

open Divers.Library

namespace Divers.ModRefcnt

/-! ## The kernel -/

abbrev DevT := ℕ

abbrev ErrorCode := { code : ℤ // code ≠ 0 }

/-- What the four calls register: a range of device numbers, a class, the character device of the
driver, and a device in a class. -/
inductive Resource where
  | region (dnum : DevT)
  | class (ptr : ℕ)
  | cdev
  | device (ptr : ℕ) (dnum : DevT)
  deriving DecidableEq, Repr

/-- A pointer, or an error code in its place (`IS_ERR`). -/
inductive Pointer where
  | null
  | err (code : ErrorCode)
  | addr (ptr : ℕ)
  deriving DecidableEq, Repr

/-- `ERR_PTR` of a failed call. -/
def Pointer.ofResult : Except ErrorCode ℕ → Pointer
  | .error code => .err code
  | .ok ptr => .addr ptr

/-- What the calls of one load answer, if they are made. -/
structure Answers where
  allocChrdevRegion : Except ErrorCode DevT
  classCreate : Except ErrorCode ℕ
  cdevAdd : Except ErrorCode Unit
  deviceCreate : Except ErrorCode ℕ
  deriving DecidableEq, Repr

def enomem : ℤ := 12

/-! ## The module -/

structure LbridgenDriver where
  lbdnum : DevT
  lbclass : Pointer
  device : Pointer
  deriving DecidableEq, Repr

/-- `LBRIDGEN_DRIVER_INITIALIZER`; static data that it does not name are zero. -/
def lbridgenDriverInitializer : LbridgenDriver := ⟨0, .null, .null⟩

structure Module where
  lbridgenDriver : LbridgenDriver
  loaded : Bool                 -- `resget_init` has returned 0, and the module is not unloaded
  registered : List Resource
  stray : List Resource         -- released without being registered
  deriving DecidableEq, Repr

namespace Module

def init : Module := ⟨lbridgenDriverInitializer, false, [], []⟩

def register (s : Module) (r : Resource) : Module := { s with registered := r :: s.registered }

def release (s : Module) (r : Resource) : Module :=
  if r ∈ s.registered then { s with registered := s.registered.erase r }
  else { s with stray := r :: s.stray }

def unregisterChrdevRegion (s : Module) : Module := s.release (.region s.lbridgenDriver.lbdnum)

/-- The kernel ignores NULL and error pointers. -/
def classDestroy (s : Module) : Module :=
  match s.lbridgenDriver.lbclass with
  | .addr ptr => s.release (.class ptr)
  | _ => s

def cdevDel (s : Module) : Module := s.release .cdev

def deviceDestroy (s : Module) : Module :=
  match s.lbridgenDriver.lbclass with
  | .addr ptr => s.release (.device ptr s.lbridgenDriver.lbdnum)
  | _ => s

/-! ### `resget_create_char_device` -/

/-- The labels of the error handler, each falling through to the next. -/
def chrdevClassCreateErr (s : Module) (ret : ℤ) : ℤ × Module := (ret, s.unregisterChrdevRegion)

def chrdevChardevAddError (s : Module) (ret : ℤ) : ℤ × Module :=
  s.classDestroy.chrdevClassCreateErr ret

def chrdevDeviceCreateErr (s : Module) (ret : ℤ) : ℤ × Module :=
  s.cdevDel.chrdevChardevAddError ret

def setLbclass (s : Module) (lbclass : Pointer) : Module :=
  { s with lbridgenDriver := { s.lbridgenDriver with lbclass := lbclass } }

def setDevice (s : Module) (device : Pointer) : Module :=
  { s with lbridgenDriver := { s.lbridgenDriver with device := device } }

def setLbdnum (s : Module) (lbdnum : DevT) : Module :=
  { s with lbridgenDriver := { s.lbridgenDriver with lbdnum := lbdnum } }

/-- What it returns, and the module behind it. -/
def resgetCreateCharDevice (s : Module) (answers : Answers) : ℤ × Module :=
  match answers.allocChrdevRegion with
  | .error code => (code, s)
  | .ok dnum =>
      let ret := 0
      let s := (s.setLbdnum dnum).register (.region dnum)
      let s := s.setLbclass (.ofResult answers.classCreate)
      match answers.classCreate with
      | .error _ =>
          let ret := -enomem
          s.chrdevClassCreateErr ret
      | .ok ptr =>
          let s := s.register (.class ptr)
          match answers.cdevAdd with
          | .error code =>
              let ret := code
              s.chrdevChardevAddError ret
          | .ok () =>
              let s := s.register .cdev
              let s := s.setDevice (.ofResult answers.deviceCreate)
              match answers.deviceCreate with
              | .error _ => s.chrdevDeviceCreateErr ret    -- `ret` is what `cdev_add` returned
              | .ok _ => (0, s.register (.device ptr dnum))

def resgetInit (s : Module) (answers : Answers) : ℤ × Module :=
  let (ret, s) := s.resgetCreateCharDevice answers
  if ret ≠ 0 then (ret, s) else (0, s)

def resgetExit (s : Module) : Module :=
  let s := s.cdevDel
  if s.lbridgenDriver.lbclass ≠ .null then s.deviceDestroy.classDestroy else s

/-! ## Runs -/

inductive Op where
  | load (answers : Answers)
  | unload
  deriving DecidableEq, Repr

/-- The kernel hands out device numbers and classes that are not in use. -/
def grants (s : Module) (answers : Answers) : Bool :=
  (match answers.allocChrdevRegion with
    | .ok dnum => Resource.region dnum ∉ s.registered
    | .error _ => true) &&
  match answers.classCreate with
    | .ok ptr => Resource.class ptr ∉ s.registered
    | .error _ => true

/-- A load starts from fresh static data, and the module stays if `resget_init` returns 0. -/
def load (s : Module) (answers : Answers) : Module :=
  let (ret, s) := resgetInit { s with lbridgenDriver := lbridgenDriverInitializer } answers
  { s with loaded := ret = 0 }

def unload (s : Module) : Module := { s.resgetExit with loaded := false }

/-- A module is loaded when it is not, and unloaded when it is. -/
def step (s : Module) : Op → Option Module
  | .load answers => if s.loaded = false ∧ s.grants answers then some (s.load answers) else none
  | .unload => if s.loaded then some s.unload else none

end Module

end Divers.ModRefcnt
