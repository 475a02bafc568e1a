import Divers.Library.HandleLog
import Mathlib.Data.Int.Notation

/-!
# dso_plugin

The plugins of `dso_plugin.c`.  A pointer is an address, and `none` where the source has NULL.  What
`dlopen` and `dlsym` answer may be another thing in each call; what is opened and closed is logged.
-/

open Divers.Library

namespace Divers.Dso

structure DsoPluginDesc where
  dsoVmem : Option ℕ
  dsoVsym : Option ℕ
  deriving DecidableEq, Repr

structure Dl where
  dlopen : List UInt8 → Option ℕ
  dlsym : ℕ → List UInt8 → Option ℕ

abbrev Log := List (HandleEvent ℕ)

/-- `dso_plugin_exit`: the log behind it. -/
def dsoPluginExit (p : Option DsoPluginDesc) (log : Log) : Log :=
  match p with
  | none => log
  | some p =>
      match p.dsoVmem with
      | none => log
      | some vmem => .closed vmem :: log

/-- `dso_plugin_init`: what it returns, `*p`, and the log behind it. -/
def dsoPluginInit (p : Option DsoPluginDesc) (file ent : Option (List UInt8)) (dl : Dl)
    (log : Log) : ℤ × Option DsoPluginDesc × Log :=
  match p, file, ent with
  | some p, some file, some ent =>
      let p := { p with dsoVmem := dl.dlopen file }
      match p.dsoVmem with
      | none => (-1, some p, log)
      | some vmem =>
          let log := .opened vmem :: log
          let p := { p with dsoVsym := dl.dlsym vmem ent }
          match p.dsoVsym with
          | none => (-1, some p, .closed vmem :: log)
          | some _ => (0, some p, log)
  | p, _, _ => (-1, p, log)

/-! ## Calls on one descriptor -/

inductive Call where
  | init (file ent : Option (List UInt8)) (dl : Dl)
  | exit

/-- The descriptor, what was opened and closed so far, and what the last call returned if it was one
of `dso_plugin_init`. -/
structure Plugin where
  desc : DsoPluginDesc
  log : Log
  lastRet : Option ℤ
  deriving DecidableEq, Repr

namespace Plugin

def start : Plugin := ⟨⟨none, none⟩, [], none⟩

def next (s : Plugin) : Call → Plugin
  | .init file ent dl =>
      let (ret, desc, log) := dsoPluginInit (some s.desc) file ent dl s.log
      ⟨desc.getD s.desc, log, some ret⟩
  | .exit => ⟨s.desc, dsoPluginExit (some s.desc) s.log, none⟩

end Plugin

end Divers.Dso
