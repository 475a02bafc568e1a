import Divers.Library.CString
import Divers.Library.Loop
import Divers.Library.TextInput

/-!
# dsl_elf: the search in the memory map

`dls_search_dso` of `dsl_elf.c` on an LP64 target.  `fopen` gives the content of the file of a
name, `none` where there is none.  The variables that `sscanf` fills live as long as the call: a
conversion that is not reached leaves the value of an earlier line.  `none` for the call is that
`sscanf` writes behind the end of an array.
-/

open Divers.Library

namespace Divers.DslElf

def slash : UInt8 := 47

/-- `basename` of libgen.h, with what it leaves in the array. -/
def basename (path : List UInt8) : List UInt8 × List UInt8 :=
  if path = [] then (ascii ['.'], path)
  else
    let stripped := path.rdropWhile (· == slash)
    if stripped = [] then ([slash], path)
    else (stripped.rtakeWhile (· != slash), stripped)

/-- `"%p-%p %[^ ] %x %[^/]%s"`. -/
def mapsFormat : List Directive :=
  [.hex, .lit 45, .hex, .blank, .noneOf 32, .blank, .hex, .blank, .noneOf slash, .word]

/-- The variables of the call, with what was on the stack to begin with. -/
structure Vars where
  addrstart : UInt64
  addrend : UInt64
  perm : List UInt8
  offset : UInt32        -- the bits of an `int`
  garbage : List UInt8
  lib : List UInt8

/-- The arguments of `sscanf`, in order. -/
def Vars.targets : List (Vars → Conversion → Vars) :=
  [fun v c ↦ { v with addrstart := UInt64.ofNat c.toNat },
    fun v c ↦ { v with addrend := UInt64.ofNat c.toNat },
    fun v c ↦ { v with perm := c.chars },
    fun v c ↦ { v with offset := UInt32.ofNat c.toNat },
    fun v c ↦ { v with garbage := c.chars },
    fun v c ↦ { v with lib := c.chars }]

def Vars.assign (v : Vars) (conversions : List Conversion) : Vars :=
  (targets.zip conversions).foldl (fun v target ↦ target.1 v target.2) v

/-- What a call leaves behind: the name that `dls_file_open` is called with, and `*vector`. -/
structure Outcome where
  ret : ℤ
  opened : Option (List UInt8)
  vector : Option (UInt64 × UInt64)
  deriving DecidableEq, Repr

structure Search where
  vars : Vars
  stream : List UInt8
  found : Outcome

def lineSize : ℕ := 512

/-- `!find && fgets(line, sizeof(line), fp)`. -/
def Search.goesOn (s : Search) : Bool := s.found.ret == 0 && (fgets lineSize s.stream).isSome

/-- The sizes of the arrays among the arguments; nothing limits a number. -/
def arraySizes : List (Option ℕ) := [none, none, some 5, none, some 255, some 255]

/-- A conversion fits into an array with the NUL behind it. -/
def fitsInto (size : Option ℕ) (c : Conversion) : Bool :=
  size.all fun size ↦ c.chars.length < size

@[simp]
theorem fitsInto_none (c : Conversion) : fitsInto none c = true := rfl

@[simp]
theorem fitsInto_some (size : ℕ) (c : Conversion) :
    fitsInto (some size) c = true ↔ c.chars.length < size := decide_eq_true_iff

/-- The variables behind `sscanf` and `basename`, and the last component. -/
def readLine (v : Vars) (line : List UInt8) : Option (Vars × List UInt8) :=
  let conversions := scanf mapsFormat (cString line)
  if (arraySizes.zip conversions).all fun (size, c) ↦ fitsInto size c then
    let v := v.assign conversions
    some ({ v with lib := (basename v.lib).2 }, (basename v.lib).1)
  else none

def Search.round (name : List UInt8) (s : Search) : Option Search :=
  match fgets lineSize s.stream with
  | none => some s
  | some (line, stream) =>
      (readLine s.vars line).map fun (v, ptr) ↦
        if v.offset == 0 && ptr == name then
          { vars := v, stream,
            found := { ret := 1, opened := some v.lib,
                       vector := some (v.addrstart, v.addrend - v.addrstart) } }
        else { s with vars := v, stream }

/-- The name of the maps file of process `pid`. -/
def procMaps (pid : ℕ) : List UInt8 :=
  ascii ['/', 'p', 'r', 'o', 'c', '/'] ++ decimal pid ++ ascii ['/', 'm', 'a', 'p', 's']

def sizeofFilename : ℕ := 17        -- `sizeof("/proc/XXXXX/maps")`

/-- What the array `filename` holds of it. -/
def filename (getpid : UInt32) : List UInt8 := (snprintf sizeofFilename (procMaps getpid.toNat)).2

/-- Every round reads a byte at least, so the length of the content is enough fuel. -/
def dlsSearchDso (name : List UInt8) (fopen : List UInt8 → Option (List UInt8)) (getpid : UInt32)
    (stack : Vars) : Option Outcome :=
  match fopen (filename getpid) with
  | none => some { ret := -1, opened := none, vector := none }
  | some content =>
      let start : Search :=
        { vars := stack, stream := content,
          found := { ret := 0, opened := none, vector := none } }
      (whileLoop (fun s ↦ s.any Search.goesOn) (fun s ↦ s.bind (Search.round name)) content.length
        (some start)).join.map Search.found

end Divers.DslElf
