import Divers.DslElf.Maps

/-! A line without a path leaves the path of an earlier line in `lib`, an offset keeps its low half,
a path ends for `sscanf` at its first white space, what is before it may be too long for `garbage`,
and the name of the maps file of a process is cut from the number 100000 on: what the search answers
for well-formed lines, and when that is what the lines say. -/

open Divers.Library

namespace Divers.DslElf

/-! ## Well-formed lines -/

/-- The texts of a line of the maps file. -/
structure LineText where
  start : List UInt8
  stop : List UInt8
  perms : List UInt8
  offset : List UInt8
  dev : List UInt8
  inode : List UInt8
  pad : ℕ                  -- blanks before the name, besides the one behind the inode
  name : List UInt8        -- empty for an anonymous mapping
  deriving DecidableEq, Repr

namespace LineText

/-- Between the offset and the name. -/
def device (l : LineText) : List UInt8 :=
  l.dev ++ 32 :: (l.inode ++ List.replicate (l.pad + 1) 32)

/-- The line without its newline. -/
def text (l : LineText) : List UInt8 :=
  l.start ++ 45 :: (l.stop ++ 32 :: (l.perms ++ 32 :: (l.offset ++ 32 :: (l.device ++ l.name))))

end LineText

/-- A number in hexadecimal digits that fits into 64 bits. -/
def IsHex (s : List UInt8) : Prop := s ≠ [] ∧ (∀ c ∈ s, isHexDigit c) ∧ hexNumber s < 2 ^ 64

/-- A text without blanks and slashes. -/
def IsField (s : List UInt8) : Prop := s ≠ [] ∧ ∀ c ∈ s, 32 < c.toNat ∧ c ≠ slash

instance {s : List UInt8} : Decidable (IsHex s) := inferInstanceAs (Decidable (_ ∧ _ ∧ _))

instance {s : List UInt8} : Decidable (IsField s) := inferInstanceAs (Decidable (_ ∧ _))

/-- A line as the kernel writes it, shorter than the line buffer and with a name that fits `lib`. -/
structure MapsLine extends LineText where
  start_hex : IsHex start
  stop_hex : IsHex stop
  start_le : hexNumber start ≤ hexNumber stop
  offset_hex : IsHex offset
  perms_field : IsField perms
  perms_length : perms.length = 4
  dev_field : IsField dev
  inode_field : IsField inode
  name_line : ∀ c ∈ name, c ≠ 10 ∧ c ≠ 0
  fits_line : toLineText.text.length + 1 < lineSize
  fits_lib : name.length < 255

/-- The content of the file. -/
def mapsContent (lines : List MapsLine) : List UInt8 := lines.flatMap fun l ↦ l.text ++ [10]

namespace MapsLine

/-- The address range: base and length. -/
def range (l : MapsLine) : UInt64 × UInt64 :=
  (UInt64.ofNat (hexNumber l.start), UInt64.ofNat (hexNumber l.stop - hexNumber l.start))

/-- Offset 0 and a path, the last component of which is `name`. -/
def Meant (name : List UInt8) (l : MapsLine) : Prop :=
  hexNumber l.offset = 0 ∧ l.name.head? = some slash ∧ (basename l.name).1 = name

instance {name : List UInt8} : DecidablePred (Meant name) :=
  fun _ ↦ inferInstanceAs (Decidable (_ ∧ _ ∧ _))

end MapsLine

/-- What the lines say: the first one that is meant. -/
def meantOutcome (name : List UInt8) (lines : List MapsLine) : Outcome :=
  match lines.find? (MapsLine.Meant name) with
  | some l => { ret := 1, opened := some l.name, vector := some l.range }
  | none => { ret := 0, opened := none, vector := none }

/-! ## What a line is read as -/

namespace MapsLine

/-- The text of `%s`, if the name has a slash. -/
def token (l : MapsLine) : List UInt8 :=
  (l.name.dropWhile (· != slash)).takeWhile fun c ↦ !isSpace c

/-- The path shown last, where the lines before showed `path`: that of this line, if it has one. -/
def shown (l : MapsLine) (path : List UInt8) : List UInt8 :=
  if slash ∈ l.name then l.token else path

/-- The text that is read into `garbage`: up to the first slash of the name, or all of it and the
newline. -/
def garbage (l : MapsLine) : List UInt8 :=
  if slash ∈ l.name then l.device ++ l.name.takeWhile (· != slash) else l.device ++ l.name ++ [10]

/-- It fits. -/
def Fits (l : MapsLine) : Prop := l.garbage.length < 255

instance : DecidablePred Fits := fun _ ↦ inferInstanceAs (Decidable (_ < _))

/-- The test of the loop, where the lines before showed `path`. -/
def Taken (name path : List UInt8) (l : MapsLine) : Prop :=
  hexNumber l.offset % 2 ^ 32 = 0 ∧ (basename (l.shown path)).1 = name

instance {name path : List UInt8} : DecidablePred (Taken name path) :=
  fun _ ↦ inferInstanceAs (Decidable (_ ∧ _))

end MapsLine

/-- A path as `basename` leaves it: without the slashes at its end. -/
def trimmed (path : List UInt8) : List UInt8 := (basename path).2

/-- What is cut off makes no difference to another call. -/
theorem basename_trimmed (path : List UInt8) : basename (trimmed path) = basename path := by
  unfold trimmed
  by_cases hpath : path = []
  · rw [hpath]
    rfl
  · by_cases hstripped : path.rdropWhile (· == slash) = []
    · have hbase : basename path = ([slash], path) := by
        rw [basename, if_neg hpath]
        simp only [hstripped, if_true]
      rw [hbase]
      exact hbase
    · have htwice := List.rdropWhile_idempotent (· == slash) path
      have hbase : basename path = ((path.rdropWhile (· == slash)).rtakeWhile (· != slash),
          path.rdropWhile (· == slash)) := by
        rw [basename, if_neg hpath]
        simp only [if_neg hstripped]
      rw [hbase]
      dsimp only
      rw [basename, if_neg hstripped, htwice]
      simp only [if_neg hstripped]

/-! ## Scanning a line -/

theorem IsHex.field {s : List UInt8} (h : IsHex s) : IsField s := by
  refine ⟨h.1, fun c hc ↦ ?_⟩
  have hdigit := isHexDigit_toNat (h.2.1 c hc)
  refine ⟨by omega, fun hslash ↦ ?_⟩
  rw [hslash] at hdigit
  revert hdigit
  decide

theorem IsField.ne {s : List UInt8} (h : IsField s) {a : UInt8} (ha : a.toNat ≤ 32) : a ∉ s := by
  intro hmem
  have := (h.2 a hmem).1
  omega

theorem IsField.cons {s : List UInt8} (h : IsField s) :
    ∃ c t, s = c :: t ∧ isSpace c = false := by
  obtain ⟨c, t, rfl⟩ := List.exists_cons_of_ne_nil h.1
  exact ⟨c, t, rfl, isSpace_eq_false (h.2 c List.mem_cons_self).1⟩

/-- One blank before a field. -/
theorem step_blank_field {s rest : List UInt8} (h : IsField s) :
    Directive.blank.step (32 :: (s ++ rest)) = some ([], s ++ rest) := by
  obtain ⟨c, t, rfl, hc⟩ := h.cons
  apply step_blank (t := [32]) _ hc
  intro a ha
  rw [List.mem_singleton.mp ha]
  rfl

namespace MapsLine

variable {l : MapsLine} {name path rest : List UInt8} {v : Vars}

theorem slash_notMem_device (l : MapsLine) : slash ∉ l.device := by
  simp only [LineText.device, List.mem_append, List.mem_cons, List.mem_replicate, not_or]
  exact ⟨fun h ↦ (l.dev_field.2 _ h).2 rfl, by decide,
    fun h ↦ (l.inode_field.2 _ h).2 rfl, fun h ↦ absurd h.2 (by decide)⟩

/-- The line has one newline, at its end, and no NUL. -/
theorem text_bytes (l : MapsLine) : ∀ c ∈ l.text, c ≠ 10 ∧ c ≠ 0 := by
  have hfield : ∀ s, IsField s → ∀ c ∈ s, c ≠ 10 ∧ c ≠ 0 := fun s hs c hc ↦
    ⟨fun h ↦ hs.ne (a := 10) (by decide) (h ▸ hc), fun h ↦ hs.ne (a := 0) (by decide) (h ▸ hc)⟩
  intro c hc
  simp only [LineText.text, LineText.device, List.mem_append, List.mem_cons, List.mem_replicate,
    List.append_assoc] at hc
  obtain hc | rfl | hc | rfl | hc | rfl | hc | rfl | hc | (rfl | hc | ⟨-, rfl⟩) | hc := hc
  · exact hfield _ l.start_hex.field c hc
  · decide
  · exact hfield _ l.stop_hex.field c hc
  · decide
  · exact hfield _ l.perms_field c hc
  · decide
  · exact hfield _ l.offset_hex.field c hc
  · decide
  · exact hfield _ l.dev_field c hc
  · decide
  · exact hfield _ l.inode_field c hc
  · decide
  · exact l.name_line c hc

theorem cString_text (l : MapsLine) : cString (l.text ++ [10]) = l.text ++ [10] := by
  rw [cString, List.takeWhile_eq_self_iff]
  apply all_ne
  rw [List.mem_append, not_or]
  exact ⟨fun h ↦ (l.text_bytes 0 h).2 rfl, by decide⟩

theorem fgets_text (l : MapsLine) :
    fgets lineSize (l.text ++ 10 :: rest) = some (l.text ++ [10], rest) :=
  fgets_line (fun c hc ↦ (l.text_bytes c hc).1) l.fits_line

/-- The garbage, and what is left for `%s`. -/
theorem scan_garbage (l : MapsLine) :
    (Directive.noneOf slash).step (l.device ++ l.name ++ [10]) =
      some ([.text l.garbage], if slash ∈ l.name then l.name.dropWhile (· != slash) ++ [10]
        else []) := by
  have hdevice := l.slash_notMem_device
  have hne : l.device ≠ [] := by simp [LineText.device]
  unfold garbage
  split
  next hslash =>
    obtain ⟨before, after, hname, hbefore⟩ := List.eq_append_cons_of_mem hslash
    rw [hname, takeWhile_stop (all_ne hbefore) (by simp), dropWhile_stop (all_ne hbefore) (by simp),
      show l.device ++ (before ++ slash :: after) ++ [10] =
        (l.device ++ before) ++ slash :: (after ++ [10]) by simp]
    exact step_noneOf (by simp [hne]) (by simp [hdevice, hbefore])
  next hslash =>
    apply step_noneOf_end (by simp)
    simp only [List.mem_append, List.mem_singleton, not_or]
    exact ⟨⟨hdevice, hslash⟩, by decide⟩

/-- The token ends at a blank, and that is at the newline if not before. -/
theorem scan_token (hslash : slash ∈ l.name) :
    scanf [.word] (l.name.dropWhile (· != slash) ++ [10]) = [.text l.token] := by
  obtain ⟨before, after, hname, hbefore⟩ := List.eq_append_cons_of_mem hslash
  have hdrop : l.name.dropWhile (· != slash) = slash :: after := by
    rw [hname]
    exact dropWhile_stop (all_ne hbefore) (by simp)
  have hend : ∀ s : List UInt8, ((s ++ [10]).takeWhile fun c ↦ !isSpace c) =
      s.takeWhile fun c ↦ !isSpace c := by
    intro s
    induction s with
    | nil => rfl
    | cons c s ih =>
        rw [List.cons_append, List.takeWhile_cons, List.takeWhile_cons, ih]
  rw [hdrop, List.cons_append, scanf_cons (step_word (by decide)), token, hdrop, hend,
    List.takeWhile_cons_of_pos (by decide)]
  rfl

/-- The conversions of a line. -/
theorem scanf_text (l : MapsLine) :
    scanf mapsFormat (l.text ++ [10]) =
      [.number (hexNumber l.start), .number (hexNumber l.stop), .text l.perms,
        .number (hexNumber l.offset), .text l.garbage] ++
      if slash ∈ l.name then [.text l.token] else [] := by
  have hblank : Directive.blank.step (32 :: (l.device ++ (l.name ++ [10]))) =
      some ([], l.device ++ l.name ++ [10]) := by
    simp only [LineText.device, List.append_assoc]
    exact step_blank_field l.dev_field
  rw [mapsFormat, LineText.text]
  simp only [List.append_assoc, List.cons_append]
  rw [scanf_cons (step_hex l.start_hex.1 l.start_hex.2.1 l.start_hex.2.2 (by decide) (by decide)),
    scanf_cons step_lit,
    scanf_cons (step_hex l.stop_hex.1 l.stop_hex.2.1 l.stop_hex.2.2 (by decide) (by decide)),
    scanf_cons (step_blank_field l.perms_field),
    scanf_cons (step_noneOf l.perms_field.1 (l.perms_field.ne (by decide))),
    scanf_cons (step_blank_field l.offset_hex.field),
    scanf_cons (step_hex l.offset_hex.1 l.offset_hex.2.1 l.offset_hex.2.2 (by decide) (by decide)),
    scanf_cons hblank, scanf_cons (scan_garbage l)]
  split
  next hslash =>
    rw [scan_token hslash]
    rfl
  next hslash =>
    rw [scanf_cons_none step_word_nil]
    simp

theorem token_length (l : MapsLine) : l.token.length < 255 := by
  have hdrop := (List.dropWhile_sublist (· != slash) (l := l.name)).length_le
  have htake := (List.takeWhile_sublist (fun c ↦ !isSpace c)
    (l := l.name.dropWhile (· != slash))).length_le
  have hlib := l.fits_lib
  unfold token
  omega

/-- `garbage` is the only array that a well-formed line can overrun. -/
theorem fits_text (l : MapsLine) :
    ((arraySizes.zip (scanf mapsFormat (l.text ++ [10]))).all fun (size, c) ↦ fitsInto size c) =
      true ↔ l.Fits := by
  have hperms := l.perms_length
  have htoken := l.token_length
  rw [scanf_text]
  split
  next => simp [arraySizes, Conversion.chars, Fits, hperms, htoken]
  next => simp [arraySizes, Conversion.chars, Fits, hperms]

/-- The variables behind a line: all but `lib` are those of the line. -/
def varsRead (l : MapsLine) (path : List UInt8) : Vars where
  addrstart := UInt64.ofNat (hexNumber l.start)
  addrend := UInt64.ofNat (hexNumber l.stop)
  perm := l.perms
  offset := UInt32.ofNat (hexNumber l.offset)
  garbage := l.garbage
  lib := trimmed (l.shown path)

/-- `lib` takes part only by what `basename` makes of it. -/
theorem readLine_text (l : MapsLine) (hlib : basename v.lib = basename path) :
    readLine v (l.text ++ [10]) =
      if l.Fits then some (l.varsRead path, (basename (l.shown path)).1) else none := by
  rw [readLine, cString_text]
  simp only [fits_text]
  refine if_congr Iff.rfl ?_ rfl
  rw [scanf_text]
  unfold varsRead shown trimmed
  split
  next => rfl
  next =>
    rw [← hlib]
    rfl

theorem offset_eq_zero {n : ℕ} : UInt32.ofNat n = 0 ↔ n % 2 ^ 32 = 0 := by
  rw [← UInt32.toNat_inj, UInt32.toNat_ofNat']
  rfl

theorem range_eq (l : MapsLine) :
    (UInt64.ofNat (hexNumber l.start),
      UInt64.ofNat (hexNumber l.stop) - UInt64.ofNat (hexNumber l.start)) = l.range := by
  rw [range, UInt64.ofNat_sub l.start_le]

end MapsLine

/-! ## The run -/

def notFound : Outcome := { ret := 0, opened := none, vector := none }

/-- What the loop makes of the lines, where those before showed `path`. -/
def takenOutcome (name : List UInt8) : List UInt8 → List MapsLine → Option Outcome
  | _, [] => some notFound
  | path, l :: rest =>
      if ¬ l.Fits then none
      else if l.Taken name path then
        some { ret := 1, opened := some (trimmed (l.shown path)), vector := some l.range }
      else takenOutcome name (l.shown path) rest

section Run

variable {name path : List UInt8} {l : MapsLine} {v : Vars} {rest : List UInt8} {fuel : ℕ}

theorem round_text (name : List UInt8) (l : MapsLine) (hlib : basename v.lib = basename path)
    (rest : List UInt8) :
    Search.round name { vars := v, stream := l.text ++ 10 :: rest, found := notFound } =
      if l.Fits then
        some { vars := l.varsRead path, stream := rest,
               found :=
                 if l.Taken name path then
                   { ret := 1, opened := some (trimmed (l.shown path)), vector := some l.range }
                 else notFound }
      else none := by
  have htest : ((l.varsRead path).offset == 0 && (basename (l.shown path)).1 == name) =
      decide (l.Taken name path) := by
    rw [Bool.eq_iff_iff, Bool.and_eq_true, beq_iff_eq, beq_iff_eq, decide_eq_true_eq,
      MapsLine.Taken, ← MapsLine.offset_eq_zero]
    rfl
  rw [Search.round, l.fgets_text]
  simp only [l.readLine_text hlib]
  by_cases hfits : l.Fits
  · rw [if_pos hfits, if_pos hfits, Option.map_some]
    simp only [htest]
    by_cases htaken : l.Taken name path
    · simp only [htaken, decide_true, if_true]
      rw [← l.range_eq]
      rfl
    · simp [htaken]
  · rw [if_neg hfits, if_neg hfits, Option.map_none]

theorem goesOn_text : Search.goesOn
    { vars := v, stream := l.text ++ 10 :: rest, found := notFound } = true := by
  rw [Search.goesOn, l.fgets_text]
  rfl

/-- A round per line, up to the first that is taken or overruns an array. -/
theorem whileLoop_lines (lines : List MapsLine) (hlib : basename v.lib = basename path)
    (hfuel : lines.length ≤ fuel) :
    (whileLoop (fun s ↦ s.any Search.goesOn) (fun s ↦ s.bind (Search.round name)) fuel
      (some { vars := v, stream := mapsContent lines, found := notFound })).join.map Search.found =
        takenOutcome name path lines := by
  induction lines generalizing v path fuel with
  | nil =>
      cases fuel <;> rfl
  | cons l rest ih =>
      have hcontent : mapsContent (l :: rest) = l.text ++ 10 :: mapsContent rest := by
        simp [mapsContent]
      cases fuel with
      | zero => exact absurd hfuel (Nat.not_succ_le_zero _)
      | succ fuel =>
          have hnext : basename (l.varsRead path).lib = basename (l.shown path) :=
            basename_trimmed _
          rw [hcontent, whileLoop, if_pos (Option.any_some.trans goesOn_text), Option.bind_some,
            round_text name l hlib (mapsContent rest), takenOutcome]
          by_cases hfits : l.Fits
          · rw [if_pos hfits, if_neg (not_not_intro hfits)]
            by_cases htaken : l.Taken name path
            · rw [if_pos htaken, if_pos htaken]
              cases fuel <;> rfl
            · rw [if_neg htaken, if_neg htaken, ih hnext (by simpa using hfuel)]
          · rw [if_neg hfits, if_pos hfits]
            cases fuel <;> rfl

theorem length_le_content (lines : List MapsLine) : lines.length ≤ (mapsContent lines).length := by
  induction lines with
  | nil => exact Nat.le_refl 0
  | cons l rest ih =>
      rw [show mapsContent (l :: rest) = l.text ++ [10] ++ mapsContent rest by simp [mapsContent],
        List.length_append, List.length_append, List.length_cons, List.length_singleton]
      omega

end Run

/-! ## The name of the file -/

/-- Five digits fit into `filename`. -/
theorem filename_eq {pid : UInt32} (hpid : pid.toNat < 100000) :
    filename pid = procMaps pid.toNat := by
  have hdigits : (decimal pid.toNat).length ≤ 5 := decimal_length_le (by decide) (by omega)
  have hlength : (procMaps pid.toNat).length ≤ sizeofFilename - 1 := by
    unfold procMaps sizeofFilename ascii
    simp only [List.length_append, List.length_map, List.length_cons, List.length_nil]
    omega
  exact List.take_of_length_le hlength

/-- What procfs shows of a process: these lines in its maps file, and nothing under the name of that
file if the name is cut. -/
structure Procfs (fopen : List UInt8 → Option (List UInt8)) (pid : UInt32) (lines : List MapsLine) :
    Prop where
  maps : fopen (procMaps pid.toNat) = some (mapsContent lines)
  no_part : filename pid ≠ procMaps pid.toNat → fopen (filename pid) = none

section Run

variable {fopen : List UInt8 → Option (List UInt8)} {pid : UInt32} {lines : List MapsLine}

theorem dlsSearchDso_lines (hproc : Procfs fopen pid lines) (hpid : pid.toNat < 100000)
    (name : List UInt8) (stack : Vars) :
    dlsSearchDso name fopen pid stack = takenOutcome name stack.lib lines := by
  have hopen : fopen (filename pid) = some (mapsContent lines) := by
    rw [filename_eq hpid, hproc.maps]
  rw [dlsSearchDso, hopen]
  exact whileLoop_lines lines rfl (length_le_content lines)

/-- Six digits do not. -/
theorem dlsSearchDso_cut (hproc : Procfs fopen pid lines) (hpid : 100000 ≤ pid.toNat)
    (name : List UInt8) (stack : Vars) :
    dlsSearchDso name fopen pid stack = some { ret := -1, opened := none, vector := none } := by
  have hcut : filename pid ≠ procMaps pid.toNat := by
    intro heq
    have hdigits : ¬ (decimal pid.toNat).length ≤ 5 := by
      unfold decimal ascii
      rw [List.length_map, Nat.length_toDigits_le_iff (by decide) (by decide)]
      omega
    have hlength : (filename pid).length ≤ 16 := List.length_take_le _ _
    rw [heq] at hlength
    unfold procMaps ascii at hlength
    simp only [List.length_append, List.length_map, List.length_cons, List.length_nil] at hlength
    omega
  rw [dlsSearchDso, hproc.no_part hcut]

end Run

/-! ## Agreement -/

/-- The first line that is taken, and the path that is opened for it.  Nothing is overrun until
then. -/
inductive TakenFirst (name : List UInt8) :
    List UInt8 → List MapsLine → MapsLine → List UInt8 → Prop
  | here {path l rest} : l.Fits → l.Taken name path →
      TakenFirst name path (l :: rest) l (trimmed (l.shown path))
  | later {path l rest l' path'} : l.Fits → ¬ l.Taken name path →
      TakenFirst name (l.shown path) rest l' path' → TakenFirst name path (l :: rest) l' path'

/-- The first line that is taken or meant is both, and its path was read whole.  Failing that, the
line that comes first to the other test has the same range and path.  The lines fit up to the one
that is taken. -/
inductive Agrees (name : List UInt8) : List UInt8 → List MapsLine → Prop
  | done {path} : Agrees name path []
  | pass {path l rest} : l.Fits → ¬ l.Taken name path → ¬ l.Meant name →
      Agrees name (l.shown path) rest → Agrees name path (l :: rest)
  | both {path l rest} : l.Fits → l.Taken name path → l.Meant name → trimmed l.token = l.name →
      Agrees name path (l :: rest)
  | early {path l rest l'} : l.Fits → l.Taken name path → ¬ l.Meant name →
      rest.find? (MapsLine.Meant name) = some l' → l'.name = trimmed (l.shown path) →
      l'.range = l.range → Agrees name path (l :: rest)
  | late {path l rest l'} : l.Fits → ¬ l.Taken name path → l.Meant name →
      TakenFirst name (l.shown path) rest l' l.name → l'.range = l.range →
      Agrees name path (l :: rest)

section Agreement

variable {name path path' : List UInt8} {l l' : MapsLine} {lines rest : List MapsLine}
  {r : UInt64 × UInt64}

theorem takenFirst_cons_pos (hfits : l.Fits) (h : l.Taken name path) :
    TakenFirst name path (l :: rest) l' path' ↔ l' = l ∧ path' = trimmed (l.shown path) := by
  constructor
  · intro hfirst
    cases hfirst with
    | here => exact ⟨rfl, rfl⟩
    | later _ hnot => exact absurd h hnot
  · intro heq
    rw [heq.1, heq.2]
    exact .here hfits h

theorem takenFirst_cons_neg (hfits : l.Fits) (h : ¬ l.Taken name path) :
    TakenFirst name path (l :: rest) l' path' ↔ TakenFirst name (l.shown path) rest l' path' := by
  constructor
  · intro hfirst
    cases hfirst with
    | here _ htaken => exact absurd htaken h
    | later _ _ hfirst => exact hfirst
  · exact .later hfits h

theorem TakenFirst.fits (h : TakenFirst name path (l :: rest) l' path') : l.Fits := by
  cases h with
  | here hfits => exact hfits
  | later hfits => exact hfits

theorem Agrees.fits (h : Agrees name path (l :: rest)) : l.Fits := by
  cases h with
  | pass hfits => exact hfits
  | both hfits => exact hfits
  | early hfits => exact hfits
  | late hfits => exact hfits

theorem agrees_cons (hfits : l.Fits) :
    Agrees name path (l :: rest) ↔
      (¬ l.Taken name path ∧ ¬ l.Meant name ∧ Agrees name (l.shown path) rest) ∨
      (l.Taken name path ∧ l.Meant name ∧ trimmed l.token = l.name) ∨
      (l.Taken name path ∧ ¬ l.Meant name ∧ ∃ l', rest.find? (MapsLine.Meant name) = some l' ∧
        l'.name = trimmed (l.shown path) ∧ l'.range = l.range) ∨
      (¬ l.Taken name path ∧ l.Meant name ∧ ∃ l', TakenFirst name (l.shown path) rest l' l.name ∧
        l'.range = l.range) := by
  constructor
  · intro h
    cases h with
    | pass _ htaken hmeant h => exact Or.inl ⟨htaken, hmeant, h⟩
    | both _ htaken hmeant hwhole => exact Or.inr (Or.inl ⟨htaken, hmeant, hwhole⟩)
    | early _ htaken hmeant hfind hname hrange =>
        exact Or.inr (Or.inr (Or.inl ⟨htaken, hmeant, _, hfind, hname, hrange⟩))
    | late _ htaken hmeant hfirst hrange =>
        exact Or.inr (Or.inr (Or.inr ⟨htaken, hmeant, _, hfirst, hrange⟩))
  · intro h
    obtain ⟨htaken, hmeant, h⟩ | ⟨htaken, hmeant, hwhole⟩ | ⟨htaken, hmeant, l', hfind, hname, hr⟩ |
      ⟨htaken, hmeant, l', hfirst, hr⟩ := h
    · exact .pass hfits htaken hmeant h
    · exact .both hfits htaken hmeant hwhole
    · exact .early hfits htaken hmeant hfind hname hr
    · exact .late hfits htaken hmeant hfirst hr

/-- A line that is meant shows a path of its own. -/
theorem MapsLine.Meant.shown_eq (h : l.Meant name) (path : List UInt8) : l.shown path = l.token :=
  if_pos (List.mem_of_head? h.2.1)

theorem takenOutcome_eq_iff :
    takenOutcome name path lines = some { ret := 1, opened := some path', vector := some r } ↔
      ∃ l, TakenFirst name path lines l path' ∧ l.range = r := by
  induction lines generalizing path with
  | nil =>
      constructor
      · intro h
        cases h
      · intro h
        obtain ⟨l, h, -⟩ := h
        cases h
  | cons l rest ih =>
      rw [takenOutcome]
      by_cases hfits : l.Fits
      · rw [if_neg (not_not_intro hfits)]
        by_cases htaken : l.Taken name path
        · simp only [if_pos htaken, takenFirst_cons_pos hfits htaken, Outcome.mk.injEq,
            Option.some.injEq, true_and]
          constructor
          · exact fun h ↦ ⟨l, ⟨rfl, h.1.symm⟩, h.2⟩
          · intro h
            obtain ⟨_, ⟨rfl, hpath⟩, hr⟩ := h
            exact ⟨hpath.symm, hr⟩
        · simp only [if_neg htaken, takenFirst_cons_neg hfits htaken, ih]
      · rw [if_pos hfits]
        constructor
        · intro h
          cases h
        · intro h
          obtain ⟨_, h, -⟩ := h
          exact absurd h.fits hfits

theorem meantOutcome_cons_pos (h : l.Meant name) :
    meantOutcome name (l :: rest) =
      { ret := 1, opened := some l.name, vector := some l.range } := by
  rw [meantOutcome, List.find?_cons_of_pos (by simpa using h)]

theorem meantOutcome_cons_neg (h : ¬ l.Meant name) :
    meantOutcome name (l :: rest) = meantOutcome name rest := by
  rw [meantOutcome, List.find?_cons_of_neg (by simpa using h), ← meantOutcome]

theorem meantOutcome_eq_iff :
    meantOutcome name lines = { ret := 1, opened := some path, vector := some r } ↔
      ∃ l, lines.find? (MapsLine.Meant name) = some l ∧ l.name = path ∧ l.range = r := by
  unfold meantOutcome
  split
  next l hfind => simp [hfind]
  next hfind => simp [hfind]

/-- Line by line: what the two tests say decides which of the four ways the outcomes can agree. -/
theorem takenOutcome_eq_meantOutcome_iff :
    takenOutcome name path lines = some (meantOutcome name lines) ↔ Agrees name path lines := by
  induction lines generalizing path with
  | nil => exact ⟨fun _ ↦ .done, fun _ ↦ rfl⟩
  | cons l rest ih =>
      rw [takenOutcome]
      by_cases hfits : l.Fits
      · rw [if_neg (not_not_intro hfits), agrees_cons hfits]
        by_cases htaken : l.Taken name path
        · rw [if_pos htaken, Option.some_inj]
          by_cases hmeant : l.Meant name
          · rw [meantOutcome_cons_pos hmeant, hmeant.shown_eq]
            simp [htaken, hmeant]
          · rw [meantOutcome_cons_neg hmeant, eq_comm, meantOutcome_eq_iff]
            simp [htaken, hmeant]
        · rw [if_neg htaken]
          by_cases hmeant : l.Meant name
          · rw [meantOutcome_cons_pos hmeant, takenOutcome_eq_iff]
            simp [htaken, hmeant]
          · rw [meantOutcome_cons_neg hmeant, ih]
            simp [htaken, hmeant]
      · rw [if_pos hfits]
        exact iff_of_false (Option.some_ne_none _).symm fun h ↦ hfits h.fits

theorem meantOutcome_ret_nonneg (name : List UInt8) (lines : List MapsLine) :
    0 ≤ (meantOutcome name lines).ret := by
  unfold meantOutcome
  split
  next => exact Int.one_nonneg
  next => exact Int.le_refl 0

end Agreement

/-- The second page of a library: its first one is not mapped any more. -/
def libraryLine : MapsLine where
  start := ascii ['0', '0', '6', '0', '1', '0', '0', '0']
  stop := ascii ['0', '0', '6', '0', '2', '0', '0', '0']
  perms := ascii ['r', '-', '-', 'p']
  offset := ascii ['0', '0', '0', '0', '1', '0', '0', '0']
  dev := ascii ['0', '8', ':', '0', '1']
  inode := ascii ['7']
  pad := 3
  name := ascii ['/', 'l', 'i', 'b', '/', 'a', '.', 's', 'o']
  start_hex := by decide +kernel
  stop_hex := by decide +kernel
  start_le := by decide +kernel
  offset_hex := by decide +kernel
  perms_field := by decide +kernel
  perms_length := by decide +kernel
  dev_field := by decide +kernel
  inode_field := by decide +kernel
  name_line := by decide +kernel
  fits_line := by decide +kernel
  fits_lib := by decide +kernel

def anonymousLine : MapsLine where
  start := ascii ['0', '0', '6', '0', '2', '0', '0', '0']
  stop := ascii ['0', '0', '6', '0', '3', '0', '0', '0']
  perms := ascii ['r', 'w', '-', 'p']
  offset := ascii ['0', '0', '0', '0', '0', '0', '0', '0']
  dev := ascii ['0', '0', ':', '0', '0']
  inode := ascii ['0']
  pad := 0
  name := []
  start_hex := by decide +kernel
  stop_hex := by decide +kernel
  start_le := by decide +kernel
  offset_hex := by decide +kernel
  perms_field := by decide +kernel
  perms_length := by decide +kernel
  dev_field := by decide +kernel
  inode_field := by decide +kernel
  name_line := by decide +kernel
  fits_line := by decide +kernel
  fits_lib := by decide +kernel

/-- A system on which process `pid` has these lines, and no other file. -/
def procfsOf (pid : UInt32) (lines : List MapsLine) (file : List UInt8) : Option (List UInt8) :=
  if file = procMaps pid.toNat then some (mapsContent lines) else none

theorem procfsOf_procfs (pid : UInt32) (lines : List MapsLine) :
    Procfs (procfsOf pid lines) pid lines :=
  ⟨if_pos rfl, fun hcut ↦ if_neg hcut⟩

def unsetVars : Vars :=
  { addrstart := 0, addrend := 0, perm := [], offset := 0, garbage := [], lib := [] }

/-- The text of `a.so`, behind an anonymous mapping. -/
def textLine : MapsLine :=
  { libraryLine with
    offset := anonymousLine.offset
    offset_hex := anonymousLine.offset_hex
    fits_line := by decide +kernel }

end Divers.DslElf
