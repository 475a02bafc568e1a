import Divers.GotModifier.Dynsym
import Divers.GotModifier.MapParser

/-! The files in /proc that `map_parser_init` opens.  Both names fit their buffers, since only the
last 16 bits of the process number come into them. -/

open Divers.Library

namespace Divers.GotModifier

variable {m : Bytes} {fuel : ℕ} {sys : SysInit} {numpid numpid' : Int32}

/-- The name of a file of process `n`. -/
def procName (n : ℕ) (whatfile : List UInt8) : List UInt8 :=
  ascii ['/', 'p', 'r', 'o', 'c', '/'] ++ decimal n ++ ascii ['/'] ++ whatfile

def shortPid (numpid : Int32) : ℕ := (numpid.toInt % 2 ^ 16).toNat

theorem procName_inj {n k : ℕ} {whatfile : List UInt8} :
    procName n whatfile = procName k whatfile ↔ n = k := by
  unfold procName
  rw [List.append_left_inj, List.append_left_inj, List.append_right_inj, decimal_inj]

theorem shortPid_lt (numpid : Int32) : shortPid numpid < 65536 := by
  unfold shortPid
  omega

theorem shortPid_eq_iff (hpos : 0 < numpid) :
    shortPid numpid = numpid.toInt.toNat ↔ numpid.toInt < 65536 := by
  have hpos' : 0 < numpid.toInt := Int32.lt_iff_toInt_lt.mp hpos
  unfold shortPid
  omega

theorem length_procName_le (numpid : Int32) (whatfile : List UInt8) :
    (procName (shortPid numpid) whatfile).length ≤ whatfile.length + 12 := by
  have hshort := shortPid_lt numpid
  have hdigits : (decimal (shortPid numpid)).length ≤ 5 := decimal_length_le (by decide) (by omega)
  unfold procName ascii
  simp only [List.length_append, List.length_map, List.length_cons, List.length_nil]
  omega

/-- A name is stored as a whole. -/
theorem mapParserBuildProcfsFilename_eq {whatfile : List UInt8} {maxLen : ℕ}
    (h : whatfile.length + 12 < maxLen) :
    mapParserBuildProcfsFilename numpid whatfile maxLen =
      ((procName (shortPid numpid) whatfile).length, procName (shortPid numpid) whatfile) := by
  have hlength := length_procName_le numpid whatfile
  show (_, List.take _ (procName (shortPid numpid) whatfile)) = _
  rw [List.take_of_length_le (by omega)]
  rfl

/-! ## The files that are opened -/

theorem mapParserInit_eq (m : Bytes) (fuel : ℕ) (sys : SysInit) (numpid : Int32) :
    mapParserInit m fuel sys numpid =
      if sys.memOpens = false then .failed []
      else if sys.fd < 0 then .failed [procName (shortPid numpid) mapsFile]
      else
        match sys.stSize, sys.mapped with
        | some tdLen, some tdMap =>
            { opened := [procName (shortPid numpid) mapsFile, procName (shortPid numpid) exeFile]
              ends := (lopInitInfo m fuel tdMap).map fun info ↦ info.map fun tdInfo ↦
                { tdMap, tdLen, tdInfo } }
        | _, _ =>
            .failed [procName (shortPid numpid) mapsFile, procName (shortPid numpid) exeFile] := by
  have hmaps : (procName (shortPid numpid) mapsFile).length ≤ sizeofBuff :=
    Nat.le_trans (length_procName_le numpid mapsFile) (by decide)
  have hexe : (procName (shortPid numpid) exeFile).length ≤ sizeofBuff2 :=
    Nat.le_trans (length_procName_le numpid exeFile) (by decide)
  unfold mapParserInit
  rw [mapParserBuildProcfsFilename_eq (by decide), mapParserBuildProcfsFilename_eq (by decide)]
  exact (if_neg (Nat.not_lt.mpr hmaps)).trans (if_neg (Nat.not_lt.mpr hexe))

def ReportsError (run : InitRun) : Prop := ∃ text, run.ends = some (.error text)

/-- An error is reported, or both files are those of process `n`. -/
def OpensFilesOf (n : ℕ) (run : InitRun) : Prop :=
  ReportsError run ∨ run.opened = [procName n mapsFile, procName n exeFile]

theorem mapParserInit_opens (m : Bytes) (fuel : ℕ) (sys : SysInit) (numpid : Int32) :
    OpensFilesOf (shortPid numpid) (mapParserInit m fuel sys numpid) := by
  rw [mapParserInit_eq]
  split
  next => exact .inl ⟨_, rfl⟩
  next =>
    split
    next => exact .inl ⟨_, rfl⟩
    next =>
      split
      next => exact .inr rfl
      next => exact .inl ⟨_, rfl⟩

/-- The system does all that it is asked. -/
def allOpen : SysInit := { memOpens := true, fd := 3, stSize := some 274, mapped := some 0x1000 }

theorem mapParserInit_allOpen (numpid : Int32) :
    mapParserInit dynMemory 2 allOpen numpid =
      { opened := [procName (shortPid numpid) mapsFile, procName (shortPid numpid) exeFile]
        ends := some (.ok { tdMap := 0x1000, tdLen := 274, tdInfo := dynInfo }) } := by
  rw [mapParserInit_eq, if_neg (by decide), if_neg (by decide)]
  show InitRun.mk _ (Option.map _ (lopInitInfo dynMemory 2 0x1000)) = _
  rw [lopInitInfo_dynImage]
  rfl

/-- The names for a set of processes are as they should be: those of the files of the process
itself, none of them cut, and no two processes with one name. -/
structure NamesRight (pids : Set Int32) : Prop where
  exact : ∀ numpid ∈ pids, ∀ m fuel sys,
    OpensFilesOf numpid.toInt.toNat (mapParserInit m fuel sys numpid)
  whole : ∀ numpid ∈ pids, ∀ file ∈ [(mapsFile, sizeofBuff), (exeFile, sizeofBuff2)],
    (mapParserBuildProcfsFilename numpid file.1 file.2).2.length =
      (mapParserBuildProcfsFilename numpid file.1 file.2).1
  distinct : ∀ numpid ∈ pids, ∀ numpid' ∈ pids, numpid ≠ numpid' →
    ∀ file ∈ [(mapsFile, sizeofBuff), (exeFile, sizeofBuff2)],
      (mapParserBuildProcfsFilename numpid file.1 file.2).2 ≠
        (mapParserBuildProcfsFilename numpid' file.1 file.2).2

theorem fits_of_mem {file : List UInt8 × ℕ}
    (h : file ∈ [(mapsFile, sizeofBuff), (exeFile, sizeofBuff2)]) :
    file.1.length + 12 < file.2 := by
  have hall : ∀ file ∈ [(mapsFile, sizeofBuff), (exeFile, sizeofBuff2)],
      file.1.length + 12 < file.2 := by decide
  exact hall file h

/-- The names are right for processes with numbers below 65536 and for no other ones. -/
theorem mapParserInit_namesRight_iff (pids : Set Int32) (hpos : ∀ numpid ∈ pids, 0 < numpid) :
    NamesRight pids ↔ ∀ numpid ∈ pids, numpid.toInt < 65536 := by
  constructor
  · -- where the system opens everything there is no error, and the names show the number
    intro h numpid hmem
    obtain herror | hopened := h.exact numpid hmem dynMemory 2 allOpen
    · obtain ⟨text, hends⟩ := herror
      rw [mapParserInit_allOpen] at hends
      cases hends
    · rw [mapParserInit_allOpen, List.cons.injEq, procName_inj] at hopened
      exact (shortPid_eq_iff (hpos numpid hmem)).mp hopened.1
  · intro h
    have hshort : ∀ numpid ∈ pids, shortPid numpid = numpid.toInt.toNat :=
      fun numpid hmem ↦ (shortPid_eq_iff (hpos numpid hmem)).mpr (h numpid hmem)
    refine ⟨fun numpid hmem m fuel sys ↦ ?_, fun numpid _ file hfile ↦ ?_, ?_⟩
    · rw [← hshort numpid hmem]
      exact mapParserInit_opens m fuel sys numpid
    · rw [mapParserBuildProcfsFilename_eq (fits_of_mem hfile)]
    · intro numpid hmem numpid' hmem' hne file hfile hsame
      rw [mapParserBuildProcfsFilename_eq (fits_of_mem hfile),
        mapParserBuildProcfsFilename_eq (fits_of_mem hfile)] at hsame
      have hshorts := procName_inj.mp hsame
      rw [hshort numpid hmem, hshort numpid' hmem'] at hshorts
      have hpos₁ := Int32.lt_iff_toInt_lt.mp (hpos numpid hmem)
      have hpos₂ := Int32.lt_iff_toInt_lt.mp (hpos numpid' hmem')
      apply hne
      apply Int32.toInt_inj.mp
      simp only [Int32.toInt_zero] at hpos₁ hpos₂
      omega

theorem mapParserInit_namesRight_iff_two : NamesRight {1, 32768} := by
  refine (mapParserInit_namesRight_iff {1, 32768} fun numpid h ↦ ?_).mpr fun numpid h ↦ ?_
  · obtain rfl | rfl := h
    · decide
    · decide
  · obtain rfl | rfl := h
    · decide
    · decide

/-- For process 65537 the files of process 1 are opened. -/
theorem mapParserInit_opens_other :
    (mapParserInit dynMemory 2 allOpen 65537).opened = [procName 1 mapsFile, procName 1 exeFile] ∧
      (mapParserBuildProcfsFilename 65537 mapsFile sizeofBuff).2 =
        (mapParserBuildProcfsFilename 1 mapsFile sizeofBuff).2 ∧
      ¬ NamesRight {numpid | 0 < numpid} := by
  have hsame : (mapParserBuildProcfsFilename 65537 mapsFile sizeofBuff).2 =
      (mapParserBuildProcfsFilename 1 mapsFile sizeofBuff).2 := by decide +kernel
  refine ⟨by decide +kernel, hsame, fun h ↦ ?_⟩
  exact h.distinct 65537 (by decide) 1 (by decide) (by decide) (mapsFile, sizeofBuff)
    List.mem_cons_self hsame

end Divers.GotModifier
