import Divers.GotModifier.ObjParser

/-! Two lookups of a dynamic symbol by its name: in the table that `lop_build_plt_table` fills, and
by `lop_get_dynsym_by_name`, which starts `16 * sh_offset` bytes into the image. -/

open Divers.Library Divers.Library.Elf32

namespace Divers.GotModifier

variable {m : Bytes} {fuel base dyn n ret : ℕ} {ptr info : LopInfo} {name : List UInt8}

/-! ## The table -/

theorem lopReadDynsymSection_ok (h : lopReadDynsymSection m ptr = .ok (ret, info)) :
    ∃ dyn, lopGetSectionByType m ptr.lopEhdr shtDynsym = some dyn ∧
      lopGetSectionDynstrTab m ptr.lopEhdr dyn ≠ 0 ∧
      info = (lopBuildPltTable m ptr dyn (lopGetSectionDynstrTab m ptr.lopEhdr dyn)).2 := by
  unfold lopReadDynsymSection at h
  split at h
  next => cases h
  next dyn hdyn =>
    dsimp only at h
    split at h
    next => cases h
    next hstr =>
      have hbuild := Except.ok.inj h
      exact ⟨dyn, hdyn, hstr, by rw [hbuild]⟩

/-- An accepted image has a section of dynamic symbols, from which the table is filled. -/
theorem lopInitInfo_ok (h : lopInitInfo m fuel base = some (.ok info)) :
    ∃ dyn ptr, ptr.lopEhdr = base ∧ ptr.lopShdr = base + eShoff m base ∧
      lopGetSectionByType m base shtDynsym = some dyn ∧
      lopGetSectionDynstrTab m base dyn ≠ 0 ∧
      info = (lopBuildPltTable m ptr dyn (lopGetSectionDynstrTab m base dyn)).2 := by
  obtain ⟨⟨ret, ptr⟩, hread, hrest⟩ := Option.map_eq_some_iff.mp h
  obtain ⟨s, -, hptr⟩ := Option.map_eq_some_iff.mp hread
  have hehdr : ptr.lopEhdr = base := congrArg (fun r ↦ r.2.lopEhdr) hptr.symm
  have hshdr : ptr.lopShdr = base + eShoff m base := congrArg (fun r ↦ r.2.lopShdr) hptr.symm
  dsimp only at hrest
  split at hrest
  next => cases hrest
  next =>
    split at hrest
    next => cases hrest
    next ret' info' hsection =>
      split at hrest
      next => cases hrest
      next =>
        cases Except.ok.inj hrest
        obtain ⟨dyn, hdyn, hstr, hinfo⟩ := lopReadDynsymSection_ok hsection
        rw [hehdr] at hdyn hstr hinfo
        exact ⟨dyn, ptr, hehdr, hshdr, hdyn, hstr, hinfo⟩

/-- Looking a name up in the table scans its symbols. -/
theorem find?_lopPlt (m : Bytes) (ptr : LopInfo) (dyn str : ℕ) (name : List UInt8) :
    ((lopBuildPltTable m ptr dyn str).2.lopPlt.find? fun e ↦
        holdsString m e.lopSymname name).map LopDynsym.lopSym =
      (scanRecords (symNamed m ptr.lopEhdr str name) sizeofSym
        (min (shSize m dyn / sizeofSym) lopMaxDynsym) (ptr.lopEhdr + shOffset m dyn)).1 := by
  rw [scanRecords_found, records, List.find?_map]
  show ((List.map _ _).find? _).map _ = _
  rw [List.find?_map, Option.map_map]
  rfl

/-! ## The two lookups -/

/-- The name is among the symbols of the table, behind those that the other lookup does not see, or
it is in neither place.  `dyn` and `str` are the sections of the symbols and of their names. -/
def LookupsMeet (m : Bytes) (base dyn str : ℕ) (name : List UInt8) : Prop :=
  (∃ d i, 15 * shOffset m dyn = sizeofSym * d ∧ d ≤ i ∧
      i < min (shSize m dyn / sizeofSym) lopMaxDynsym ∧
      symNamed m base str name (base + shOffset m dyn + sizeofSym * i) = true ∧
      NoneBefore (symNamed m base str name) sizeofSym (base + shOffset m dyn) i) ∨
    (NoneBefore (symNamed m base str name) sizeofSym (base + shOffset m dyn)
        (min (shSize m dyn / sizeofSym) lopMaxDynsym) ∧
      NoneBefore (symNamed m base str name) sizeofSym (base + sizeofSym * shOffset m dyn)
        (shSize m dyn / sizeofSym))

theorem scans_eq_iff (m : Bytes) (base dyn str : ℕ) (name : List UInt8) :
    (scanRecords (symNamed m base str name) sizeofSym (shSize m dyn / sizeofSym)
        (base + sizeofSym * shOffset m dyn)).1 =
      (scanRecords (symNamed m base str name) sizeofSym
        (min (shSize m dyn / sizeofSym) lopMaxDynsym) (base + shOffset m dyn)).1 ↔
      LookupsMeet m base dyn str name := by
  constructor
  · intro h
    cases hfound : (scanRecords (symNamed m base str name) sizeofSym
        (min (shSize m dyn / sizeofSym) lopMaxDynsym) (base + shOffset m dyn)).1 with
    | none => exact Or.inr ⟨scanRecords_eq_none.mp hfound, scanRecords_eq_none.mp (h.trans hfound)⟩
    | some r =>
        obtain ⟨i, hi, hmatch, hbefore, hr⟩ := scanRecords_eq_some.mp hfound
        obtain ⟨j, hj, -, -, hr'⟩ := scanRecords_eq_some.mp (h.trans hfound)
        unfold sizeofSym at hr hr'
        refine Or.inl ⟨i - j, i, ?_, by omega, hi, hmatch, hbefore⟩
        unfold sizeofSym
        omega
  · intro h
    obtain ⟨d, i, hd, hdi, hi, hmatch, hbefore⟩ | ⟨htable, hscan⟩ := h
    · -- the scan starts at symbol `d` of the table
      have hshift : ∀ k, base + sizeofSym * shOffset m dyn + sizeofSym * k =
          base + shOffset m dyn + sizeofSym * (d + k) := by
        intro k
        unfold sizeofSym at hd ⊢
        omega
      have htable := scanRecords_eq_some.mpr ⟨i, hi, hmatch, hbefore, rfl⟩
      rw [htable]
      refine scanRecords_eq_some.mpr ⟨i - d, by omega, ?_, fun k hk ↦ ?_, ?_⟩
      · rw [hshift, Nat.add_sub_cancel' hdi]
        exact hmatch
      · rw [hshift]
        exact hbefore (d + k) (by omega)
      · rw [hshift, Nat.add_sub_cancel' hdi]
    · rw [scanRecords_eq_none.mpr htable, scanRecords_eq_none.mpr hscan]

/-- On an accepted image the two lookups agree on a name exactly if they meet. -/
theorem lopGetDynsymByName_iff (h : lopInitInfo m fuel base = some (.ok info))
    (name : List UInt8) :
    lopGetDynsymByName m base name =
        (info.lopPlt.find? fun e ↦ holdsString m e.lopSymname name).map LopDynsym.lopSym ↔
      ∃ dyn, lopGetSectionByType m base shtDynsym = some dyn ∧
        LookupsMeet m base dyn (lopGetSectionDynstrTab m base dyn) name := by
  obtain ⟨dyn, ptr, hehdr, -, hdyn, hstr, rfl⟩ := lopInitInfo_ok h
  rw [find?_lopPlt, hehdr, lopGetDynsymByName, hdyn]
  dsimp only
  rw [if_neg hstr, scans_eq_iff]
  constructor
  · intro hmeet
    exact ⟨dyn, rfl, hmeet⟩
  · intro hmeet
    obtain ⟨dyn', hdyn', hmeet⟩ := hmeet
    cases hdyn'
    exact hmeet

/-- An image with two segments, and a dynamic symbol `puts` in its section 1. -/
def dynImage : List (ℕ × List UInt8) :=
  [(28, bytesLE 4 52), (32, bytesLE 4 116), (44, bytesLE 2 2), (48, bytesLE 2 3),
    -- `r-x` and `rw-`
    (52, bytesLE 4 ptLoad), (76, bytesLE 4 5),
    (84, bytesLE 4 ptLoad), (108, bytesLE 4 6),
    -- `.dynsym` and `.dynstr`
    (160, bytesLE 4 shtDynsym), (172, bytesLE 4 236), (176, bytesLE 4 32), (180, bytesLE 4 2),
    (200, bytesLE 4 3), (212, bytesLE 4 268), (216, bytesLE 4 6),
    (252, bytesLE 4 1),
    (269, ascii ['p', 'u', 't', 's'])]

def dynMemory : Bytes := placed 0x1000 dynImage

def dynInfo : LopInfo :=
  { lopEhdr := 0x1000, lopPhdr := 0x1000 + 52, lopShdr := 0x1000 + 116
    lopTextvaddr := 0, lopDatavaddr := 0
    lopPlt := [⟨0x1000 + 236, none, 0x1000 + 268⟩, ⟨0x1000 + 252, none, 0x1000 + 269⟩]
    lopDynsymCount := 2 }

theorem lopInitInfo_dynImage : lopInitInfo dynMemory 2 0x1000 = some (.ok dynInfo) := by
  decide +kernel

-- A name that the image does not have.
theorem lopGetDynsymByName_iff_absent :
    lopInitInfo dynMemory 2 0x1000 = some (.ok dynInfo) ∧
      lopGetDynsymByName dynMemory 0x1000 (ascii ['g', 'e', 't', 's']) =
        (dynInfo.lopPlt.find? fun e ↦
          holdsString dynMemory e.lopSymname (ascii ['g', 'e', 't', 's'])).map
            LopDynsym.lopSym := by
  refine ⟨lopInitInfo_dynImage, (lopGetDynsymByName_iff lopInitInfo_dynImage _).mpr
    ⟨0x1000 + 156, ?_, Or.inr ⟨?_, ?_⟩⟩⟩
  · decide +kernel
  · decide +kernel
  · decide +kernel

/-- `puts` is in the table, and the other lookup does not find it. -/
theorem lopGetDynsymByName_misses :
    ¬ ∀ (m : Bytes) (fuel base : ℕ) (info : LopInfo) (name : List UInt8),
      lopInitInfo m fuel base = some (.ok info) →
        lopGetDynsymByName m base name =
          (info.lopPlt.find? fun e ↦ holdsString m e.lopSymname name).map LopDynsym.lopSym := by
  intro hclaim
  have hagree := hclaim dynMemory 2 0x1000 dynInfo (ascii ['p', 'u', 't', 's']) lopInitInfo_dynImage
  have hmissed : lopGetDynsymByName dynMemory 0x1000 (ascii ['p', 'u', 't', 's']) = none := by
    decide +kernel
  have hfound : (dynInfo.lopPlt.find? fun e ↦
      holdsString dynMemory e.lopSymname (ascii ['p', 'u', 't', 's'])).map LopDynsym.lopSym =
        some (0x1000 + 252) := by decide +kernel
  rw [hmissed, hfound] at hagree
  cases hagree

end Divers.GotModifier
