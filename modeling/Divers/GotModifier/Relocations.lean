import Divers.GotModifier.ObjParser

/-! The search for the relocation entry of a symbol goes through `sh_offset / 8` entries of a
section, however many there are. -/

open Divers.Library Divers.Library.Elf32

namespace Divers.GotModifier

variable (m : Bytes) (ptr : LopInfo) (sind : UInt32)

def sectionHeaders : List ℕ := records sizeofShdr (eShnum m ptr.lopEhdr) ptr.lopShdr

/-- The relocation entries that lie inside the SHT_REL sections linked to section `sind`, in section
order and then in entry order. -/
def relsInside : List ℕ := recordsInside (relTables m ptr sind) (sectionHeaders m ptr)

/-- The byte `x` lies in an SHT_REL section linked to section `sind`. -/
def InRelSections (x : ℕ) : Prop :=
  ∃ iter ∈ sectionHeaders m ptr, shType m iter = shtRel ∧ shLink m iter = sind.toNat ∧
    ptr.lopEhdr + shOffset m iter ≤ x ∧ x < ptr.lopEhdr + shOffset m iter + shSize m iter

/-- The result is the first entry of symbol `ind`, and the bytes read of the entries looked at,
which are those of `r_info`, lie in the sections. -/
structure FindsRel (ind : UInt32) (result : Option ℕ × List ℕ) : Prop where
  first : result.1 = (relsInside m ptr sind).find? (relOfSym m ind)
  inside : ∀ current ∈ result.2, ∀ x, current + 4 ≤ x → x < current + 8 →
    InRelSections m ptr sind x

variable {m ptr sind}

theorem has_iff_inRelSections {x : ℕ} :
    (relTables m ptr sind).Has (sectionHeaders m ptr) x ↔ InRelSections m ptr sind x := by
  simp [Tables.Has, InRelSections, relTables, and_assoc, eq_comm (a := sind.toNat)]

theorem covers_iff {current : ℕ} :
    (relTables m ptr sind).Covers (sectionHeaders m ptr) current ↔
      ∀ x, current + 4 ≤ x → x < current + 8 → InRelSections m ptr sind x :=
  forall_congr' fun _ ↦ imp_congr_right fun _ ↦ imp_congr_right fun _ ↦ has_iff_inRelSections

variable (m ptr sind)

/-- The search is right exactly if nothing it does in front of the first section with a match both
inside and among the `sh_offset / 8` entries gone through leads it astray: it reads bytes of such
sections only, and an entry that it misses there, or takes behind the section's end, is all the same
the first that it comes to, or that is inside a later section. -/
theorem lopFindRelBySym_iff (ind : UInt32) :
    FindsRel m ptr sind ind (lopFindRelBySym m ptr sind ind) ↔
      Exact (relTables m ptr sind) (sectionHeaders m ptr) (relOfSym m ind)
        (sectionHeaders m ptr) := by
  rw [← searchTables_exact_iff fun _ h ↦ h]
  constructor
  · intro h
    exact ⟨h.first, fun current hlook ↦ covers_iff.mpr (h.inside current hlook)⟩
  · intro h
    exact ⟨h.1, fun current hlook ↦ covers_iff.mp (h.2 current hlook)⟩

/-- An image with a relocation section of one entry, for symbol 2, and a symbol section of three
symbols behind it.  The value of symbol 1 is 256. -/
def relImage : List (ℕ × List UInt8) :=
  [(32, bytesLE 4 52), (48, bytesLE 2 3),
    -- `.dynsym` and `.rel.plt`
    (96, bytesLE 4 shtDynsym), (108, bytesLE 4 180), (112, bytesLE 4 48),
    (136, bytesLE 4 shtRel), (148, bytesLE 4 172), (152, bytesLE 4 8), (156, bytesLE 4 1),
    (172, bytesLE 4 0x2000), (176, bytesLE 4 0x207),
    (196, bytesLE 4 1), (200, bytesLE 4 0x100),
    (212, bytesLE 4 5)]

def relInfo : LopInfo := ⟨0x1000, 0x1000, 0x1000 + 52, 0, 0, [], 0⟩

/-- Symbol 1 has no relocation, and symbol 1 itself is returned as its relocation. -/
theorem lopFindRelBySym_leaves :
    ¬ ∀ (m : Bytes) (ptr : LopInfo) (sind ind : UInt32),
      FindsRel m ptr sind ind (lopFindRelBySym m ptr sind ind) := by
  intro hclaim
  have hfirst := (hclaim (placed 0x1000 relImage) relInfo 1 1).first
  have hfound : (lopFindRelBySym (placed 0x1000 relImage) relInfo 1 1).1 = some (0x1000 + 196) := by
    decide +kernel
  have hnone : (relsInside (placed 0x1000 relImage) relInfo 1).find?
      (relOfSym (placed 0x1000 relImage) 1) = none := by
    decide +kernel
  rw [hfound, hnone] at hfirst
  cases hfirst

end Divers.GotModifier
