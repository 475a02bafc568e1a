import Divers.DslElf.Sections

/-! The search for the relocation entry of a symbol counts entries of 16 bytes and goes through
entries of 24. -/

open Divers.Library Divers.Library.Elf64

namespace Divers.DslElf

variable {m : Bytes} {base s4 s5 sectionInd i : ℕ}

/-! ## One symbol -/

/-- The relocation entries that lie inside the SHT_RELA sections linked to section `sectionInd`. -/
def relasInside (m : Bytes) (base sectionInd : ℕ) : List ℕ :=
  recordsInside (relaTables m base sectionInd) (sectionHeaders m base)

def RelaExact (m : Bytes) (base sectionInd symInd : ℕ) : Prop :=
  Exact (relaTables m base sectionInd) (sectionHeaders m base) (relaOfSym m symInd)
    (sectionHeaders m base)

/-- The byte `x` lies in an SHT_RELA section linked to section `sectionInd`. -/
def InRelaSections (m : Bytes) (base sectionInd x : ℕ) : Prop :=
  ∃ walker ∈ sectionHeaders m base, shType m walker = shtRela ∧ shLink m walker = sectionInd ∧
    base + shOffset m walker ≤ x ∧ x < base + shOffset m walker + shSize m walker

/-- The bytes read of the entries looked at, which are those of `r_info`, lie in the sections. -/
def RelasInside (m : Bytes) (base sectionInd : ℕ) (looks : List ℕ) : Prop :=
  ∀ curr ∈ looks, ∀ x, curr + 8 ≤ x → x < curr + 16 → InRelaSections m base sectionInd x

theorem covers_iff {curr : ℕ} :
    (relaTables m base sectionInd).Covers (sectionHeaders m base) curr ↔
      ∀ x, curr + 8 ≤ x → x < curr + 16 → InRelaSections m base sectionInd x := by
  refine forall_congr' fun x ↦ imp_congr_right fun _ ↦ imp_congr_right fun _ ↦ ?_
  simp [Tables.Has, InRelaSections, relaTables, and_assoc, eq_comm (a := sectionInd)]

theorem dlsGetRelSym_iff (m : Bytes) (base sectionInd symInd : ℕ) :
    (dlsGetRelSym m base sectionInd symInd).1 =
          (relasInside m base sectionInd).find? (relaOfSym m symInd) ∧
        RelasInside m base sectionInd (dlsGetRelSym m base sectionInd symInd).2 ↔
      RelaExact m base sectionInd symInd := by
  rw [RelaExact, ← searchTables_exact_iff fun _ h ↦ h]
  exact and_congr_right fun _ ↦ forall₂_congr fun _ _ ↦ covers_iff.symm

/-! ## The array -/

/-- The index of the section with header `s4`. -/
def sectionIndex (m : Bytes) (base s4 : ℕ) : ℕ := (s4 - (base + eShoff m base)) / sizeofShdr

def symAt (m : Bytes) (base s4 i : ℕ) : ℕ := base + shOffset m s4 + sizeofSym * i

/-- The entry that symbol `i` is to have. -/
def externalSym (m : Bytes) (base s4 s5 i : ℕ) : DlsExternalSym where
  deSym := symAt m base s4 i
  deName := base + shOffset m s5 + stName m (symAt m base s4 i)
  deRel := (relasInside m base (sectionIndex m base s4)).find? (relaOfSym m i)

/-- The array has exactly the external symbols of the table, in its order, each with its name and
its first relocation entry, and what is read of relocation entries lies in the sections for
these. -/
structure ListsExternals (m : Bytes) (base s4 s5 : ℕ)
    (out : List (DlsExternalSym × List ℕ)) : Prop where
  array : out.map Prod.fst =
    ((List.range (shSize m s4 / sizeofSym)).filter fun i ↦ isExternal m (symAt m base s4 i)).map
      (externalSym m base s4 s5)
  inside : ∀ e ∈ out, RelasInside m base (sectionIndex m base s4) e.2

/-- What the function makes of symbol `i`. -/
def listedSym (m : Bytes) (base s4 s5 i : ℕ) : DlsExternalSym × List ℕ :=
  ({ deSym := symAt m base s4 i
     deName := base + shOffset m s5 + stName m (symAt m base s4 i)
     deRel := (dlsGetRelSym m base (sectionIndex m base s4) i).1 },
    (dlsGetRelSym m base (sectionIndex m base s4) i).2)

theorem dlsGetExternalSyms_eq (hdynsym : dlsGetShdrByName m base dynsymName = some s4)
    (hdynstr : dlsGetShdrByName m base dynstrName = some s5) :
    dlsGetExternalSyms m base = some (((List.range (nrSym m s4)).filter fun i ↦
      isExternal m (symAt m base s4 i)).map (listedSym m base s4 s5)) := by
  unfold dlsGetExternalSyms
  rw [hdynsym, hdynstr]
  rfl

theorem nrSym_le (m : Bytes) (s4 : ℕ) : nrSym m s4 ≤ shSize m s4 / sizeofSym := by
  have := Nat.mod_le (shSize m s4 / sizeofSym) (2 ^ 32)
  unfold nrSym
  dsimp only
  split
  · exact this
  · exact Nat.zero_le _

/-- `nr_sym` misses no external symbol, and the search is exact for each of them. -/
def ExternalsExact (m : Bytes) (base s4 : ℕ) : Prop :=
  ∀ i < shSize m s4 / sizeofSym, isExternal m (symAt m base s4 i) = true →
    i < nrSym m s4 ∧ RelaExact m base (sectionIndex m base s4) i

theorem listedSym_iff (m : Bytes) (base s4 s5 i : ℕ) :
    (listedSym m base s4 s5 i).1 = externalSym m base s4 s5 i ∧
        RelasInside m base (sectionIndex m base s4) (listedSym m base s4 s5 i).2 ↔
      RelaExact m base (sectionIndex m base s4) i := by
  rw [← dlsGetRelSym_iff]
  simp [listedSym, externalSym]

/-- The symbols that the function goes through, and the others. -/
theorem range_filter (m : Bytes) (base s4 : ℕ) :
    ∃ l, ((List.range (shSize m s4 / sizeofSym)).filter fun i ↦ isExternal m (symAt m base s4 i)) =
        ((List.range (nrSym m s4)).filter fun i ↦ isExternal m (symAt m base s4 i)) ++ l ∧
      (l = [] ↔ ∀ i < shSize m s4 / sizeofSym, isExternal m (symAt m base s4 i) = true →
        i < nrSym m s4) := by
  have hle := nrSym_le m s4
  obtain ⟨k, hk⟩ := Nat.exists_eq_add_of_le hle
  rw [hk, List.range_add, List.filter_append]
  refine ⟨_, rfl, ?_⟩
  rw [List.filter_eq_nil_iff]
  constructor
  · intro h i hi hext
    by_contra hge
    have hmem : i ∈ (List.range k).map (nrSym m s4 + ·) :=
      List.mem_map.mpr ⟨i - nrSym m s4, List.mem_range.mpr (by omega), by omega⟩
    exact h i hmem hext
  · intro h i hi hext
    obtain ⟨j, hj, rfl⟩ := List.mem_map.mp hi
    have := h _ (by have := List.mem_range.mp hj; omega) hext
    omega

/-- An image with the external symbol `funky`, two relocation entries, of which the first has this
`r_info`, and behind them a record that looks like an entry for it. -/
def symImage (info : ℕ) : List (ℕ × List UInt8) :=
  [(40, bytesLE 8 64), (60, bytesLE 2 5), (62, bytesLE 2 4),
    -- `.dynsym`, `.dynstr`, `.rela.plt` and `.shstrtab`
    (128, bytesLE 4 1), (132, bytesLE 4 shtDynsym), (152, bytesLE 8 456), (160, bytesLE 8 48),
    (168, bytesLE 4 2),
    (192, bytesLE 4 9), (196, bytesLE 4 3), (216, bytesLE 8 504), (224, bytesLE 8 7),
    (260, bytesLE 4 shtRela), (280, bytesLE 8 384), (288, bytesLE 8 48), (296, bytesLE 4 1),
    (324, bytesLE 4 3), (344, bytesLE 8 511), (352, bytesLE 8 17),
    (384, bytesLE 8 0x4000), (392, bytesLE 8 info),
    (408, bytesLE 8 0x4008), (416, bytesLE 8 8),
    (440, bytesLE 8 (2 ^ 32 + 7)),
    (480, bytesLE 4 1), (484, bytesLE 1 16),
    (505, ascii ['f', 'u', 'n', 'k', 'y']),
    (512, dynsymName), (520, dynstrName)]

def symMemory (info : ℕ) : Bytes := placed 0x1000 (symImage info)

/-- Symbol 1 is the only external one. -/
theorem eq_one_of_external {i : ℕ} (hi : i < shSize (symMemory (2 ^ 32 + 7)) 0x1080 / sizeofSym)
    (hext : isExternal (symMemory (2 ^ 32 + 7)) (symAt (symMemory (2 ^ 32 + 7)) 0x1000 0x1080 i) =
      true) : i = 1 := by
  have hsize : shSize (symMemory (2 ^ 32 + 7)) 0x1080 / sizeofSym = 2 := by decide +kernel
  have hlocal : isExternal (symMemory (2 ^ 32 + 7))
      (symAt (symMemory (2 ^ 32 + 7)) 0x1000 0x1080 0) = false := by decide +kernel
  obtain rfl | rfl : i = 0 ∨ i = 1 := by omega
  · rw [hlocal] at hext
    cases hext
  · rfl

/-- The first entry of the one section is that of `funky`. -/
theorem symMemory_exact : ExternalsExact (symMemory (2 ^ 32 + 7)) 0x1000 0x1080 := by
  intro i hi hext
  obtain rfl := eq_one_of_external hi hext
  refine ⟨by decide +kernel, ?_⟩
  have hheaders : sectionHeaders (symMemory (2 ^ 32 + 7)) 0x1000 =
      [0x1040, 0x1080, 0x10C0, 0x1100, 0x1140] := by decide +kernel
  rw [RelaExact, hheaders]
  refine .skip (by decide +kernel) (.skip (by decide +kernel) (.skip (by decide +kernel) ?_))
  exact .hit (j := 0) (by decide +kernel) (by decide +kernel) (by decide +kernel)
    (by decide +kernel)

end Divers.DslElf
