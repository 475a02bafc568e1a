import Divers.GotModifier.MapParser

/-! The word that `map_parser_replace_virtual_addrfunc` pokes.  The relocation is that of the first
entry with the name, where it has one or not; the value is that of the last symbol with the name,
where it is defined or not. -/

open Divers.Library Divers.Library.Elf32

namespace Divers.GotModifier

variable {m : Bytes} {fname1 fname2 : List UInt8} {task lib : LopInfo} {libVaddr : UInt32}

/-! ## The two searches -/

theorem findTaskRel_eq (m : Bytes) (fname1 : List UInt8) (plt : List LopDynsym) :
    findTaskRel m fname1 plt = (plt.find? (pltNamed m fname1)).bind LopDynsym.lopRel := by
  induction plt with
  | nil => rfl
  | cons e plt ih =>
      rw [findTaskRel]
      by_cases he : pltNamed m fname1 e = true
      · rw [if_pos he, List.find?_cons_of_pos he, Option.bind_some]
      · rw [if_neg he, List.find?_cons_of_neg he, ih]

theorem findLibSym_eq (m : Bytes) (fname2 : List UInt8) (sym2 : Option ℕ) (plt : List LopDynsym) :
    findLibSym m fname2 sym2 plt =
      ((plt.reverse.find? (pltNamed m fname2)).map LopDynsym.lopSym).or sym2 := by
  induction plt generalizing sym2 with
  | nil => rfl
  | cons e plt ih =>
      rw [findLibSym, ih, List.reverse_cons, List.find?_append]
      cases plt.reverse.find? (pltNamed m fname2) with
      | some e' => rfl
      | none =>
          by_cases he : pltNamed m fname2 e = true
          · rw [if_pos he, List.find?_cons_of_pos he]
            rfl
          · rw [if_neg he, List.find?_cons_of_neg he]
            rfl

/-! ## The words -/

/-- The words that are poked, with their addresses. -/
def pokes (requests : List PtraceRequest) : List (ℕ × UInt32) :=
  requests.filterMap fun
    | .pokeText addr val => some (addr, val)
    | _ => none

theorem pokes_eq (m : Bytes) (fname1 fname2 : List UInt8) (task lib : LopInfo)
    (libVaddr : UInt32) :
    pokes (mapParserReplaceVirtualAddrfunc m fname1 fname2 true task lib libVaddr) =
      match ((pltEntries task).find? (pltNamed m fname1)).bind LopDynsym.lopRel,
        (pltEntries lib).reverse.find? (pltNamed m fname2) with
      | some rel, some e => [(rOffset m rel, libVaddr + UInt32.ofNat (stValue m e.lopSym))]
      | _, _ => [] := by
  unfold mapParserReplaceVirtualAddrfunc
  rw [findTaskRel_eq, findLibSym_eq, Option.or_none]
  cases ((pltEntries task).find? (pltNamed m fname1)).bind LopDynsym.lopRel with
  | none => rfl
  | some rel =>
      cases (pltEntries lib).reverse.find? (pltNamed m fname2) with
      | none => rfl
      | some e => rfl

/-- An entry of the task with the name has the relocation. -/
def Relocated (m : Bytes) (fname1 : List UInt8) (task : LopInfo) (rel : ℕ) : Prop :=
  ∃ e ∈ pltEntries task, pltNamed m fname1 e = true ∧ e.lopRel = some rel

/-- An entry of the library with the name is for the symbol, which is defined. -/
def Defined (m : Bytes) (fname2 : List UInt8) (lib : LopInfo) (sym : ℕ) : Prop :=
  ∃ e ∈ pltEntries lib, pltNamed m fname2 e = true ∧ e.lopSym = sym ∧ stShndx m sym ≠ shnUndef

/-- One word is poked where the task can be patched with a symbol of the library, and none
otherwise. -/
structure PatchesRight (m : Bytes) (fname1 fname2 : List UInt8) (task lib : LopInfo)
    (libVaddr : UInt32) : Prop where
  patched : (∃ rel, Relocated m fname1 task rel) → (∃ sym, Defined m fname2 lib sym) →
    ∃ rel sym, Relocated m fname1 task rel ∧ Defined m fname2 lib sym ∧
      pokes (mapParserReplaceVirtualAddrfunc m fname1 fname2 true task lib libVaddr) =
        [(rOffset m rel, libVaddr + UInt32.ofNat (stValue m sym))]
  untouched : ¬ ((∃ rel, Relocated m fname1 task rel) ∧ ∃ sym, Defined m fname2 lib sym) →
    pokes (mapParserReplaceVirtualAddrfunc m fname1 fname2 true task lib libVaddr) = []

/-- The first entry of the task with its name is relocated where any is, and where it is, the last
entry of the library with its name has the value of one that is defined. -/
structure OrderSuits (m : Bytes) (fname1 fname2 : List UInt8) (task lib : LopInfo) : Prop where
  first : (∃ rel, Relocated m fname1 task rel) → (∃ sym, Defined m fname2 lib sym) →
    ∃ e, (pltEntries task).find? (pltNamed m fname1) = some e ∧ e.lopRel ≠ none
  last : ∀ e e', (pltEntries task).find? (pltNamed m fname1) = some e → e.lopRel ≠ none →
    (pltEntries lib).reverse.find? (pltNamed m fname2) = some e' →
      ∃ sym, Defined m fname2 lib sym ∧ stValue m sym = stValue m e'.lopSym

theorem value_inj {a b : ℕ} (ha : a < 2 ^ 32) (hb : b < 2 ^ 32)
    (h : libVaddr + UInt32.ofNat a = libVaddr + UInt32.ofNat b) : a = b := by
  have hword := congrArg UInt32.toNat ((UInt32.add_right_inj libVaddr).mp h)
  rw [UInt32.toNat_ofNat_of_lt' ha, UInt32.toNat_ofNat_of_lt' hb] at hword
  exact hword

theorem patchesRight_of_pokes {rel sym' : ℕ}
    (hpokes : pokes (mapParserReplaceVirtualAddrfunc m fname1 fname2 true task lib libVaddr) =
      [(rOffset m rel, libVaddr + UInt32.ofNat (stValue m sym'))])
    (hrel : Relocated m fname1 task rel) :
    PatchesRight m fname1 fname2 task lib libVaddr ↔
      ∃ sym, Defined m fname2 lib sym ∧ stValue m sym = stValue m sym' := by
  constructor
  · intro h
    by_cases hsym : ∃ sym, Defined m fname2 lib sym
    · obtain ⟨rel', sym, -, hdefined, hword⟩ := h.patched ⟨rel, hrel⟩ hsym
      rw [hpokes, List.singleton_inj, Prod.mk.injEq] at hword
      exact ⟨sym, hdefined, (value_inj (loadLE_lt m _ 4) (loadLE_lt m _ 4) hword.2).symm⟩
    · have hnone := h.untouched fun hboth ↦ hsym hboth.2
      rw [hpokes] at hnone
      cases hnone
  · intro h
    obtain ⟨sym, hdefined, hvalue⟩ := h
    refine ⟨fun _ _ ↦ ⟨rel, sym, hrel, hdefined, ?_⟩, fun hnone ↦ ?_⟩
    · rw [hpokes, hvalue]
    · exact absurd ⟨⟨rel, hrel⟩, ⟨sym, hdefined⟩⟩ hnone

theorem patchesRight_of_nil
    (hpokes : pokes (mapParserReplaceVirtualAddrfunc m fname1 fname2 true task lib libVaddr) = []) :
    PatchesRight m fname1 fname2 task lib libVaddr ↔
      ¬ ((∃ rel, Relocated m fname1 task rel) ∧ ∃ sym, Defined m fname2 lib sym) := by
  constructor
  · intro h hboth
    obtain ⟨rel, sym, -, -, hword⟩ := h.patched hboth.1 hboth.2
    rw [hpokes] at hword
    cases hword
  · intro h
    exact ⟨fun hrel hsym ↦ absurd ⟨hrel, hsym⟩ h, fun _ ↦ hpokes⟩

/-- Exactly the right word is poked exactly if the order of the tables suits the searches. -/
theorem mapParserReplaceVirtualAddrfunc_iff (m : Bytes) (fname1 fname2 : List UInt8)
    (task lib : LopInfo) (libVaddr : UInt32) :
    PatchesRight m fname1 fname2 task lib libVaddr ↔ OrderSuits m fname1 fname2 task lib := by
  have hpokes := pokes_eq m fname1 fname2 task lib libVaddr
  cases hrel : ((pltEntries task).find? (pltNamed m fname1)).bind LopDynsym.lopRel with
  | none =>
      -- nothing is poked: the first entry with the name, if any, has no relocation
      rw [hrel] at hpokes
      have hfirst : ∀ e, (pltEntries task).find? (pltNamed m fname1) = some e →
          e.lopRel = none := by
        intro e he
        rw [he] at hrel
        exact hrel
      rw [patchesRight_of_nil hpokes]
      constructor
      · intro h
        exact ⟨fun hrel hsym ↦ absurd ⟨hrel, hsym⟩ h, fun e e' he hne _ ↦ absurd (hfirst e he) hne⟩
      · intro h hboth
        obtain ⟨e, he, hne⟩ := h.first hboth.1 hboth.2
        exact hne (hfirst e he)
  | some rel =>
      rw [hrel] at hpokes
      obtain ⟨e, he, herel⟩ := Option.bind_eq_some_iff.mp hrel
      have hne : e.lopRel ≠ none := by
        rw [herel]
        exact Option.some_ne_none rel
      have hrelocated : Relocated m fname1 task rel :=
        ⟨e, List.mem_of_find?_eq_some he, List.find?_some he, herel⟩
      cases hlast : (pltEntries lib).reverse.find? (pltNamed m fname2) with
      | none =>
          -- nothing is poked, and the library has no entry with the name either
          rw [hlast] at hpokes
          rw [patchesRight_of_nil hpokes]
          refine iff_of_true (fun hboth ↦ ?_) ⟨fun _ _ ↦ ⟨e, he, hne⟩, fun _ e' _ _ he' ↦ ?_⟩
          · obtain ⟨sym, e', he', hnamed, -⟩ := hboth.2
            exact List.find?_eq_none.mp hlast e' (List.mem_reverse.mpr he') hnamed
          · rw [hlast] at he'
            cases he'
      | some e' =>
          -- the relocation is right, so it is the value of the last entry that matters
          rw [hlast] at hpokes
          rw [patchesRight_of_pokes hpokes hrelocated]
          constructor
          · intro h
            refine ⟨fun _ _ ↦ ⟨e, he, hne⟩, fun _ e'' _ _ he'' ↦ ?_⟩
            rw [hlast] at he''
            cases he''
            exact h
          · intro h
            exact h.last e e' he hne hlast

def putsName : List UInt8 := ascii ['p', 'u', 't', 's']

/-- An image with two dynamic symbols `puts`, of which the first is defined and the second is not,
and with a relocation for one of them. -/
def putsImage (relocated : ℕ) : List (ℕ × List UInt8) :=
  [(28, bytesLE 4 52), (32, bytesLE 4 116), (44, bytesLE 2 2), (48, bytesLE 2 4),
    -- `r-x` and `rw-`
    (52, bytesLE 4 ptLoad), (76, bytesLE 4 5),
    (84, bytesLE 4 ptLoad), (108, bytesLE 4 6),
    -- `.dynsym`, `.dynstr` and `.rel.plt`
    (160, bytesLE 4 shtDynsym), (172, bytesLE 4 276), (176, bytesLE 4 48), (180, bytesLE 4 2),
    (200, bytesLE 4 3), (212, bytesLE 4 324), (216, bytesLE 4 6),
    (240, bytesLE 4 shtRel), (252, bytesLE 4 332), (256, bytesLE 4 8), (260, bytesLE 4 1),
    (292, bytesLE 4 1), (296, bytesLE 4 0x100), (306, bytesLE 2 5),
    (308, bytesLE 4 1),
    (325, putsName),
    (332, bytesLE 4 0x8049000), (336, bytesLE 4 (2 ^ 8 * relocated + 7))]

def putsMemory (relocated : ℕ) : Bytes := placed 0x1000 (putsImage relocated)

def putsInfo (first second : Option ℕ) : LopInfo :=
  { lopEhdr := 0x1000, lopPhdr := 0x1000 + 52, lopShdr := 0x1000 + 116
    lopTextvaddr := 0, lopDatavaddr := 0
    lopPlt := [⟨0x1000 + 276, some (0x1000 + 340), 0x1000 + 324⟩,
      ⟨0x1000 + 292, first, 0x1000 + 325⟩, ⟨0x1000 + 308, second, 0x1000 + 325⟩]
    lopDynsymCount := 3 }

/-- Nothing is poked where the relocation is for the second `puts`, and the value of the undefined
`puts` where it is for the first. -/
theorem mapParserReplaceVirtualAddrfunc_mispatches :
    lopInitInfo (putsMemory 2) 2 0x1000 = some (.ok (putsInfo none (some (0x1000 + 332)))) ∧
      ¬ PatchesRight (putsMemory 2) putsName putsName (putsInfo none (some (0x1000 + 332)))
        (putsInfo none (some (0x1000 + 332))) 0x40000000 ∧
      lopInitInfo (putsMemory 1) 2 0x1000 = some (.ok (putsInfo (some (0x1000 + 332)) none)) ∧
      ¬ PatchesRight (putsMemory 1) putsName putsName (putsInfo (some (0x1000 + 332)) none)
        (putsInfo (some (0x1000 + 332)) none) 0x40000000 := by
  refine ⟨by decide +kernel, fun h ↦ ?_, by decide +kernel, fun h ↦ ?_⟩
  · apply (patchesRight_of_nil (by decide +kernel)).mp h
    exact ⟨⟨0x1000 + 332, ⟨0x1000 + 308, some (0x1000 + 332), 0x1000 + 325⟩, by decide +kernel,
        by decide +kernel, rfl⟩,
      ⟨0x1000 + 292, ⟨0x1000 + 292, none, 0x1000 + 325⟩, by decide +kernel, by decide +kernel, rfl,
        by decide +kernel⟩⟩
  · have hpokes : pokes (mapParserReplaceVirtualAddrfunc (putsMemory 1) putsName putsName true
        (putsInfo (some (0x1000 + 332)) none) (putsInfo (some (0x1000 + 332)) none) 0x40000000) =
          [(rOffset (putsMemory 1) (0x1000 + 332),
            0x40000000 + UInt32.ofNat (stValue (putsMemory 1) (0x1000 + 308)))] := by
      decide +kernel
    obtain ⟨sym, ⟨e, he, hnamed, rfl, hdefined⟩, hvalue⟩ := (patchesRight_of_pokes hpokes
      ⟨⟨0x1000 + 292, some (0x1000 + 332), 0x1000 + 325⟩, by decide +kernel, by decide +kernel,
        rfl⟩).mp h
    have hdiffers : ∀ e ∈ pltEntries (putsInfo (some (0x1000 + 332)) none),
        pltNamed (putsMemory 1) putsName e = true →
        stShndx (putsMemory 1) e.lopSym ≠ shnUndef →
        stValue (putsMemory 1) e.lopSym ≠ stValue (putsMemory 1) (0x1000 + 308) := by
      decide +kernel
    exact hdiffers e he hnamed hdefined hvalue

end Divers.GotModifier
