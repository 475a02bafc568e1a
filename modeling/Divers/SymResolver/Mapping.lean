import Divers.SymResolver.Lookup
import Divers.SymResolver.Reads

/-! The bytes that are read of a mapped file.  No offset of the file is compared with the size of
the mapping, so what is read lies in it only if the file says so itself. -/

open Divers.Library Divers.Library.Elf32

namespace Divers.SymResolver

/-! ## What a file has to hold -/

section

variable (m : Bytes) (mem len : ℕ) (secname : List UInt8)

def sectionHdr (i : ℕ) : ℕ := mem + eShoff m mem + sizeofShdr * i

/-- The names of the sections. -/
def sectionStr : ℕ := mem + shOffset m (sectionHdr m mem (eShstrndx m mem))

def isNamed (shdr : ℕ) : Bool := holdsString m (sectionStr m mem + shName m shdr) secname

/-- No section before number `i` has the name. -/
def NoneNamed (i : ℕ) : Prop :=
  NoneBefore (isNamed m mem secname) sizeofShdr (mem + eShoff m mem) i

instance {i : ℕ} : Decidable (NoneNamed m mem secname i) :=
  inferInstanceAs (Decidable (NoneBefore _ _ _ _))

/-- The headers that are looked at, and so much of the names as tells them from the one that is
searched. -/
def SearchFits : Prop :=
  ∀ i < eShnum m mem, NoneNamed m mem secname i →
    sectionHdr m mem i + 4 ≤ mem + len ∧
      ¬ Reading.bytesUpTo m (sectionStr m mem + shName m (sectionHdr m mem i)) (mem + len) <+:
        secname

instance : Decidable (SearchFits m mem len secname) :=
  inferInstanceAs (Decidable (∀ i < _, _))

/-- Section `i` is the one that a search gives. -/
def IsFirst (i : ℕ) : Prop :=
  isNamed m mem secname (sectionHdr m mem i) = true ∧ NoneNamed m mem secname i

instance {i : ℕ} : Decidable (IsFirst m mem secname i) := inferInstanceAs (Decidable (_ ∧ _))

def symbol (i k : ℕ) : ℕ := mem + shOffset m (sectionHdr m mem i) + sizeofSym * k

def symName (j sym : ℕ) : ℕ := mem + shOffset m (sectionHdr m mem j) + stName m sym

/-- The symbols of section `i`, and their names in section `j` with the ends. -/
def SymbolsFit (i j : ℕ) : Prop :=
  sectionHdr m mem i + 24 ≤ mem + len ∧ sectionHdr m mem j + 20 ≤ mem + len ∧
    ∀ k < shSize m (sectionHdr m mem i) / sizeofSym,
      symbol m mem i k + 12 ≤ mem + len ∧
        0 ∈ Reading.bytesUpTo m (symName m mem j (symbol m mem i k)) (mem + len)

instance {i j : ℕ} : Decidable (SymbolsFit m mem len i j) :=
  inferInstanceAs (Decidable (_ ∧ _ ∧ ∀ k < _, _))

def FileFits : Prop :=
  eShstrndx m mem = 0 ∨
    sectionHdr m mem (eShstrndx m mem) + 20 ≤ mem + len ∧ SearchFits m mem len symtabName ∧
      ∀ i < eShnum m mem, IsFirst m mem symtabName i →
        SearchFits m mem len strtabName ∧
          ∀ j < eShnum m mem, IsFirst m mem strtabName j → SymbolsFit m mem len i j

instance : Decidable (FileFits m mem len) :=
  inferInstanceAs (Decidable (_ ∨ _ ∧ _ ∧ ∀ i < _, _ → _ ∧ ∀ j < _, _))

/-- The descriptor with which the sections are searched. -/
def sectionsDesc : SymResolvDesc :=
  { srMem := mem
    srMemlen := len
    srEhdr := some mem
    srShdr := mem + eShoff m mem
    srShdrstrsectab := some (sectionHdr m mem (eShstrndx m mem))
    srShdrsymtab := none
    srShdrstrsymtab := none
    srSectionstr := sectionStr m mem }

def openedDesc (i j : ℕ) : SymResolvDesc :=
  { sectionsDesc m mem len with
    srShdrsymtab := some (sectionHdr m mem i)
    srShdrstrsymtab := some (sectionHdr m mem j) }

end

variable {m : Bytes} {mem len i j : ℕ} {secname : List UInt8} {fd : ℤ} {desc : SymResolvDesc}

theorem le_sectionHdr (m : Bytes) (mem i : ℕ) : mem ≤ sectionHdr m mem i := by
  unfold sectionHdr
  omega

theorem le_sectionStr (m : Bytes) (mem : ℕ) : mem ≤ sectionStr m mem := Nat.le_add_right _ _

/-! ## Opening -/

theorem inside_symResolvSectionhdrToSectionReads (m : Bytes) (mem i hi : ℕ) :
    (symResolvSectionhdrToSectionReads m mem (sectionHdr m mem i)).Inside mem hi ↔
      sectionHdr m mem i + 20 ≤ hi := by
  have hlo := le_sectionHdr m mem i
  rw [symResolvSectionhdrToSectionReads, Reading.inside_bind, and_iff_left (Reading.inside_pure _),
    Reading.inside_load (by omega) (by omega)]

theorem inside_symResolvGetSectionhdrByNameReads (hlen : 52 ≤ len) :
    (symResolvGetSectionhdrByNameReads m (sectionsDesc m mem len) mem secname).Inside mem
      (mem + len) ↔ SearchFits m mem len secname := by
  have hstr := le_sectionStr m mem
  rw [symResolvGetSectionhdrByNameReads, Reading.inside_bind,
    Reading.inside_load (by omega) (by omega), and_iff_right (by omega), Reading.inside_scanRecords]
  apply forall₂_congr
  intro i _
  have hnamed : (fun ptr ↦ ((do
      Reading.holdsString m ((sectionsDesc m mem len).srSectionstr + (← .load m ptr 4))
        secname) : Reading Bool).value) = isNamed m mem secname := by
    funext ptr
    rw [Reading.value_bind, Reading.value_holdsString]
    rfl
  rw [hnamed]
  apply imp_congr_right
  intro _
  have hlo := le_sectionHdr m mem i
  rw [Reading.inside_bind]
  show Reading.Inside (.load m (sectionHdr m mem i) 4) _ _ ∧
    Reading.Inside (.holdsString m (sectionStr m mem + shName m (sectionHdr m mem i)) secname) _ _ ↔
      _
  rw [Reading.inside_load hlo (by omega), Reading.inside_holdsString (by omega)]

/-- What a search gives. -/
theorem symResolvGetSectionhdrByName_eq_some {shdr : ℕ} :
    symResolvGetSectionhdrByName m (some (sectionsDesc m mem len)) secname = some shdr ↔
      ∃ i < eShnum m mem, IsFirst m mem secname i ∧ shdr = sectionHdr m mem i := by
  have hsearch : symResolvGetSectionhdrByName m (some (sectionsDesc m mem len)) secname =
      (scanRecords (isNamed m mem secname) sizeofShdr (eShnum m mem) (mem + eShoff m mem)).1 := rfl
  rw [hsearch, scanRecords_eq_some]
  simp only [IsFirst, NoneNamed, sectionHdr, and_assoc]

theorem inside_symResolvOpenTabsReads (hlen : 52 ≤ len) :
    (symResolvOpenTabsReads m (sectionsDesc m mem len) mem).Inside mem (mem + len) ↔
      SearchFits m mem len symtabName ∧
        ∀ i < eShnum m mem, IsFirst m mem symtabName i → SearchFits m mem len strtabName := by
  rw [symResolvOpenTabsReads, Reading.inside_bind, inside_symResolvGetSectionhdrByNameReads hlen,
    value_symResolvGetSectionhdrByNameReads rfl]
  apply and_congr_right
  intro _
  cases hsym : symResolvGetSectionhdrByName m (some (sectionsDesc m mem len)) symtabName with
  | none =>
      refine iff_of_true (Reading.inside_pure _) fun i hi hfirst ↦ ?_
      rw [symResolvGetSectionhdrByName_eq_some.mpr ⟨i, hi, hfirst, rfl⟩] at hsym
      cases hsym
  | some symtab =>
      -- the second search does not depend on which section the first gave
      obtain ⟨i, hi, hfirst, -⟩ := symResolvGetSectionhdrByName_eq_some.mp hsym
      dsimp only
      rw [Reading.inside_bind, inside_symResolvGetSectionhdrByNameReads hlen, and_iff_left]
      · exact ⟨fun h _ _ _ ↦ h, fun h ↦ h i hi hfirst⟩
      · cases Reading.value (symResolvGetSectionhdrByNameReads m _ mem strtabName) with
        | none => exact Reading.inside_pure _
        | some strtab => exact Reading.inside_pure _

theorem inside_symResolvOpenReads (hfd : 0 < fd) (hlen : 52 ≤ len) :
    (symResolvOpenReads m ⟨fd, some len, some mem⟩).Inside mem (mem + len) ↔
      eShstrndx m mem = 0 ∨ sectionHdr m mem (eShstrndx m mem) + 20 ≤ mem + len ∧
        SearchFits m mem len symtabName ∧
        ∀ i < eShnum m mem, IsFirst m mem symtabName i → SearchFits m mem len strtabName := by
  unfold symResolvOpenReads
  rw [if_neg (by simpa using hfd)]
  dsimp only
  rw [Reading.inside_bind, Reading.inside_bind, Reading.inside_load (by omega) (by omega),
    Reading.inside_load (by omega) (by omega), and_iff_right (by omega), and_iff_right (by omega)]
  show Reading.Inside (if eShstrndx m mem = 0 then _ else _) _ _ ↔ _
  split
  next h => exact iff_of_true (Reading.inside_pure _) (.inl h)
  next h =>
    rw [or_iff_right h, Reading.inside_bind, ← inside_symResolvOpenTabsReads hlen,
      ← inside_symResolvSectionhdrToSectionReads]
    exact Iff.rfl

theorem symResolvOpen_eq_some (hfd : 0 < fd) :
    symResolvOpen m ⟨fd, some len, some mem⟩ = some desc ↔
      eShstrndx m mem ≠ 0 ∧ ∃ i < eShnum m mem, ∃ j < eShnum m mem,
        IsFirst m mem symtabName i ∧ IsFirst m mem strtabName j ∧
          desc = openedDesc m mem len i j := by
  have heq : symResolvOpen m ⟨fd, some len, some mem⟩ =
      if eShstrndx m mem = 0 then none
      else
        (symResolvGetSectionhdrByName m (some (sectionsDesc m mem len)) symtabName).bind
          fun symtab ↦ (symResolvGetSectionhdrByName m (some (sectionsDesc m mem len))
            strtabName).bind fun strtab ↦ some { sectionsDesc m mem len with
              srShdrsymtab := some symtab
              srShdrstrsymtab := some strtab } := by
    -- `open`, `fstat` and `mmap` succeed
    unfold symResolvOpen
    rw [if_neg (by simpa using hfd)]
    rfl
  rw [heq]
  split
  next h => exact iff_of_false (fun h ↦ by cases h) fun hne ↦ hne.1 h
  next h =>
    rw [and_iff_right h, Option.bind_eq_some_iff]
    constructor
    · intro hopen
      obtain ⟨symtab, hsym, hopen⟩ := hopen
      obtain ⟨strtab, hstr, hopen⟩ := Option.bind_eq_some_iff.mp hopen
      obtain ⟨i, hi, hfirst, rfl⟩ := symResolvGetSectionhdrByName_eq_some.mp hsym
      obtain ⟨j, hj, hfirst', rfl⟩ := symResolvGetSectionhdrByName_eq_some.mp hstr
      cases hopen
      exact ⟨i, hi, j, hj, hfirst, hfirst', rfl⟩
    · intro hopen
      obtain ⟨i, hi, j, hj, hfirst, hfirst', rfl⟩ := hopen
      refine ⟨_, symResolvGetSectionhdrByName_eq_some.mpr ⟨i, hi, hfirst, rfl⟩, ?_⟩
      rw [symResolvGetSectionhdrByName_eq_some.mpr ⟨j, hj, hfirst', rfl⟩]
      rfl

/-! ## Lookups -/

theorem inside_holdsAddrReads {addr : UInt32} {lo hi sym : ℕ} (hlo : lo ≤ sym) :
    (holdsAddrReads m addr sym).Inside lo hi ↔ sym + 12 ≤ hi := by
  rw [holdsAddrReads, Reading.inside_bind, Reading.inside_bind, Reading.inside_load (by omega)
    (by omega), Reading.inside_load (by omega) (by omega), and_iff_left (Reading.inside_pure _)]
  omega

/-- The last address is in no range: the loop goes through all symbols for it. -/
theorem holdsAddr_last (m : Bytes) (sym : ℕ) : holdsAddr m 0xFFFFFFFF sym = false := by
  unfold holdsAddr
  rw [Bool.and_eq_false_iff, decide_eq_false_iff_not, decide_eq_false_iff_not, gt_iff_lt,
    UInt32.lt_iff_toNat_lt]
  have hstop := (UInt32.ofNat (stValue m sym) + UInt32.ofNat (stSize m sym)).toNat_lt
  right
  show ¬ 4294967295 < _
  omega

theorem inside_symResolvFillReads {symnamelist lo hi sym : ℕ} {res : SymResolv} (hlo : lo ≤ sym)
    (hnames : lo ≤ symnamelist) (hsym : sym + 12 ≤ hi)
    (hname : 0 ∈ Reading.bytesUpTo m (symnamelist + stName m sym) hi) :
    (symResolvFillReads m symnamelist res (some sym)).Inside lo hi := by
  have hstring : (Reading.strncpy m sizeofSymname (symnamelist + stName m sym)).Inside lo hi :=
    (Reading.inside_strncpy (by omega)).mpr (.inr hname)
  rw [symResolvFillReads, Reading.inside_bind, Reading.inside_bind, Reading.inside_bind,
    Reading.inside_load hlo (by omega), Reading.inside_load (by omega) (by omega)]
  exact ⟨by omega, hstring, by omega, Reading.inside_pure _⟩

/-- Both lookups read the headers of the two sections first. -/
theorem inside_headers {α : Type} {f : ℕ → ℕ → ℕ → Reading α} {hi : ℕ} {P : Prop}
    (hf : (f (mem + shOffset m (sectionHdr m mem i)) (mem + shOffset m (sectionHdr m mem j))
      (shSize m (sectionHdr m mem i) / sizeofSym)).Inside mem hi ↔ P) :
    Reading.Inside (do
      let walker ← symResolvSectionhdrToSectionReads m mem (sectionHdr m mem i)
      let symnamelist ← symResolvSectionhdrToSectionReads m mem (sectionHdr m mem j)
      let size ← .load m (sectionHdr m mem i + 20) 4
      f walker symnamelist (size / sizeofSym)) mem hi ↔
      sectionHdr m mem i + 24 ≤ hi ∧ sectionHdr m mem j + 20 ≤ hi ∧ P := by
  have hlo := le_sectionHdr m mem i
  rw [Reading.inside_bind, Reading.inside_bind, Reading.inside_bind,
    inside_symResolvSectionhdrToSectionReads, inside_symResolvSectionhdrToSectionReads,
    Reading.inside_load (by omega) (by omega), ← hf]
  constructor
  · intro h
    exact ⟨h.2.2.1, h.2.1, h.2.2.2⟩
  · intro h
    exact ⟨by omega, h.2.1, h.1, h.2.2⟩

theorem le_symbol (m : Bytes) (mem i k : ℕ) : mem ≤ symbol m mem i k := by
  unfold symbol
  omega

theorem inside_symResolvGetFuncnameByAddrReads {addr : UInt32} {res : SymResolv} {hi : ℕ} :
    (symResolvGetFuncnameByAddrReads m (openedDesc m mem len i j) addr res).Inside mem hi ↔
      sectionHdr m mem i + 24 ≤ hi ∧ sectionHdr m mem j + 20 ≤ hi ∧
        (∀ k < shSize m (sectionHdr m mem i) / sizeofSym,
          NoneBefore (holdsAddr m addr) sizeofSym (symbol m mem i 0) k →
            symbol m mem i k + 12 ≤ hi) ∧
        (symResolvFillReads m (mem + shOffset m (sectionHdr m mem j)) res
          (scanRecords (holdsAddr m addr) sizeofSym (shSize m (sectionHdr m mem i) / sizeofSym)
            (symbol m mem i 0)).1).Inside mem hi := by
  apply inside_headers (f := fun walker symnamelist nbSym ↦ do
    symResolvFillReads m symnamelist res
      (← .scanRecords (holdsAddrReads m addr) sizeofSym nbSym walker))
  rw [Reading.inside_bind, Reading.inside_scanRecords, Reading.value_scanRecords]
  apply and_congr
  · apply forall₂_congr
    intro k _
    apply imp_congr_right
    intro _
    exact inside_holdsAddrReads (le_symbol m mem i k)
  · exact Iff.rfl

theorem inside_symResolvSymbolReads {name : List UInt8} {hi : ℕ} :
    (symResolvSymbolReads m (openedDesc m mem len i j) name).Inside mem hi ↔
      sectionHdr m mem i + 24 ≤ hi ∧ sectionHdr m mem j + 20 ≤ hi ∧
        ∀ k < shSize m (sectionHdr m mem i) / sizeofSym,
          NoneBefore (fun sym ↦ holdsString m (symName m mem j sym) name) sizeofSym
              (symbol m mem i 0) k →
            symbol m mem i k + 4 ≤ hi ∧
              ¬ Reading.bytesUpTo m (symName m mem j (symbol m mem i k)) hi <+: name := by
  apply inside_headers (f := fun walker symnamelist nbSym ↦
    .scanRecords (fun sym ↦ do
        .holdsString m (symnamelist + (← .load m sym 4)) name)
      sizeofSym nbSym walker)
  rw [Reading.inside_scanRecords]
  simp only [Reading.value_bind, Reading.value_load, Reading.value_holdsString]
  apply forall₂_congr
  intro k _
  apply imp_congr_right
  intro _
  have hlo := le_symbol m mem i k
  have hname : mem ≤ symName m mem j (symbol m mem i k) :=
    Nat.le_trans (Nat.le_add_right _ _) (Nat.le_add_right _ _)
  rw [Reading.inside_bind]
  exact and_congr (Reading.inside_load hlo (by omega)) (Reading.inside_holdsString hname)

/-- The names of the symbols before the first without an end are all passed by for a name that is
longer than the file. -/
theorem symName_ends
    (h : ∀ name, 0 ∉ name →
      (symResolvSymbolReads m (openedDesc m mem len i j) name).Inside mem (mem + len)) :
    ∀ k < shSize m (sectionHdr m mem i) / sizeofSym,
      0 ∈ Reading.bytesUpTo m (symName m mem j (symbol m mem i k)) (mem + len) := by
  intro k
  induction k using Nat.strong_induction_on with
  | h k ih =>
      intro hk
      by_contra hend
      -- all that is left of the file from the name on, and more bytes than any name in it has
      let name := Reading.bytesUpTo m (symName m mem j (symbol m mem i k)) (mem + len) ++
        List.replicate (mem + len) 1
      have hname : 0 ∉ name := by
        intro hmem
        obtain hmem | hmem := List.mem_append.mp hmem
        · exact hend hmem
        · exact absurd (List.eq_of_mem_replicate hmem) (by decide)
      have hpassed : NoneBefore (fun sym ↦ holdsString m (symName m mem j sym) name) sizeofSym
          (symbol m mem i 0) k := by
        -- the names before it end in the file, so they are shorter
        intro l hl
        apply Reading.holdsString_eq_false hname (ih l hl (by omega))
        rw [List.length_append, List.length_replicate]
        omega
      exact ((inside_symResolvSymbolReads.mp (h name hname)).2.2 k hk hpassed).2
        (List.prefix_append _ _)

theorem lookups_inside_iff :
    (∀ addr res, (symResolvGetFuncnameByAddrReads m (openedDesc m mem len i j) addr res).Inside mem
        (mem + len)) ∧
      (∀ name, 0 ∉ name →
        (symResolvSymbolReads m (openedDesc m mem len i j) name).Inside mem (mem + len)) ↔
      SymbolsFit m mem len i j := by
  constructor
  · -- an address in no symbol and names longer than the file lead through all symbols
    intro h
    obtain ⟨hsymtab, hstrtab, hsyms, -⟩ :=
      inside_symResolvGetFuncnameByAddrReads.mp (h.1 0xFFFFFFFF default)
    exact ⟨hsymtab, hstrtab, fun k hk ↦
      ⟨hsyms k hk fun l _ ↦ holdsAddr_last m _, symName_ends h.2 k hk⟩⟩
  · intro h
    obtain ⟨hsymtab, hstrtab, hsyms⟩ := h
    refine ⟨fun addr res ↦ ?_, fun name hname ↦ ?_⟩
    · apply inside_symResolvGetFuncnameByAddrReads.mpr
      refine ⟨hsymtab, hstrtab, fun k hk _ ↦ (hsyms k hk).1, ?_⟩
      cases hfound : (scanRecords (holdsAddr m addr) _ _ _).1 with
      | none => exact Reading.inside_pure _
      | some sym =>
          -- the copy of the name stops at its NUL
          obtain ⟨k, hk, -, -, rfl⟩ := scanRecords_eq_some.mp hfound
          exact inside_symResolvFillReads (le_symbol m mem i k) (Nat.le_add_right _ _)
            (hsyms k hk).1 (hsyms k hk).2
    · apply inside_symResolvSymbolReads.mpr
      refine ⟨hsymtab, hstrtab, fun k hk _ ↦ ⟨?_, fun hbegins ↦ hname (hbegins.subset ?_)⟩⟩
      · have hsym := (hsyms k hk).1
        omega
      · exact (hsyms k hk).2

/-! ## All reads -/

/-- Opening the file, and every later lookup, reads bytes from `lo` up to `hi` only. -/
structure ReadsInside (m : Bytes) (sys : SysOpen) (lo hi : ℕ) : Prop where
  opening : (symResolvOpenReads m sys).Inside lo hi
  byAddr : ∀ desc, symResolvOpen m sys = some desc → ∀ addr res,
    (symResolvGetFuncnameByAddrReads m desc addr res).Inside lo hi
  byName : ∀ desc, symResolvOpen m sys = some desc → ∀ name, 0 ∉ name →
    (symResolvSymbolReads m desc name).Inside lo hi

/-- The reads stay in the mapping of a file exactly if everything that the file refers to lies in
it. -/
theorem symResolv_readsInside_iff (m : Bytes) (mem len : ℕ) (fd : ℤ) (hfd : 0 < fd)
    (hlen : 52 ≤ len) :
    ReadsInside m ⟨fd, some len, some mem⟩ mem (mem + len) ↔ FileFits m mem len := by
  constructor
  · intro h
    obtain hndx | ⟨hstr, hsymtab, hstrtab⟩ := (inside_symResolvOpenReads hfd hlen).mp h.opening
    · exact .inl hndx
    · by_cases hndx : eShstrndx m mem = 0
      · exact .inl hndx
      · refine .inr ⟨hstr, hsymtab, fun i hi hfirst ↦ ⟨hstrtab i hi hfirst, fun j hj hfirst' ↦ ?_⟩⟩
        have hopen : symResolvOpen m ⟨fd, some len, some mem⟩ = some (openedDesc m mem len i j) :=
          (symResolvOpen_eq_some hfd).mpr ⟨hndx, i, hi, j, hj, hfirst, hfirst', rfl⟩
        exact lookups_inside_iff.mp ⟨h.byAddr _ hopen, h.byName _ hopen⟩
  · intro h
    -- lookups are made only where both sections were found
    have hlookups : ∀ desc, symResolvOpen m ⟨fd, some len, some mem⟩ = some desc →
        ∃ i j, desc = openedDesc m mem len i j ∧ SymbolsFit m mem len i j := by
      intro desc hopen
      obtain ⟨hndx, i, hi, j, hj, hfirst, hfirst', rfl⟩ := (symResolvOpen_eq_some hfd).mp hopen
      obtain ⟨-, -, htabs⟩ := h.resolve_left hndx
      exact ⟨i, j, rfl, (htabs i hi hfirst).2 j hj hfirst'⟩
    refine ⟨(inside_symResolvOpenReads hfd hlen).mpr ?_, fun desc hopen ↦ ?_, fun desc hopen ↦ ?_⟩
    · exact h.imp_right fun h ↦ ⟨h.1, h.2.1, fun i hi hfirst ↦ (h.2.2 i hi hfirst).1⟩
    · obtain ⟨i, j, rfl, hfits⟩ := hlookups desc hopen
      exact (lookups_inside_iff.mpr hfits).1
    · obtain ⟨i, j, rfl, hfits⟩ := hlookups desc hopen
      exact (lookups_inside_iff.mpr hfits).2

/-- The executable with `main`. -/
theorem symResolv_readsInside_iff_main :
    ReadsInside (symMemory 0x8048000 16) ⟨3, some 278, some 0x1000⟩ 0x1000 (0x1000 + 278) :=
  (symResolv_readsInside_iff _ 0x1000 278 3 (by decide) (by decide)).mpr (by decide +kernel)

/-- An ELF header whose section headers lie behind the end of the file. -/
def headerOnly : Bytes := placed 0x1000 [(32, bytesLE 4 0x10000), (50, bytesLE 2 1)]

/-- Opening a file of a header alone reads the header of the section of the names, and the search
for `main` in an executable without its last byte goes on behind it. -/
theorem symResolv_readsOutside :
    ¬ ReadsInside headerOnly ⟨3, some 52, some 0x1000⟩ 0x1000 (0x1000 + 52) ∧
      ¬ ReadsInside (symMemory 0x8048000 16) ⟨3, some 277, some 0x1000⟩ 0x1000 (0x1000 + 277) := by
  constructor
  · intro h
    have hread : 0x1000 + 0x10000 + 40 + 16 ∈
        (symResolvOpenReads headerOnly ⟨3, some 52, some 0x1000⟩).reads := by decide +kernel
    exact absurd (h.opening _ hread).2 (by decide)
  · intro h
    have hopen : symResolvOpen (symMemory 0x8048000 16) ⟨3, some 277, some 0x1000⟩ =
        some { symDesc with srMemlen := 277 } := by decide +kernel
    have hread : 0x1000 + 277 ∈ (symResolvSymbolReads (symMemory 0x8048000 16)
        { symDesc with srMemlen := 277 } (ascii ['m', 'a', 'i', 'n'])).reads := by decide +kernel
    exact absurd (h.byName _ hopen _ (by decide +kernel) _ hread).2 (by decide)

end Divers.SymResolver
