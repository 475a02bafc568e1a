import Divers.SymResolver.Model

/-! Resolving an address: the symbols whose range holds it, and those that the loop sees.  A symbol
whose range ends at 2^32 or above has a small end in a word, and is passed by. -/

open Divers.Library Divers.Library.Elf32

namespace Divers.SymResolver

variable {m : Bytes} {desc : SymResolvDesc} {addr : UInt32} {res : SymResolv} {sym : ℕ}
  {name : List UInt8}

/-! ## The symbol table -/

/-- The symbols in their order, and where their names lie. -/
structure SymTable where
  symbols : List ℕ
  names : ℕ

/-- The symbol table of a descriptor: empty where the one or the other section is missing. -/
def symTable (m : Bytes) (desc : SymResolvDesc) : SymTable :=
  match desc.srShdrsymtab, desc.srShdrstrsymtab with
  | some symtab, some strtab =>
      { symbols := records sizeofSym (shSize m symtab / sizeofSym) (desc.srMem + shOffset m symtab)
        names := desc.srMem + shOffset m strtab }
  | _, _ => ⟨[], 0⟩

def nameOf (m : Bytes) (desc : SymResolvDesc) (sym : ℕ) : ℕ :=
  (symTable m desc).names + stName m sym

/-- The table of an opened executable is that of its sections `.symtab` and `.strtab`. -/
theorem symTable_open {sys : SysOpen} (h : symResolvOpen m sys = some desc) :
    ∃ symtab strtab, symResolvGetSectionhdrByName m (some desc) symtabName = some symtab ∧
      symResolvGetSectionhdrByName m (some desc) strtabName = some strtab ∧
      symTable m desc =
        { symbols := records sizeofSym (shSize m symtab / sizeofSym)
            (desc.srMem + shOffset m symtab)
          names := desc.srMem + shOffset m strtab } := by
  unfold symResolvOpen at h
  split at h
  next => cases h
  next =>
    obtain ⟨len, -, h⟩ := Option.bind_eq_some_iff.mp h
    obtain ⟨mem, -, h⟩ := Option.bind_eq_some_iff.mp h
    dsimp only at h
    split at h
    next => cases h
    next =>
      obtain ⟨symtab, hsym, h⟩ := Option.bind_eq_some_iff.mp h
      obtain ⟨strtab, hstr, h⟩ := Option.bind_eq_some_iff.mp h
      cases h
      exact ⟨symtab, strtab, hsym, hstr, rfl⟩

/-- `st_value <= a < st_value + st_size` in exact integers. -/
def InRange (m : Bytes) (sym a : ℕ) : Prop :=
  stValue m sym ≤ a ∧ a < stValue m sym + stSize m sym

instance {a : ℕ} : Decidable (InRange m sym a) := inferInstanceAs (Decidable (_ ∧ _))

def EndsInWord (m : Bytes) (sym : ℕ) : Prop := stValue m sym + stSize m sym < 2 ^ 32

instance : Decidable (EndsInWord m sym) := inferInstanceAs (Decidable (_ < _))

theorem stValue_lt (m : Bytes) (sym : ℕ) : stValue m sym < 2 ^ 32 := loadLE_lt m (sym + 4) 4

theorem stSize_lt (m : Bytes) (sym : ℕ) : stSize m sym < 2 ^ 32 := loadLE_lt m (sym + 8) 4

/-- An end that does not fit a word comes out below the start. -/
theorem holdsAddr_iff :
    holdsAddr m addr sym = true ↔ InRange m sym addr.toNat ∧ EndsInWord m sym := by
  have hvalue := stValue_lt m sym
  have hsize := stSize_lt m sym
  have haddr := addr.toNat_lt
  unfold holdsAddr InRange EndsInWord
  rw [Bool.and_eq_true, decide_eq_true_eq, decide_eq_true_eq, gt_iff_lt, UInt32.le_iff_toNat_le,
    UInt32.lt_iff_toNat_lt, UInt32.toNat_add, UInt32.toNat_ofNat_of_lt' hvalue,
    UInt32.toNat_ofNat_of_lt' hsize]
  omega

/-! ## The lookups -/

/-- The first symbol whose range holds the address. -/
def firstSymbol (m : Bytes) (desc : SymResolvDesc) (addr : UInt32) : Option ℕ :=
  (symTable m desc).symbols.find? fun sym ↦ InRange m sym addr.toNat

/-- The first symbol whose range holds the address and ends in a word. -/
def firstInWord (m : Bytes) (desc : SymResolvDesc) (addr : UInt32) : Option ℕ :=
  (symTable m desc).symbols.find? fun sym ↦ InRange m sym addr.toNat ∧ EndsInWord m sym

theorem find?_holdsAddr (m : Bytes) (desc : SymResolvDesc) (addr : UInt32) :
    (symTable m desc).symbols.find? (holdsAddr m addr) = firstInWord m desc addr := by
  unfold firstInWord
  congr 1
  funext sym
  rw [Bool.eq_iff_iff, holdsAddr_iff, decide_eq_true_eq]

/-- What `*res` gets from a symbol. -/
def symResolvOf (m : Bytes) (desc : SymResolvDesc) (sym : ℕ) : SymResolv where
  srSymaddr := UInt32.ofNat (stValue m sym)
  srSymname := strncpy m sizeofSymname (nameOf m desc sym)
  size := strncpy_length m _ _

theorem symResolvGetFuncnameByAddr_eq (m : Bytes) (desc : SymResolvDesc) (addr : UInt32)
    (res : SymResolv) :
    symResolvGetFuncnameByAddr m (some desc) addr res =
      match firstInWord m desc addr with
      | some sym => (true, symResolvOf m desc sym)
      | none => (false, res) := by
  rw [← find?_holdsAddr]
  obtain ⟨mem, memlen, ehdr, shdr, strsectab, symtab, strtab, sectionstr⟩ := desc
  cases symtab with
  | none => rfl
  | some symtab =>
      cases strtab with
      | none => rfl
      | some strtab =>
          have hfound := scanRecords_found (holdsAddr m addr) sizeofSym
            (shSize m symtab / sizeofSym) (mem + shOffset m symtab)
          unfold symTable symResolvGetFuncnameByAddr
          simp only [symResolvSectionhdrToSection, Option.pure_def, Option.bind_eq_bind,
            Option.bind_some, hfound]
          cases (records _ _ _).find? (holdsAddr m addr) with
          | none => rfl
          | some sym => rfl

theorem symResolvSymbol_eq (m : Bytes) (desc : SymResolvDesc) (name : List UInt8) :
    symResolvSymbol m desc name =
      (symTable m desc).symbols.find? fun sym ↦ holdsString m (nameOf m desc sym) name := by
  obtain ⟨mem, memlen, ehdr, shdr, strsectab, symtab, strtab, sectionstr⟩ := desc
  cases symtab with
  | none => rfl
  | some symtab =>
      cases strtab with
      | none => rfl
      | some strtab => exact scanRecords_found _ _ _ _

/-! ## Resolving an address -/

/-- The result has the address of the symbol, and its name with its end. -/
structure HoldsSymbol (m : Bytes) (res : SymResolv) (sym : ℕ) (name : List UInt8) : Prop where
  symaddr : res.srSymaddr.toNat = stValue m sym
  symname : name ++ [0] <+: res.srSymname

theorem holdsSymbol_symResolvOf {sym' : ℕ} (hname : 0 ∉ name) :
    HoldsSymbol m (symResolvOf m desc sym') sym name ↔
      stValue m sym' = stValue m sym ∧ holdsString m (nameOf m desc sym') name = true ∧
        name.length < sizeofSymname := by
  have hvalue : (UInt32.ofNat (stValue m sym')).toNat = stValue m sym' :=
    UInt32.toNat_ofNat_of_lt' (stValue_lt m sym')
  constructor
  · intro h
    exact ⟨hvalue.symm.trans h.symaddr, (prefix_strncpy hname).mp h.symname⟩
  · intro h
    exact ⟨hvalue.trans h.1, (prefix_strncpy hname).mpr h.2⟩

/-- The answer for an address is the one that the table gives in exact integers. -/
structure ResolvesExactly (m : Bytes) (desc : SymResolvDesc) (addr : UInt32) (res : SymResolv) :
    Prop where
  found : (symResolvGetFuncnameByAddr m (some desc) addr res).1 = true ↔
    ∃ sym ∈ (symTable m desc).symbols, InRange m sym addr.toNat
  first : ∀ sym, firstSymbol m desc addr = some sym →
    ∃ name, IsString m (nameOf m desc sym) name ∧
      HoldsSymbol m (symResolvGetFuncnameByAddr m (some desc) addr res).2 sym name

/-- The first symbol whose range holds the address ends in a word, or has the start and the name of
the first that does, and the name fits. -/
def FirstSeen (m : Bytes) (desc : SymResolvDesc) (addr : UInt32) : Prop :=
  ∀ sym, firstSymbol m desc addr = some sym →
    ∃ sym', firstInWord m desc addr = some sym' ∧ stValue m sym' = stValue m sym ∧
      ∃ name, IsString m (nameOf m desc sym) name ∧ IsString m (nameOf m desc sym') name ∧
        name.length < sizeofSymname

theorem firstSymbol_isSome :
    (firstSymbol m desc addr).isSome = true ↔
      ∃ sym ∈ (symTable m desc).symbols, InRange m sym addr.toNat := by
  unfold firstSymbol
  simp

theorem firstSymbol_of_firstInWord (h : firstInWord m desc addr = some sym) :
    ∃ sym ∈ (symTable m desc).symbols, InRange m sym addr.toNat := by
  have hrange := List.find?_some h
  rw [decide_eq_true_eq] at hrange
  exact ⟨sym, List.mem_of_find?_eq_some h, hrange.1⟩

theorem resolvesExactly_iff (m : Bytes) (desc : SymResolvDesc) (addr : UInt32) (res : SymResolv) :
    ResolvesExactly m desc addr res ↔ FirstSeen m desc addr := by
  have heq := symResolvGetFuncnameByAddr_eq m desc addr res
  constructor
  · intro h sym hsym
    have hfound := h.found.mpr (firstSymbol_isSome.mp (by rw [hsym]; rfl))
    obtain ⟨name, hname, hholds⟩ := h.first sym hsym
    cases hword : firstInWord m desc addr with
    | none =>
        rw [heq, hword] at hfound
        cases hfound
    | some sym' =>
        rw [heq, hword] at hholds
        obtain ⟨hvalue, hstring, hlen⟩ := (holdsSymbol_symResolvOf hname.1).mp hholds
        exact ⟨sym', rfl, hvalue, name, hname, ⟨hname.1, hstring⟩, hlen⟩
  · intro h
    refine ⟨?_, fun sym hsym ↦ ?_⟩
    · rw [← firstSymbol_isSome]
      cases hword : firstInWord m desc addr with
      | none =>
          rw [heq, hword]
          refine iff_of_false Bool.false_ne_true fun hsome ↦ ?_
          obtain ⟨sym, hsym⟩ := Option.isSome_iff_exists.mp hsome
          obtain ⟨sym', hword', -⟩ := h sym hsym
          rw [hword] at hword'
          cases hword'
      | some sym' =>
          rw [heq, hword]
          exact iff_of_true rfl (firstSymbol_isSome.mpr (firstSymbol_of_firstInWord hword))
    · obtain ⟨sym', hword, hvalue, name, hname, hname', hlen⟩ := h sym hsym
      rw [heq, hword]
      exact ⟨name, hname, (holdsSymbol_symResolvOf hname.1).mpr ⟨hvalue, hname'.2, hlen⟩⟩

/-! ## Resolving an address of a symbol that was found by its name -/

/-- `sym_resolv_symbol` gives the symbol for its name, and its range meets no other one. -/
structure FoundAlone (m : Bytes) (desc : SymResolvDesc) (name : List UInt8) (sym : ℕ) : Prop where
  found : symResolvSymbol m desc name = some sym
  named : 0 ∉ name
  nonempty : 0 < stSize m sym
  alone : ∀ other ∈ (symTable m desc).symbols, other ≠ sym →
    ∀ a, ¬ (InRange m other a ∧ InRange m sym a)

theorem FoundAlone.mem (h : FoundAlone m desc name sym) : sym ∈ (symTable m desc).symbols := by
  have hfound := h.found
  rw [symResolvSymbol_eq] at hfound
  exact List.mem_of_find?_eq_some hfound

theorem FoundAlone.isString (h : FoundAlone m desc name sym) :
    IsString m (nameOf m desc sym) name := by
  have hfound := h.found
  rw [symResolvSymbol_eq] at hfound
  have hstring := List.find?_some hfound
  exact ⟨h.named, hstring⟩

/-- Empty ranges meet nothing. -/
theorem FoundAlone.of_empty (hfound : symResolvSymbol m desc name = some sym) (hnamed : 0 ∉ name)
    (hsize : 0 < stSize m sym)
    (hempty : ∀ other ∈ (symTable m desc).symbols, other ≠ sym → stSize m other = 0) :
    FoundAlone m desc name sym where
  found := hfound
  named := hnamed
  nonempty := hsize
  alone other hother hne a hboth := by
    have hnone := hempty other hother hne
    have hrange := hboth.1
    unfold InRange at hrange
    omega

theorem FoundAlone.firstInWord_eq (h : FoundAlone m desc name sym)
    (haddr : InRange m sym addr.toNat) :
    firstInWord m desc addr = if EndsInWord m sym then some sym else none := by
  cases hword : firstInWord m desc addr with
  | none =>
      have hnone := List.find?_eq_none.mp hword sym h.mem
      rw [decide_eq_true_eq] at hnone
      rw [if_neg fun hends ↦ hnone ⟨haddr, hends⟩]
  | some sym' =>
      have hrange := List.find?_some hword
      rw [decide_eq_true_eq] at hrange
      have hsame : sym' = sym := by
        by_contra hne
        exact h.alone sym' (List.mem_of_find?_eq_some hword) hne _ ⟨hrange.1, haddr⟩
      subst hsame
      rw [if_pos hrange.2]

/-- The symbol is what the address gives. -/
def Yields (m : Bytes) (desc : SymResolvDesc) (addr : UInt32) (res : SymResolv) (sym : ℕ)
    (name : List UInt8) : Prop :=
  (symResolvGetFuncnameByAddr m (some desc) addr res).1 = true ∧
    HoldsSymbol m (symResolvGetFuncnameByAddr m (some desc) addr res).2 sym name

theorem FoundAlone.yields_iff (h : FoundAlone m desc name sym)
    (haddr : InRange m sym addr.toNat) :
    Yields m desc addr res sym name ↔ EndsInWord m sym ∧ name.length < sizeofSymname := by
  unfold Yields
  rw [symResolvGetFuncnameByAddr_eq, h.firstInWord_eq haddr]
  by_cases hends : EndsInWord m sym
  · rw [if_pos hends]
    show true = true ∧ HoldsSymbol m (symResolvOf m desc sym) sym name ↔ _
    rw [holdsSymbol_symResolvOf h.named]
    exact ⟨fun hy ↦ ⟨hends, hy.2.2.2⟩, fun hc ↦ ⟨rfl, rfl, h.isString.2, hc.2⟩⟩
  · rw [if_neg hends]
    exact iff_of_false (fun hy ↦ Bool.false_ne_true hy.1) fun hc ↦ hends hc.1

/-- Every address resolves as in exact integers exactly if the first symbol that holds it is seen,
and every address of a symbol found by its name gives that symbol exactly if the symbol ends in a
word and its name fits. -/
theorem symResolvGetFuncnameByAddr_exact_iff (m : Bytes) (desc : SymResolvDesc)
    (res : SymResolv) :
    (∀ addr, ResolvesExactly m desc addr res ↔ FirstSeen m desc addr) ∧
      ∀ name sym, FoundAlone m desc name sym →
        ((∀ addr : UInt32, InRange m sym addr.toNat → Yields m desc addr res sym name) ↔
          EndsInWord m sym ∧ name.length < sizeofSymname) := by
  refine ⟨fun addr ↦ resolvesExactly_iff m desc addr res, fun name sym h ↦ ⟨fun hall ↦ ?_, ?_⟩⟩
  · -- the start of the range is a word in any case
    have hstart : (UInt32.ofNat (stValue m sym)).toNat = stValue m sym :=
      UInt32.toNat_ofNat_of_lt' (stValue_lt m sym)
    have hin : InRange m sym (UInt32.ofNat (stValue m sym)).toNat := by
      have hsize := h.nonempty
      unfold InRange
      omega
    exact (h.yields_iff hin).mp (hall _ hin)
  · intro hcond addr haddr
    exact (h.yields_iff haddr).mpr hcond

/-- An executable with one symbol, `main`. -/
def symImage (value size : ℕ) : List (ℕ × List UInt8) :=
  [(32, bytesLE 4 52), (48, bytesLE 2 4), (50, bytesLE 2 1),
    -- `.shstrtab`, `.symtab` and `.strtab`
    (92, bytesLE 4 17), (108, bytesLE 4 212), (112, bytesLE 4 27),
    (132, bytesLE 4 1), (148, bytesLE 4 240), (152, bytesLE 4 32),
    (172, bytesLE 4 9), (188, bytesLE 4 272), (192, bytesLE 4 6),
    (213, symtabName), (221, strtabName),
    (229, ascii ['.', 's', 'h', 's', 't', 'r', 't', 'a', 'b']),
    (256, bytesLE 4 1), (260, bytesLE 4 value), (264, bytesLE 4 size),
    (273, ascii ['m', 'a', 'i', 'n'])]

def symMemory (value size : ℕ) : Bytes := placed 0x1000 (symImage value size)

def symDesc : SymResolvDesc :=
  { srMem := 0x1000
    srMemlen := 278
    srEhdr := some 0x1000
    srShdr := 0x1000 + 52
    srShdrstrsectab := some (0x1000 + 92)
    srShdrsymtab := some (0x1000 + 132)
    srShdrstrsymtab := some (0x1000 + 172)
    srSectionstr := 0x1000 + 212 }

theorem symResolvGetFuncnameByAddr_exact_iff_main :
    symResolvOpen (symMemory 0x8048000 16) ⟨3, some 278, some 0x1000⟩ = some symDesc ∧
      ∀ addr : UInt32, InRange (symMemory 0x8048000 16) (0x1000 + 256) addr.toNat →
        Yields (symMemory 0x8048000 16) symDesc addr default (0x1000 + 256)
          (ascii ['m', 'a', 'i', 'n']) := by
  refine ⟨by decide +kernel, ?_⟩
  have halone : FoundAlone (symMemory 0x8048000 16) symDesc (ascii ['m', 'a', 'i', 'n'])
      (0x1000 + 256) :=
    .of_empty (by decide +kernel) (by decide +kernel) (by decide +kernel) (by decide +kernel)
  exact ((symResolvGetFuncnameByAddr_exact_iff _ symDesc default).2 _ _ halone).mpr
    (by decide +kernel)

/-- `main` is at the top of the address space: it is found by its name and by no address. -/
theorem symResolvGetFuncnameByAddr_misses :
    symResolvOpen (symMemory 0xFFFFFFF0 16) ⟨3, some 278, some 0x1000⟩ = some symDesc ∧
      ¬ ResolvesExactly (symMemory 0xFFFFFFF0 16) symDesc 0xFFFFFFF8 default ∧
      FoundAlone (symMemory 0xFFFFFFF0 16) symDesc (ascii ['m', 'a', 'i', 'n']) (0x1000 + 256) ∧
      InRange (symMemory 0xFFFFFFF0 16) (0x1000 + 256) 0xFFFFFFF8 ∧
      ¬ Yields (symMemory 0xFFFFFFF0 16) symDesc 0xFFFFFFF8 default (0x1000 + 256)
        (ascii ['m', 'a', 'i', 'n']) := by
  have hmissed : (symResolvGetFuncnameByAddr (symMemory 0xFFFFFFF0 16) (some symDesc) 0xFFFFFFF8
      default).1 = false := by decide +kernel
  refine ⟨by decide +kernel, fun h ↦ ?_, ?_, by decide +kernel, fun h ↦ ?_⟩
  · have hfound := h.found.mpr ⟨0x1000 + 256, by decide +kernel, by decide +kernel⟩
    rw [hmissed] at hfound
    cases hfound
  · exact .of_empty (by decide +kernel) (by decide +kernel) (by decide +kernel) (by decide +kernel)
  · have hfound := h.1
    rw [hmissed] at hfound
    cases hfound

end Divers.SymResolver
