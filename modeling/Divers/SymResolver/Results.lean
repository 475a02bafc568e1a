import Divers.Library.TextInput
import Divers.SymResolver.Lookup

/-! What a caller reads from the array that `sym_resolv_addr` fills: an entry for which there is no
name keeps the address that it had before, and a long name has no end. -/

open Divers.Library Divers.Library.Elf32

namespace Divers.SymResolver

variable {m : Bytes} {desc : Option SymResolvDesc} {dladdr : UInt32 → Option DlInfo}
  {addr : UInt32} {addrs : List UInt32}

/-! ## Where an entry comes from -/

/-- The name and the address that the symbol table has for an address. -/
def tableSource (m : Bytes) (desc : Option SymResolvDesc) (addr : UInt32) :
    Option (ℕ × UInt32) := do
  let desc ← desc
  let sym ← firstInWord m desc addr
  return (nameOf m desc sym, UInt32.ofNat (stValue m sym))

def dladdrSource (dladdr : UInt32 → Option DlInfo) (addr : UInt32) : Option (ℕ × UInt32) := do
  let info ← dladdr addr
  let sname ← info.dliSname
  return (sname, info.dliSaddr)

/-- `dladdr` is asked where the table has nothing. -/
def source (m : Bytes) (desc : Option SymResolvDesc) (dladdr : UInt32 → Option DlInfo)
    (addr : UInt32) : Option (ℕ × UInt32) :=
  (tableSource m desc addr).or (dladdrSource dladdr addr)

/-- The address has a name, which ends in the bytes that are copied. -/
def HasShortName (m : Bytes) (desc : Option SymResolvDesc) (dladdr : UInt32 → Option DlInfo)
    (addr : UInt32) : Prop :=
  ∃ found, source m desc dladdr addr = some found ∧ ∃ k < sizeofSymname, m (found.1 + k) = 0

/-- What an entry gets. -/
def filled (m : Bytes) (found : ℕ × UInt32) : SymResolv where
  srSymaddr := found.2
  srSymname := strncpy m sizeofSymname found.1
  size := strncpy_length m _ _

theorem symResolvGetFuncnameByAddr_source (m : Bytes) (desc : Option SymResolvDesc)
    (addr : UInt32) (res : SymResolv) :
    symResolvGetFuncnameByAddr m desc addr res =
      match tableSource m desc addr with
      | some found => (true, filled m found)
      | none => (false, res) := by
  cases desc with
  | none => rfl
  | some desc =>
      rw [symResolvGetFuncnameByAddr_eq, tableSource, Option.bind_eq_bind, Option.bind_some]
      cases firstInWord m desc addr with
      | none => rfl
      | some sym => rfl

theorem symResolvAddrPass_eq (m : Bytes) (desc : Option SymResolvDesc)
    (dladdr : UInt32 → Option DlInfo) (addr : UInt32) (res : SymResolv) :
    symResolvAddrPass m desc dladdr addr res =
      match source m desc dladdr addr with
      | some found => filled m found
      | none =>
          { res with
            srSymname := res.srSymname.set 0 0
            size := List.length_set.trans res.size } := by
  unfold symResolvAddrPass source dladdrSource
  rw [symResolvGetFuncnameByAddr_source]
  cases tableSource m desc addr with
  | some found => rfl
  | none =>
      cases dladdr addr with
      | none => rfl
      | some info =>
          obtain ⟨sname, saddr⟩ := info
          cases sname with
          | none => rfl
          | some sname => rfl

/-! ## The array -/

theorem symResolvAddr_eq {res : List SymResolv} (h : addrs.length = res.length) :
    symResolvAddr m desc dladdr addrs res =
      List.zipWith (symResolvAddrPass m desc dladdr) addrs res := by
  induction addrs generalizing res with
  | nil =>
      cases res with
      | nil => rfl
      | cons old res => cases h
  | cons addr addrs ih =>
      cases res with
      | nil => cases h
      | cons old res => rw [symResolvAddr, List.zipWith_cons_cons, ih (Nat.succ.inj h)]

theorem getElem?_symResolvAddr {res : List SymResolv} (h : addrs.length = res.length) {i : ℕ}
    {r : SymResolv} :
    (symResolvAddr m desc dladdr addrs res)[i]? = some r ↔
      ∃ addr old, addrs[i]? = some addr ∧ res[i]? = some old ∧
        symResolvAddrPass m desc dladdr addr old = r := by
  rw [symResolvAddr_eq h, List.getElem?_zipWith_eq_some]

/-- The address, and the string that the name is read as. -/
def SameResult (r r' : SymResolv) : Prop :=
  r.srSymaddr = r'.srSymaddr ∧ cString r.srSymname = cString r'.srSymname

/-- An entry depends on its address only, whatever the arrays held and whatever other addresses they
are for, and its name has an end. -/
structure ExposesNothing (m : Bytes) (desc : Option SymResolvDesc)
    (dladdr : UInt32 → Option DlInfo) (addrs : List UInt32) : Prop where
  determined : ∀ (addrs' : List UInt32) (res res' : List SymResolv),
    addrs.length = res.length → addrs'.length = res'.length →
    ∀ (i j : ℕ) (addr : UInt32) (r r' : SymResolv),
      addrs[i]? = some addr → addrs'[j]? = some addr →
      (symResolvAddr m desc dladdr addrs res)[i]? = some r →
      (symResolvAddr m desc dladdr addrs' res')[j]? = some r' → SameResult r r'
  terminated : ∀ res : List SymResolv, addrs.length = res.length →
    ∀ r ∈ symResolvAddr m desc dladdr addrs res, 0 ∈ r.srSymname

theorem HasShortName.pass (h : HasShortName m desc dladdr addr) :
    ∃ r : SymResolv, 0 ∈ r.srSymname ∧
      ∀ old, symResolvAddrPass m desc dladdr addr old = r := by
  obtain ⟨found, hfound, hend⟩ := h
  refine ⟨filled m found, zero_mem_strncpy.mpr hend, fun old ↦ ?_⟩
  rw [symResolvAddrPass_eq, hfound]

/-- Nothing old and no name without its end is exposed exactly if each of the addresses has a name
of at most 511 bytes. -/
theorem symResolvAddr_exposesNothing_iff (m : Bytes) (desc : Option SymResolvDesc)
    (dladdr : UInt32 → Option DlInfo) (addrs : List UInt32) :
    ExposesNothing m desc dladdr addrs ↔ ∀ addr ∈ addrs, HasShortName m desc dladdr addr := by
  constructor
  · intro h addr haddr
    obtain ⟨i, hi⟩ := List.mem_iff_getElem?.mp haddr
    have hlt : i < addrs.length := (List.getElem?_eq_some_iff.mp hi).1
    -- two runs, over zeros and over ones
    have hrun : ∀ old : SymResolv,
        (symResolvAddr m desc dladdr addrs (List.replicate addrs.length old))[i]? =
          some (symResolvAddrPass m desc dladdr addr old) := by
      intro old
      rw [getElem?_symResolvAddr List.length_replicate.symm]
      exact ⟨addr, old, hi, List.getElem?_replicate_of_lt hlt, rfl⟩
    cases hsource : source m desc dladdr addr with
    | none =>
        -- without a name each run keeps its own address
        have hsame := (h.determined addrs (List.replicate addrs.length default)
          (List.replicate addrs.length { (default : SymResolv) with srSymaddr := 1 })
          List.length_replicate.symm List.length_replicate.symm i i addr _ _ hi hi
          (hrun _) (hrun _)).1
        rw [symResolvAddrPass_eq, symResolvAddrPass_eq, hsource] at hsame
        cases hsame
    | some found =>
        -- the copied bytes have an end only if the name has it there
        have hend := h.terminated _ List.length_replicate.symm _
          (List.mem_of_getElem? (hrun default))
        rw [symResolvAddrPass_eq, hsource] at hend
        exact ⟨found, hsource, zero_mem_strncpy.mp hend⟩
  · intro h
    refine ⟨?_, ?_⟩
    · intro addrs' res res' hres hres' i j addr r r' hi hj hr hr'
      obtain ⟨addr₁, old, hi₁, -, rfl⟩ := (getElem?_symResolvAddr hres).mp hr
      obtain ⟨addr₂, old', hj₂, -, rfl⟩ := (getElem?_symResolvAddr hres').mp hr'
      rw [hi, Option.some_inj] at hi₁
      rw [hj, Option.some_inj] at hj₂
      subst hi₁ hj₂
      obtain ⟨r, -, hpass⟩ := (h addr (List.mem_of_getElem? hi)).pass
      rw [hpass old, hpass old']
      exact ⟨rfl, rfl⟩
    · intro res hres r hr
      obtain ⟨i, hi⟩ := List.mem_iff_getElem?.mp hr
      obtain ⟨addr, old, haddr, -, rfl⟩ := (getElem?_symResolvAddr hres).mp hi
      obtain ⟨r, hend, hpass⟩ := (h addr (List.mem_of_getElem? haddr)).pass
      rw [hpass old]
      exact hend

/-- The executable with `main`, and behind it bytes without a NUL. -/
def longNameMemory : Bytes := fun a ↦ if a < 0x2000 then symMemory 0x8048000 16 a else 65

def longNameInfo (addr : UInt32) : Option DlInfo :=
  if addr = 0x9000000 then some ⟨some 0x2000, 0x9000000⟩ else none

/-- An address in no object keeps what the entry had for it, and a long name of `dladdr` is copied
without an end. -/
theorem symResolvAddr_exposes :
    symResolvOpen longNameMemory ⟨3, some 278, some 0x1000⟩ = some symDesc ∧
      ¬ ExposesNothing longNameMemory (some symDesc) longNameInfo [16] ∧
      ¬ ExposesNothing longNameMemory (some symDesc) longNameInfo [0x9000000] := by
  refine ⟨by decide +kernel, fun h ↦ ?_, fun h ↦ ?_⟩
  · have hsame := (h.determined [16] [default] [{ (default : SymResolv) with srSymaddr := 1 }]
      rfl rfl 0 0 16 _ _ rfl rfl rfl rfl).1
    exact absurd hsame (by decide +kernel)
  · have hend := h.terminated [default] rfl _ List.mem_cons_self
    exact absurd hend (by decide +kernel)

end Divers.SymResolver
