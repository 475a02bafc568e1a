import Divers.Library.Ownership
import Divers.Library.Transition
import Divers.SymResolver.Lookup

/-!
# sym_resolver: opening and closing

What `__sym_resolv_open` and `sym_resolv_close` open, map, unmap and close, over runs on any number
of descriptors.  An `open` that answers 0 is taken for a failure, and its descriptor is left open.
-/

open Divers.Library Divers.Library.Elf32 Divers.Library.HandleEvent

namespace Divers.SymResolver

abbrev Log := List (HandleEvent Resource)

/-- The whole of a descriptor. -/
structure SymResolvFile extends SymResolvDesc where
  srFd : ℤ
  srPid : ℤ
  deriving DecidableEq, Repr

/-- `MAP_FAILED`. -/
def mapFailed : ℕ := 2 ^ 32 - 1

/-- The end of `__sym_resolv_open` behind the label `sr_open_maperr`. -/
def unwindFd (desc : SymResolvFile) (log : Log) : ℤ × SymResolvFile × Log :=
  (-1, desc, .closed (.fd desc.srFd) :: log)

/-- The end behind the label `sr_no_symname`. -/
def unwindMap (desc : SymResolvFile) (log : Log) : ℤ × SymResolvFile × Log :=
  unwindFd desc (.closed (.mapping desc.srMem desc.srMemlen) :: log)

/-- The part of `__sym_resolv_open` that reads the mapped file. -/
def symResolvOpenTabs (m : Bytes) (desc : SymResolvFile) (ehdr : ℕ) (log : Log) :
    ℤ × SymResolvFile × Log :=
  if eShstrndx m ehdr = 0 then unwindMap desc log     -- `SHN_UNDEF`
  else
    let shdrstrsectab := desc.srShdr + sizeofShdr * eShstrndx m ehdr
    let desc := { desc with srShdrstrsectab := some shdrstrsectab
                            srSectionstr := desc.srMem + shOffset m shdrstrsectab }
    let desc := { desc with
      srShdrsymtab := symResolvGetSectionhdrByName m (some desc.toSymResolvDesc) symtabName }
    match desc.srShdrsymtab with
    | none => unwindMap desc log
    | some _ =>
        let desc := { desc with
          srShdrstrsymtab := symResolvGetSectionhdrByName m (some desc.toSymResolvDesc) strtabName }
        match desc.srShdrstrsymtab with
        | none => unwindMap desc log
        | some _ => (0, desc, log)

/-- `__sym_resolv_open`: what it returns, `*desc`, and the log behind it. -/
def symResolvOpenFile (m : Bytes) (sys : SysOpen) (pid : ℤ) (desc : SymResolvFile) (log : Log) :
    ℤ × SymResolvFile × Log :=
  let desc := { desc with srFd := sys.fd }
  let log := if 0 ≤ sys.fd then .opened (.fd sys.fd) :: log else log
  if desc.srFd ≤ 0 then (-1, desc, log)
  else
    match sys.stSize with
    | none => unwindFd desc log
    | some len =>
        let desc := { desc with srMem := sys.mapped.getD mapFailed }
        match sys.mapped with
        | none => unwindFd desc log
        | some mem =>
            let log := .opened (.mapping mem len) :: log
            symResolvOpenTabs m
              { desc with srMemlen := len, srPid := pid, srEhdr := some mem
                          srShdr := mem + eShoff m mem } mem log

def symResolvClose (desc : SymResolvFile) (log : Log) : Log :=
  let log := .closed (.mapping desc.srMem desc.srMemlen) :: log
  .closed (.fd desc.srFd) :: log

/-! ## The run -/

/-- The descriptors of a process, which of them the last call has left open for use, and the log. -/
structure Resolvers (ι : Type*) where
  descs : ι → SymResolvFile
  inUse : ι → Bool
  log : Log

inductive Call (ι : Type*) where
  | openFile (i : ι) (m : Bytes) (sys : SysOpen) (pid : ℤ)
  | close (i : ι)

namespace Resolvers

variable {ι : Type*} [DecidableEq ι]

def next (s : Resolvers ι) : Call ι → Resolvers ι
  | .openFile i m sys pid =>
      let (ret, desc, log) := symResolvOpenFile m sys pid (s.descs i) s.log
      { descs := Function.update s.descs i desc
        inUse := Function.update s.inUse i (ret == 0)
        log := log }
  | .close i =>
      { s with inUse := Function.update s.inUse i false
               log := symResolvClose (s.descs i) s.log }

/-- A descriptor is opened while it is not in use, by a system that hands out nothing that is open,
and closed while it is. -/
def Orderly (s : Resolvers ι) : Call ι → Prop
  | .openFile i _ sys _ => s.inUse i = false ∧ (0 ≤ sys.fd → ¬ IsOpen s.log (.fd sys.fd)) ∧
      ∀ len mem, sys.stSize = some len → sys.mapped = some mem →
        ¬ IsOpen s.log (.mapping mem len)
  | .close i => s.inUse i = true

def start (descs : ι → SymResolvFile) : Resolvers ι := ⟨descs, fun _ ↦ false, []⟩

/-- What a descriptor in use stands for. -/
def resources (s : Resolvers ι) (i : ι) : List Resource :=
  if s.inUse i then
    [.mapping (s.descs i).srMem (s.descs i).srMemlen, .fd (s.descs i).srFd]
  else []

end Resolvers

/-! ## One call -/

section Calls

variable {m : Bytes} {sys : SysOpen} {pid : ℤ} {desc : SymResolvFile} {log : Log}

/-- The search reads three fields of the descriptor, none of which its result goes to. -/
theorem symResolvGetSectionhdrByName_congr {d d' : SymResolvDesc} (hehdr : d.srEhdr = d'.srEhdr)
    (hshdr : d.srShdr = d'.srShdr) (hstr : d.srSectionstr = d'.srSectionstr)
    (secname : List UInt8) :
    symResolvGetSectionhdrByName m (some d) secname =
      symResolvGetSectionhdrByName m (some d') secname := by
  unfold symResolvGetSectionhdrByName
  simp only [Option.bind_eq_bind, Option.bind_some, hehdr, hshdr, hstr]

/-- What a failed `__sym_resolv_open` leaves of what it opened: nothing, or the descriptor 0. -/
inductive Unwound (sys : SysOpen) (log : Log) : Log → Prop
  | refused : sys.fd < 0 → Unwound sys log log
  | zero : sys.fd = 0 → Unwound sys log (.opened (.fd 0) :: log)
  | unmapped : 0 < sys.fd → Unwound sys log (.closed (.fd sys.fd) :: .opened (.fd sys.fd) :: log)
  | mapped {len mem : ℕ} : 0 < sys.fd → sys.stSize = some len → sys.mapped = some mem →
      Unwound sys log (.closed (.fd sys.fd) :: .closed (.mapping mem len) ::
        .opened (.mapping mem len) :: .opened (.fd sys.fd) :: log)

/-- A `__sym_resolv_open` that returned 0 with the descriptor `found`. -/
structure Opens (found : Option SymResolvDesc) (sys : SysOpen) (log : Log)
    (r : ℤ × SymResolvFile × Log) : Prop where
  ret : r.1 = 0
  desc : found = some r.2.1.toSymResolvDesc
  fd : r.2.1.srFd = sys.fd
  fd_pos : 0 < sys.fd
  stSize : sys.stSize = some r.2.1.srMemlen
  mapped : sys.mapped = some r.2.1.srMem
  log : r.2.2 = .opened (.mapping r.2.1.srMem r.2.1.srMemlen) :: .opened (.fd sys.fd) :: log

/-- It unwinds what it has done, or returns the descriptor of the lookups. -/
theorem symResolvOpenFile_cases (m : Bytes) (sys : SysOpen) (pid : ℤ) (desc : SymResolvFile)
    (log : Log) :
    ((symResolvOpenFile m sys pid desc log).1 = -1 ∧ symResolvOpen m sys = none ∧
        Unwound sys log (symResolvOpenFile m sys pid desc log).2.2) ∨
      Opens (symResolvOpen m sys) sys log (symResolvOpenFile m sys pid desc log) := by
  unfold symResolvOpenFile symResolvOpen
  by_cases hle : sys.fd ≤ 0
  · left
    simp only [if_pos hle, true_and]
    by_cases hzero : sys.fd = 0
    · rw [if_pos (by omega), hzero]
      exact .zero hzero
    · rw [if_neg (by omega)]
      exact .refused (by omega)
  · simp only [if_neg hle, if_pos (show 0 ≤ sys.fd by omega)]
    have hpos : 0 < sys.fd := by omega
    cases hsize : sys.stSize with
    | none => exact Or.inl ⟨rfl, rfl, .unmapped hpos⟩
    | some len =>
        cases hmap : sys.mapped with
        | none => exact Or.inl ⟨rfl, rfl, .unmapped hpos⟩
        | some mem =>
            simp only [Option.getD_some, Option.bind_eq_bind, Option.bind_some]
            unfold symResolvOpenTabs
            by_cases hundef : eShstrndx m mem = 0
            · simp only [if_pos hundef]
              exact Or.inl ⟨rfl, trivial, .mapped hpos hsize hmap⟩
            · simp only [if_neg hundef]
              set tab := mem + eShoff m mem + sizeofShdr * eShstrndx m mem
              -- the descriptor of the lookups before the searches
              set d : SymResolvDesc := ⟨mem, len, some mem, mem + eShoff m mem, some tab, none,
                none, mem + shOffset m tab⟩
              have hsearch : ∀ a b secname,
                  symResolvGetSectionhdrByName m (some ⟨mem, len, some mem, mem + eShoff m mem,
                    some tab, a, b, mem + shOffset m tab⟩) secname =
                  symResolvGetSectionhdrByName m (some d) secname :=
                fun a b ↦ symResolvGetSectionhdrByName_congr rfl rfl rfl
              simp only [hsearch]
              cases symResolvGetSectionhdrByName m (some d) symtabName with
              | none => exact Or.inl ⟨rfl, rfl, .mapped hpos hsize hmap⟩
              | some symtab =>
                  cases symResolvGetSectionhdrByName m (some d) strtabName with
                  | none => exact Or.inl ⟨rfl, rfl, .mapped hpos hsize hmap⟩
                  | some strtab => exact Or.inr ⟨rfl, rfl, rfl, hpos, hsize, hmap, rfl⟩

end Calls

/-! ## Runs -/

theorem Unwound.zero_notMem {sys : SysOpen} {log log' : Log} (h : Unwound sys log log')
    (hzero : .closed (.fd 0) ∉ log) : .closed (.fd 0) ∉ log' := by
  have hfd : 0 < sys.fd → (.closed (.fd 0) : HandleEvent Resource) ≠ .closed (.fd sys.fd) := by
    intro hpos heq
    injection heq with heq
    injection heq with heq
    omega
  cases h with
  | refused h => exact hzero
  | zero h => simpa using hzero
  | unmapped h =>
      rw [List.mem_cons, not_or]
      exact ⟨hfd h, by simpa using hzero⟩
  | mapped h hsize hmap =>
      rw [List.mem_cons, not_or]
      exact ⟨hfd h, by simpa using hzero⟩

namespace Resolvers

variable {ι : Type*} {s : Resolvers ι}

/-- What a process may rely on. -/
structure Clean (s : Resolvers ι) : Prop where
  /-- Nothing is closed or unmapped that is not open. -/
  balanced : Balanced s.log
  once : ∀ r, timesOpened s.log r ≤ timesClosed s.log r + 1
  /-- What is open is what the descriptors in use stand for, and the descriptor 0. -/
  isOpen_iff : ∀ r, r ≠ .fd 0 → (IsOpen s.log r ↔ ∃ i, r ∈ s.resources i)
  apart : ∀ i j r, r ∈ s.resources i → r ∈ s.resources j → i = j
  /-- Nobody closes the descriptor 0. -/
  zero : .closed (.fd 0) ∉ s.log

/-- The run invariant: the descriptors hold what they stand for, and only 0 is lost. -/
structure Sound (s : Resolvers ι) : Prop where
  accounts : ∃ lost, Accounts s.resources lost s.log ∧ ∀ r ∈ lost, r = .fd 0
  fd_pos : ∀ i, s.inUse i = true → 0 < (s.descs i).srFd
  zero : .closed (.fd 0) ∉ s.log

theorem Sound.clean (hs : s.Sound) : s.Clean := by
  obtain ⟨lost, hacc, hlost⟩ := hs.accounts
  refine ⟨hacc.balanced, hacc.timesOpened_le, fun r hr ↦ ?_, fun i j r ↦ hacc.apart, hs.zero⟩
  rw [hacc.isOpen_iff]
  exact ⟨fun hown ↦ hown.resolve_left fun hmem ↦ hr (hlost r hmem), Or.inr⟩

theorem resources_of_inUse {i : ι} (h : s.inUse i = true) : s.resources i =
    [.mapping (s.descs i).srMem (s.descs i).srMemlen, .fd (s.descs i).srFd] := by
  rw [resources, if_pos h]

theorem resources_of_not_inUse {i : ι} (h : s.inUse i = false) : s.resources i = [] := by
  rw [resources, h]
  rfl

theorem start_sound (descs : ι → SymResolvFile) : (start descs).Sound where
  accounts := ⟨[], Accounts.none, fun r hr ↦ by cases hr⟩
  fd_pos i h := by cases h
  zero h := by cases h

variable [DecidableEq ι]

/-- A call on descriptor `i` leaves the others as they are. -/
theorem resources_update (s : Resolvers ι) (i : ι) (desc : SymResolvFile) (use : Bool) (log : Log) :
    resources ⟨Function.update s.descs i desc, Function.update s.inUse i use, log⟩ =
      Function.update s.resources i
        (if use then [.mapping desc.srMem desc.srMemlen, .fd desc.srFd] else []) := by
  funext j
  by_cases hj : j = i
  · subst hj
    simp only [resources, Function.update_self]
  · simp only [resources, Function.update_of_ne hj]

/-- What a failed opening leaves is accounted for. -/
theorem accounts_unwound {held : ι → List Resource} {lost : List Resource} {sys : SysOpen}
    {log log' : Log} (i : ι) (hacc : Accounts held lost log)
    (hfd : 0 ≤ sys.fd → ¬ IsOpen log (.fd sys.fd))
    (hmapping : ∀ len mem, sys.stSize = some len → sys.mapped = some mem →
      ¬ IsOpen log (.mapping mem len)) (hunwound : Unwound sys log log') :
    ∃ lost', Accounts held lost' log' ∧ ∀ r ∈ lost', r ∈ lost ∨ r = .fd 0 := by
  cases hunwound with
  | refused h => exact ⟨lost, hacc, fun r hr ↦ Or.inl hr⟩
  | zero h =>
      rw [h] at hfd
      refine ⟨_, hacc.lose (hfd (Int.le_refl 0)), fun r hr ↦ ?_⟩
      exact (List.mem_cons.mp hr).symm
  | unmapped h =>
      exact ⟨lost, (hacc.acquire i (hfd (by omega))).closeNewest, fun r hr ↦ Or.inl hr⟩
  | @mapped len mem h hsize hmap =>
      have hnew : ¬ IsOpen (.opened (.fd sys.fd) :: log) (.mapping mem len) := by
        rw [isOpen_opened_of_ne Resource.noConfusion]
        exact hmapping len mem hsize hmap
      exact ⟨lost, ((hacc.acquire i (hfd (by omega))).acquire i hnew).closeNewest.closeNewest,
        fun r hr ↦ Or.inl hr⟩

theorem next_openFile (s : Resolvers ι) (i : ι) (m : Bytes) (sys : SysOpen) (pid : ℤ) :
    s.next (.openFile i m sys pid) =
      { descs := Function.update s.descs i (symResolvOpenFile m sys pid (s.descs i) s.log).2.1
        inUse := Function.update s.inUse i
          ((symResolvOpenFile m sys pid (s.descs i) s.log).1 == 0)
        log := (symResolvOpenFile m sys pid (s.descs i) s.log).2.2 } := rfl

/-- An opening that succeeds gives the descriptor its file and its mapping. -/
theorem accounts_opens {held : ι → List Resource} {lost : List Resource} {sys : SysOpen}
    {log : Log} {r : ℤ × SymResolvFile × Log} {found : Option SymResolvDesc} {i : ι}
    (hacc : Accounts held lost log) (hempty : held i = [])
    (hfd : 0 ≤ sys.fd → ¬ IsOpen log (.fd sys.fd))
    (hmapping : ∀ len mem, sys.stSize = some len → sys.mapped = some mem →
      ¬ IsOpen log (.mapping mem len)) (hopens : Opens found sys log r) :
    Accounts (Function.update held i
      [.mapping r.2.1.srMem r.2.1.srMemlen, .fd r.2.1.srFd]) lost r.2.2 := by
  have hpos := hopens.fd_pos
  have hnew : ¬ IsOpen (.opened (.fd sys.fd) :: log)
      (.mapping r.2.1.srMem r.2.1.srMemlen) := by
    rw [isOpen_opened_of_ne Resource.noConfusion]
    exact hmapping _ _ hopens.stSize hopens.mapped
  have hacc' := (hacc.acquire i (hfd (by omega))).acquire i hnew
  rw [Function.update_self, hempty, Function.update_idem] at hacc'
  rwa [hopens.log, hopens.fd]

theorem openFile_sound {i : ι} {m : Bytes} {sys : SysOpen} {pid : ℤ} (hs : s.Sound)
    (hord : s.Orderly (.openFile i m sys pid)) : (s.next (.openFile i m sys pid)).Sound := by
  obtain ⟨hfree, hfd, hmapping⟩ := hord
  obtain ⟨lost, hacc, hlost⟩ := hs.accounts
  have hempty := resources_of_not_inUse hfree
  rw [next_openFile]
  obtain ⟨hret, -, hunwound⟩ | hopens := symResolvOpenFile_cases m sys pid (s.descs i) s.log
  · -- the descriptor stays out of use
    have hsame : Function.update s.inUse i false = s.inUse := by
      rw [← hfree, Function.update_eq_self]
    rw [hret]
    refine ⟨?_, fun j hj ↦ ?_, hunwound.zero_notMem hs.zero⟩
    · obtain ⟨lost', hacc', hlost'⟩ := accounts_unwound i hacc hfd hmapping hunwound
      refine ⟨lost', ?_, fun r hr ↦ (hlost' r hr).elim (hlost r) id⟩
      rw [resources_update]
      have hnone : Function.update s.resources i [] = s.resources := by
        rw [← hempty, Function.update_eq_self]
      exact hnone.symm ▸ hacc'
    · have hj' : s.inUse j = true := by rwa [← hsame]
      have hne : j ≠ i := fun hji ↦ by rw [hji, hfree] at hj'; cases hj'
      simp only [Function.update_of_ne hne]
      exact hs.fd_pos j hj'
  · rw [hopens.ret]
    refine ⟨⟨lost, ?_, hlost⟩, fun j hj ↦ ?_, ?_⟩
    · rw [resources_update]
      exact accounts_opens hacc hempty hfd hmapping hopens
    · by_cases hji : j = i
      · subst hji
        simp only [Function.update_self]
        rw [hopens.fd]
        exact hopens.fd_pos
      · simp only [Function.update_of_ne hji] at hj ⊢
        exact hs.fd_pos j hj
    · rw [hopens.log]
      simpa using hs.zero

theorem close_sound {i : ι} (hs : s.Sound) (huse : s.inUse i = true) :
    (s.next (.close i)).Sound := by
  obtain ⟨lost, hacc, hlost⟩ := hs.accounts
  have hheld := resources_of_inUse huse
  have hpos := hs.fd_pos i huse
  refine ⟨⟨lost, ?_, hlost⟩, fun j hj ↦ ?_, ?_⟩
  · have hmapping := hacc.release (i := i) (hheld ▸ List.mem_cons_self)
    have hclosed := hmapping.release (i := i) (h := .fd (s.descs i).srFd) (by
      rw [Function.update_self, hheld, List.erase_cons_head]
      exact List.mem_cons_self)
    rw [Function.update_self, hheld, List.erase_cons_head, List.erase_cons_head,
      Function.update_idem] at hclosed
    have hupdate := resources_update s i (s.descs i) false (symResolvClose (s.descs i) s.log)
    rw [Function.update_eq_self] at hupdate
    exact hupdate ▸ hclosed
  · have hne : j ≠ i := by
      rintro rfl
      simp only [next, Function.update_self] at hj
      cases hj
    simp only [next, Function.update_of_ne hne] at hj ⊢
    exact hs.fd_pos j hj
  · have hzero := hs.zero
    simp only [next, symResolvClose, List.mem_cons, not_or]
    refine ⟨fun heq ↦ ?_, by simp, hzero⟩
    injection heq with heq
    injection heq with heq
    omega

theorem next_sound (hs : s.Sound) (c : Call ι) (hord : s.Orderly c) : (s.next c).Sound := by
  cases c with
  | openFile i m sys pid => exact openFile_sound hs hord
  | close i => exact close_sound hs hord

/-- A run on any number of descriptors, whose openings fail at any point, closes nothing twice,
unmaps nothing that is not mapped, and leaves open what its descriptors in use stand for, and at
most the descriptor 0 besides. -/
theorem symResolv_run_clean (descs : ι → SymResolvFile)
    (hrun : Guarded (fun s c ↦ some (s.next c)) Orderly (start descs) s) : s.Clean := by
  have hsound : s.Sound := by
    refine hrun.invariant (start_sound descs) fun t c u ht hord hnext ↦ ?_
    cases hnext
    exact next_sound ht c hord
  exact hsound.clean

/-- The descriptor 0 of the second opening stays open. -/
theorem symResolv_run_clean_two :
    let opened := (start fun _ : Bool ↦ ⟨symDesc, 0, 0⟩).next
      (.openFile true (symMemory 0x8048000 16) ⟨3, some 278, some 0x1000⟩ 7)
    let failed := opened.next (.openFile false (symMemory 0x8048000 16) ⟨0, none, none⟩ 7)
    let closed := failed.next (.close true)
    closed.Clean ∧ closed.log = [.closed (.fd 3), .closed (.mapping 0x1000 278), .opened (.fd 0),
      .opened (.mapping 0x1000 278), .opened (.fd 3)] := by
  intro opened failed closed
  have hopened : opened.inUse true = true ∧ opened.inUse false = false ∧
      opened.log = [.opened (.mapping 0x1000 278), .opened (.fd 3)] := by decide +kernel
  have hfailed : failed.inUse true = true := by decide +kernel
  refine ⟨symResolv_run_clean (fun _ ↦ ⟨symDesc, 0, 0⟩) (.next (.close true) (.next _ (.next _ .refl
    ?_ rfl) ?_ rfl) hfailed rfl), by decide +kernel⟩
  · exact ⟨rfl, fun _ ↦ Nat.lt_irrefl 0, fun _ _ _ _ ↦ Nat.lt_irrefl 0⟩
  · refine ⟨hopened.2.1, fun _ ↦ ?_, fun len mem hsize ↦ by cases hsize⟩
    change ¬ IsOpen opened.log (.fd 0)
    rw [hopened.2.2]
    decide

end Resolvers

end Divers.SymResolver
