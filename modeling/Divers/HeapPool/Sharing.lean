import Divers.HeapPool.Mapping

/-! It does not matter through which mapping a call goes: it does to the pool what it would do in
the process that created it, where the pool's bytes represent the stack of its chunk indexes. -/

open Divers.Library

namespace Divers.HeapPool

namespace Request

variable {page : PageSize} (r : Request page) (map : UserMapping page r.allocsize)

/-- The geometry of the pool in the mapping that it was created in. -/
abbrev home : Layout := r.toSizing.layout (r.toSizing.noAddrWrap map)

/-- The offset of chunk `i`. -/
def chunkOffset (i : SizeT) : SizeT := (r.home map).chunkAddr i - map.base

/-- `m` is a memory of the process that created the pool: the pool's bytes are there, and represent
the stack `a`. -/
structure AtHome (s : PoolImage) (m : Bytes) (a : IdStack (r.home map).indexes) : Prop where
  represents : (r.home map).Represents m map.base a
  same : SameWindow r.allocsize m map.base.toNat s.bytes 0
  outstanding : s.outstanding = a.out.map (r.chunkOffset map)

variable {r map} {s s' : PoolImage} {m : Bytes} {a : IdStack (r.home map).indexes} {i : SizeT}

variable (map) in
theorem chunkOffset_toNat (hi : i.toNat < r.nrel) :
    (r.chunkOffset map i).toNat = (r.home map).chunk i.toNat - map.base.toNat := by
  have hfirst := (r.home map).first_le_chunk i.toNat
  have hindex := (r.home map).index_le
  have hbase : (r.home map).base = map.base.toNat := rfl
  have haddr : ((r.home map).chunkAddr i).toNat = (r.home map).chunk i.toNat :=
    Layout.chunkAddr_toNat hi
  rw [chunkOffset, toNat_sub_of_le (by omega), haddr]

variable (map) in
theorem base_add_chunkOffset_toNat (via : UserMapping page r.allocsize) (hi : i.toNat < r.nrel) :
    (via.base + r.chunkOffset map i).toNat + map.base.toNat =
        via.base.toNat + (r.home map).chunk i.toNat ∧
      map.base.toNat + 80 ≤ (r.home map).chunk i.toNat ∧
      isErrValue (via.base + r.chunkOffset map i) = false := by
  have hoffset := chunkOffset_toNat map hi
  have hfirst := (r.home map).first_le_chunk i.toNat
  have hindex := (r.home map).index_le
  have hbase : (r.home map).base = map.base.toNat := rfl
  have hend : (r.home map).chunk i.toNat + r.stride ≤
      r.toSizing.first map.base.toNat + r.nrel * r.stride := (r.home map).chunk_add_le hi
  have hlt := r.chunksEnd_lt map.base.toNat
  have halign : r.align ≤ 2 ^ 62 := r.toSizing.align_le_two_pow map
  have hfits := via.fits
  have hfits' := map.fits
  have hsum : (via.base + r.chunkOffset map i).toNat =
      via.base.toNat + (r.chunkOffset map i).toNat := toNat_add_of_lt (by omega)
  refine ⟨by omega, by omega, ?_⟩
  have hno : ¬ (-4095 : SizeT).toNat ≤ (via.base + r.chunkOffset map i).toNat := by
    rw [hsum, show (-4095 : SizeT).toNat = 2 ^ 64 - 4095 from rfl]
    omega
  exact decide_eq_false hno

namespace AtHome

/-- A process sees the pool that the creating process sees. -/
theorem twin (h : r.AtHome map s m a) (via : Mapping page r.allocsize) :
    Twin r.allocsize m map.base (via.see s.bytes) via.base := by
  have hroom : r.align + 72 ≤ r.allocsize := r.toSizing.align_add_le
  exact ⟨h.same.trans (placeAt_same r.allocsize s.bytes via.base.toNat via.around).symm, map.fits,
    via.fits, by omega⟩

theorem free_lt (h : r.AtHome map s m a) {rest : List SizeT} (hfree : a.free = i :: rest) :
    i.toNat < r.nrel :=
  h.represents.free_lt (by rw [hfree]; exact List.mem_cons_self)

theorem index_le (_ : r.AtHome map s m a) (hi : i.toNat < r.nrel) :
    72 + 8 * i.toNat + 8 ≤ r.allocsize := by
  have hfit := r.nrel_mul_le
  rw [Nat.mul_add] at hfit
  omega

theorem see_alloc_empty (h : r.AtHome map s m a) (hfree : a.free = [])
    (via : Mapping page r.allocsize) :
    heapPoolAlloc (via.see s.bytes) via.base = (errNoMem, via.see s.bytes) := by
  rw [heapPoolAlloc, ← (h.twin via).nbFree_eq, if_pos (h.represents.nbFree_eq_zero_iff.mpr hfree)]

theorem see_alloc_cons (h : r.AtHome map s m a) {rest : List SizeT} (hfree : a.free = i :: rest)
    (via : Mapping page r.allocsize) :
    (heapPoolAlloc (via.see s.bytes) via.base).1 = via.base + r.chunkOffset map i ∧
      Twin r.allocsize (heapPoolAlloc m map.base).2 map.base
        (heapPoolAlloc (via.see s.bytes) via.base).2 via.base := by
  rcases h.represents.alloc_cons hfree with ⟨hhead, hret, -⟩
  have hi : i.toNat < r.nrel := h.free_lt hfree
  rcases (h.twin via).alloc (fun _ ↦ by rw [hhead]; exact h.index_le hi) with ⟨htwin, hresult⟩
  refine ⟨?_, htwin⟩
  rcases hresult with ⟨hnomem, -⟩ | hsame
  · -- the address at home is not an error
    have herr := (r.toSizing.noErrAddr map).isErrValue_chunkAddr (i := i) hi
    rw [← hret, hnomem, Layout.isErrValue_errNoMem] at herr
    cases herr
  · rw [chunkOffset, ← hret, hsame, UInt64.add_comm, UInt64.sub_add_cancel]

/-! ### Allocation -/

theorem call_alloc_empty (h : r.AtHome map s m a) (hfree : a.free = [])
    (via : Mapping page r.allocsize) :
    mappedCall via s .alloc = some (.err errNoMem, s) := by
  have hself := (placeAt_same r.allocsize s.bytes via.base.toNat via.around).takeFrom_self
  rw [mappedCall_alloc, h.see_alloc_empty hfree, if_pos Layout.isErrValue_errNoMem]
  unfold Mapping.see
  rw [hself]

/-- The pool after `heap_pool_alloc` has handed out chunk `i`. -/
def allocated (r : Request page) (map : UserMapping page r.allocsize) (s : PoolImage) (m : Bytes)
    (i : SizeT) : PoolImage :=
  ⟨takeFrom r.allocsize s.bytes (heapPoolAlloc m map.base).2 map.base.toNat,
    r.chunkOffset map i :: s.outstanding⟩

theorem call_alloc_cons (h : r.AtHome map s m a) {rest : List SizeT} (hfree : a.free = i :: rest)
    (via : Mapping page r.allocsize) :
    mappedCall via s .alloc = some (.chunk (r.chunkOffset map i), allocated r map s m i) := by
  rcases h.see_alloc_cons hfree via with ⟨hret, htwin⟩
  have haddr := base_add_chunkOffset_toNat map via.toUserMapping (h.free_lt hfree)
  have hoffset : via.base + r.chunkOffset map i - via.base = r.chunkOffset map i := by
    rw [UInt64.add_comm, UInt64.add_sub_cancel]
  rw [mappedCall_alloc, hret, haddr.2.2, if_neg Bool.false_ne_true, hoffset,
    ← htwin.same.takeFrom s.bytes]
  rfl

theorem allocated_atHome (h : r.AtHome map s m a) {rest : List SizeT}
    (hfree : a.free = i :: rest) :
    r.AtHome map (allocated r map s m i) (heapPoolAlloc m map.base).2 (a.pop i rest hfree) := by
  unfold allocated
  refine ⟨(h.represents.alloc_cons hfree).2.2, ?_, ?_⟩
  · dsimp only
    exact SameWindow.of_takeFrom r.allocsize s.bytes _ map.base.toNat
  · unfold IdStack.pop
    rw [List.map_cons, h.outstanding]

/-! ### Release -/

theorem chunkOffset_inj {j : SizeT} (hi : i.toNat < r.nrel) (hj : j.toNat < r.nrel)
    (heq : r.chunkOffset map i = r.chunkOffset map j) : i = j := by
  apply Layout.chunkAddr_inj (L := r.home map) hi hj
  have hadd := congrArg (· + map.base) heq
  simpa only [chunkOffset, UInt64.sub_add_cancel] using hadd

theorem mem_outstanding (h : r.AtHome map s m a) {offset : SizeT} (ho : offset ∈ s.outstanding) :
    ∃ i ∈ a.out, i.toNat < r.nrel ∧ offset = r.chunkOffset map i := by
  rw [h.outstanding] at ho
  rcases List.mem_map.mp ho with ⟨i, hi, rfl⟩
  exact ⟨i, hi, h.represents.out_lt hi, rfl⟩

/-- The pool after `heap_pool_free` of chunk `i`. -/
def released (r : Request page) (map : UserMapping page r.allocsize) (s : PoolImage) (m : Bytes)
    (i : SizeT) : PoolImage :=
  ⟨takeFrom r.allocsize s.bytes (heapPoolFree m map.base ((r.home map).chunkAddr i))
      map.base.toNat,
    s.outstanding.erase (r.chunkOffset map i)⟩

theorem call_free_mem (h : r.AtHome map s m a) (hi : i ∈ a.out)
    (via : Mapping page r.allocsize) :
    mappedCall via s (.free (r.chunkOffset map i)) = some (.done, released r map s m i) := by
  have hlt : i.toNat < r.nrel := h.represents.out_lt hi
  have hmem : r.chunkOffset map i ∈ s.outstanding := by
    rw [h.outstanding]
    exact List.mem_map_of_mem hi
  have haddr := base_add_chunkOffset_toNat map via.toUserMapping hlt
  have hhome : ((r.home map).chunkAddr i).toNat = (r.home map).chunk i.toNat :=
    Layout.chunkAddr_toNat hlt
  have hin : (r.home map).chunk i.toNat ≤ map.base.toNat + r.allocsize := r.chunk_le_mapping map hlt
  rcases Nat.exists_eq_add_of_le haddr.2.1 with ⟨o, ho⟩
  have hleft : ((r.home map).chunkAddr i).toNat = map.base.toNat + (o + 72 + 8) := by omega
  have hright : (via.base + r.chunkOffset map i).toNat = via.base.toNat + (o + 72 + 8) := by omega
  have hheader := (h.represents.free_mem hi).1
  have htwin := (h.twin via).free hleft hright (by omega)
    (by rw [hheader]; exact h.index_le hlt)
  unfold mappedCall
  dsimp only
  rw [if_pos hmem, ← htwin.same.takeFrom s.bytes]
  rfl

theorem released_atHome (h : r.AtHome map s m a) (hi : i ∈ a.out) :
    r.AtHome map (released r map s m i)
      (heapPoolFree m map.base ((r.home map).chunkAddr i)) (a.push i hi) := by
  unfold released
  refine ⟨(h.represents.free_mem hi).2, ?_, ?_⟩
  · dsimp only
    exact SameWindow.of_takeFrom r.allocsize s.bytes _ map.base.toNat
  · unfold IdStack.push
    rw [h.outstanding]
    exact map_erase_of_inj fun j hj heq ↦
      chunkOffset_inj (h.represents.out_lt hj) (h.represents.out_lt hi) heq

/-! ### Runs -/

/-- A call does the same through every mapping, and what it leaves is again at home. -/
theorem call (h : r.AtHome map s m a) (call : PoolCall) :
    ∃ out, (∀ via : Mapping page r.allocsize, mappedCall via s call = out) ∧
      ∀ ret s', out = some (ret, s') → ∃ m' a', r.AtHome map s' m' a' := by
  cases call with
  | alloc =>
      cases hfree : a.free with
      | nil =>
          refine ⟨_, fun via ↦ h.call_alloc_empty hfree via, ?_⟩
          intro ret s' heq
          cases heq
          exact ⟨m, a, h⟩
      | cons i rest =>
          refine ⟨_, fun via ↦ h.call_alloc_cons hfree via, ?_⟩
          intro ret s' heq
          cases heq
          exact ⟨_, _, h.allocated_atHome hfree⟩
  | free offset =>
      by_cases hmem : offset ∈ s.outstanding
      · rcases h.mem_outstanding hmem with ⟨i, hi, hlt, rfl⟩
        refine ⟨_, fun via ↦ h.call_free_mem hi via, ?_⟩
        intro ret s' heq
        cases heq
        exact ⟨_, _, h.released_atHome hi⟩
      · exact ⟨none, fun via ↦ if_neg hmem, fun ret s' heq ↦ by cases heq⟩

theorem run_eq (h : r.AtHome map s m a)
    {calls calls' : List (Mapping page r.allocsize × PoolCall)}
    (hcalls : calls.map Prod.snd = calls'.map Prod.snd) :
    mappedRun s calls = mappedRun s calls' := by
  induction calls generalizing s m a calls' with
  | nil =>
      have hnil : calls' = [] := List.map_eq_nil_iff.mp hcalls.symm
      rw [hnil]
  | cons c calls ih =>
      cases calls' with
      | nil => cases hcalls
      | cons c' calls' =>
          rcases c with ⟨via, call⟩
          rcases c' with ⟨via', call'⟩
          rw [List.map_cons, List.map_cons, List.cons.injEq] at hcalls
          rcases hcalls with ⟨heq, hrest⟩
          cases heq
          rcases h.call call with ⟨out, hout, hnext⟩
          rw [mappedRun, mappedRun, hout, hout]
          cases out with
          | none => rfl
          | some next =>
              rcases next with ⟨ret, next⟩
              rcases hnext ret next rfl with ⟨m', a', h'⟩
              rw [Option.bind_some, Option.bind_some]
              dsimp only
              rw [ih h' hrest]

theorem run_atHome (h : r.AtHome map s m a)
    {calls : List (Mapping page r.allocsize × PoolCall)} {rets : List Returned}
    (hrun : mappedRun s calls = some (rets, s')) : ∃ m' a', r.AtHome map s' m' a' := by
  induction calls generalizing s m a rets with
  | nil =>
      cases hrun
      exact ⟨m, a, h⟩
  | cons c calls ih =>
      rcases h.call c.2 with ⟨out, hout, hnext⟩
      rcases Option.bind_eq_some_iff.mp hrun with ⟨next, hcall, hrest⟩
      rcases Option.map_eq_some_iff.mp hrest with ⟨last, hlast, heq⟩
      cases heq
      rw [hout] at hcall
      rcases hnext next.1 next.2 hcall with ⟨m', a', h'⟩
      exact ih h' hlast

/-- The address that `heap_pool_alloc` returns is a multiple of the alignment. -/
theorem alloc_aligned (h : r.AtHome map s m a) (via : Mapping page r.allocsize)
    (hdvd : r.alignment.toNat ∣ page.bytes.toNat)
    (hok : isErrValue (heapPoolAlloc (via.see s.bytes) via.base).1 = false) :
    r.alignment.toNat ∣ (heapPoolAlloc (via.see s.bytes) via.base).1.toNat := by
  have hne : r.alignment ≠ 0 := by
    intro hz
    have hpos := page.bytes_pos
    rw [hz, UInt64.toNat_zero, Nat.zero_dvd] at hdvd
    omega
  cases hfree : a.free with
  | nil =>
      rw [h.see_alloc_empty hfree, Layout.isErrValue_errNoMem] at hok
      cases hok
  | cons i rest =>
      rw [(h.see_alloc_cons hfree via).1]
      have haddr := (base_add_chunkOffset_toNat map via.toUserMapping (h.free_lt hfree)).1
      -- the chunk is aligned at home, and pages are
      rw [Nat.dvd_add_iff_left (hdvd.trans map.aligned), haddr]
      exact Nat.dvd_add (hdvd.trans via.aligned) (r.toSizing.alignment_dvd_chunk _ _ hne)

end AtHome

/-! ## From the created pool -/

theorem atHome_of_created {m₀ : Bytes}
    (hm₀ : r.toSizing.Created (r.toSizing.noAddrWrap map) m m₀) :
    r.AtHome map (.created m₀ map.base) m₀ (IdStack.fresh _) := by
  refine ⟨hm₀.represents, fun o _ ↦ ?_, rfl⟩
  show m₀ (map.base.toNat + o) = m₀ (map.base.toNat + (0 + o))
  rw [Nat.zero_add]

variable (r)

/-- The same calls return the same, and leave the same bytes, through whatever mappings they go, one
for all of them in particular. -/
def RunsAgree (s : PoolImage) : Prop :=
  ∀ calls calls' : List (Mapping page r.allocsize × PoolCall),
    calls.map Prod.snd = calls'.map Prod.snd → mappedRun s calls = mappedRun s calls'

/-- After any run an allocation through any mapping returns an address with the alignment of the
request, if that divides the page size. -/
def ReturnsAligned (s : PoolImage) : Prop :=
  r.alignment.toNat ∣ page.bytes.toNat →
    ∀ (calls : List (Mapping page r.allocsize × PoolCall)) (rets : List Returned) (s' : PoolImage),
      mappedRun s calls = some (rets, s') →
      ∀ via : Mapping page r.allocsize,
        isErrValue (heapPoolAlloc (via.see s'.bytes) via.base).1 = false →
        r.alignment.toNat ∣ (heapPoolAlloc (via.see s'.bytes) via.base).1.toNat

/-- It makes no difference through which mappings of the pool the calls go, and the addresses that
they return are aligned. -/
theorem heapPool_mappings_agree (map : UserMapping page r.allocsize) (m : Bytes) :
    ∃ m₀, heapPoolCreate page.bytes (fun _ ↦ some map.base) m r.nb r.size r.alignment =
        .ok (map.base, m₀) ∧
      r.RunsAgree (.created m₀ map.base) ∧ r.ReturnsAligned (.created m₀ map.base) := by
  rcases r.heapPoolCreate_spec (r.toSizing.noAddrWrap map) m with ⟨m₀, hrun, hm₀⟩
  have h := atHome_of_created hm₀
  refine ⟨m₀, hrun, fun calls calls' hcalls ↦ h.run_eq hcalls, ?_⟩
  intro hdvd calls rets s' hcalls via hok
  rcases h.run_atHome hcalls with ⟨m', a', h'⟩
  exact h'.alloc_aligned via hdvd hok

end Request

end Divers.HeapPool
