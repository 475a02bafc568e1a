import Divers.HeapPool.Run

/-!
# Chunks released in the order of a stack

The free list is a stack, so an allocation is undone by releasing its chunk: the link that
`heap_pool_free` writes is the one that `heap_pool_alloc` left behind.  Chunks released in any
order come back in the reverse order.
-/

open Divers.Library

namespace Divers.HeapPool

/-! ## Sequences of calls -/

inductive LifoCall where
  | alloc
  | free
  deriving DecidableEq, Repr

/-- A successful call, beside the chunks that the sequence still holds: a release gives back the one
that was allocated last. -/
def lifoStep (p : SizeT) (x : PoolState × List SizeT) : LifoCall → Option (PoolState × List SizeT)
  | .alloc =>
      let ret := (heapPoolAlloc x.1.mem p).1
      if isErrValue ret then none else (poolStep p x.1 .alloc).map fun s ↦ (s, ret :: x.2)
  | .free =>
      match x.2 with
      | [] => none
      | addr :: held => (poolStep p x.1 (.free addr)).map fun s ↦ (s, held)

/-- Releases in a row. -/
def freeMany (p : SizeT) (m : Bytes) (addrs : List SizeT) : Bytes :=
  addrs.foldl (fun m addr ↦ heapPoolFree m p addr) m

theorem freeMany_cons (p : SizeT) (m : Bytes) (addr : SizeT) (addrs : List SizeT) :
    freeMany p m (addr :: addrs) = freeMany p (heapPoolFree m p addr) addrs := by
  rw [freeMany, freeMany, List.foldl_cons]

/-- Allocations in a row: what they return and the memory they leave. -/
def allocReturns (p : SizeT) : ℕ → Bytes → List SizeT × Bytes
  | 0, m => ([], m)
  | k + 1, m =>
      let (ret, m) := heapPoolAlloc m p
      let (rets, m) := allocReturns p k m
      (ret :: rets, m)

theorem allocReturns_succ (p : SizeT) (k : ℕ) (m : Bytes) :
    allocReturns p (k + 1) m =
      ((heapPoolAlloc m p).1 :: (allocReturns p k (heapPoolAlloc m p).2).1,
        (allocReturns p k (heapPoolAlloc m p).2).2) := by
  rw [allocReturns]

/-- The two pools have the same free list in the same array. -/
structure SameFreeList (m m' : Bytes) (p : SizeT) : Prop where
  firstfree : getField m' p .hpdFirstfree = getField m p .hpdFirstfree
  nralloc : getField m' p .hpdNralloc = getField m p .hpdNralloc
  array : ∀ i, i < getField m p .hpdNrel → arrayIndex m' p i = arrayIndex m p i

namespace Layout

variable {L : Layout} {m m' : Bytes} {p : SizeT} {a a' : IdStack L.indexes}

namespace Represents

/-! ## One allocation and its release -/

/-- Releasing the chunk just allocated gives back every byte. -/
theorem free_alloc (h : L.Represents m p a) {i : SizeT} {rest : List SizeT}
    (hfree : a.free = i :: rest) :
    heapPoolFree (heapPoolAlloc m p).2 p (heapPoolAlloc m p).1 = m := by
  have hp := h.desc.desc_le
  have hi : i.toNat < L.nrel := h.free_lt (hfree ▸ List.mem_cons_self)
  obtain ⟨hhead, hret, hnext⟩ := h.alloc_cons hfree
  have hheader : chunkHeader (heapPoolAlloc m p).2 (L.chunkAddr i) = i :=
    (hnext.free_mem (i := i) List.mem_cons_self).1
  have hslot : p.toNat + 72 ≤ (arrayIndexAddr p i).toNat := by
    have := h.desc.base
    rw [h.desc.slotAddr_toNat (Nat.le_of_lt hi), slot]
    omega
  have hne : ¬ heapPoolNbFree m p = 0 := by
    rw [h.nbFree_eq_zero_iff, hfree]
    exact List.cons_ne_nil i rest
  have halloc : (heapPoolAlloc m p).2 = setField (setField m p .hpdFirstfree (arrayIndex m p i)) p
      .hpdNralloc (getField m p .hpdNralloc + 1) := by
    rw [heapPoolAlloc, if_neg hne, hhead]
    simp only [getField_setField hp, reduceCtorEq, if_false]
  rw [hret, heapPoolFree, hheader, halloc]
  simp only [getField_setField hp, reduceCtorEq, if_false, if_true]
  set m₁ := setField (setField m p .hpdFirstfree (arrayIndex m p i)) p .hpdNralloc
    (getField m p .hpdNralloc + 1) with hm₁
  -- the link of `i` is still in the array
  have hlink : store64 m₁ (arrayIndexAddr p i) (arrayIndex m p i) = m₁ := by
    have hload : load64 m₁ (arrayIndexAddr p i) = arrayIndex m p i := by
      rw [hm₁, load64_setField hp _ hslot, load64_setField hp _ hslot, arrayIndex]
    rw [← hload, store64_load64_self]
  rw [hlink, hm₁]
  simp only [getField_setField hp, reduceCtorEq, if_false, if_true, UInt64.add_sub_cancel]
  rw [setField_comm hp _ (show DescField.hpdNralloc ≠ .hpdFirstfree by decide),
    setField_setField_same, setField_setField_same, ← hhead, setField_getField_self,
    setField_getField_self]

/-! ## What the free list determines -/

theorem same_head (h : L.Represents m p a) (h' : L.Represents m' p a') (hfree : a'.free = a.free) :
    getField m' p .hpdFirstfree = getField m p .hpdFirstfree ∧
      getField m' p .hpdNralloc = getField m p .hpdNralloc := by
  have hnrel : getField m' p .hpdNrel = getField m p .hpdNrel :=
    UInt64.toNat_inj.mp (h'.desc.nrel.trans h.desc.nrel.symm)
  have hchain := h.chain
  have hchain' := h'.chain
  rw [hfree, hnrel] at hchain'
  constructor
  · cases hlist : a.free with
    | nil =>
        rw [hlist, path_nil] at hchain hchain'
        rw [hchain, hchain']
    | cons i rest =>
        rw [hlist, path_cons] at hchain hchain'
        rw [hchain.1, hchain'.1]
  · have hlen := h.length_add
    have hlen' := h'.length_add
    apply UInt64.toNat_inj.mp
    rw [h.nralloc, h'.nralloc]
    rw [hfree] at hlen'
    omega

/-! ## Many releases, many allocations -/

/-- The chunks released end on top of the stack, the last one first. -/
theorem freeMany (h : L.Represents m p a) {is : List SizeT} (hnodup : is.Nodup)
    (hout : ∀ i ∈ is, i ∈ a.out) :
    ∃ b : IdStack L.indexes, L.Represents (freeMany p m (is.map L.chunkAddr)) p b ∧
      b.free = is.reverse ++ a.free := by
  induction is generalizing m a with
  | nil => exact ⟨a, h, rfl⟩
  | cons i is ih =>
      have hi := hout i List.mem_cons_self
      rw [List.nodup_cons] at hnodup
      have hrest : ∀ j ∈ is, j ∈ (a.push i hi).out := by
        intro j hj
        have hne : j ≠ i := by
          intro heq
          subst heq
          exact hnodup.1 hj
        exact (List.mem_erase_of_ne hne).mpr (hout j (List.mem_cons_of_mem i hj))
      obtain ⟨b, hb, hfree⟩ := ih (h.free_mem hi).2 hnodup.2 hrest
      refine ⟨b, hb, ?_⟩
      rw [hfree, List.reverse_cons, List.append_assoc]
      rfl

/-- What is on top of the stack is what the next allocations return. -/
theorem allocReturns (h : L.Represents m p a) {is rest : List SizeT}
    (hfree : a.free = is ++ rest) :
    (allocReturns p is.length m).1 = is.map L.chunkAddr ∧
      ∃ b : IdStack L.indexes, L.Represents (allocReturns p is.length m).2 p b ∧
        b.free = rest := by
  induction is generalizing m a with
  | nil => exact ⟨rfl, a, h, hfree⟩
  | cons i is ih =>
      obtain ⟨-, hret, hnext⟩ := h.alloc_cons hfree
      obtain ⟨hrets, b, hb, hbfree⟩ := ih hnext rfl
      rw [List.length_cons, allocReturns_succ]
      refine ⟨?_, b, hb, hbfree⟩
      rw [hret, hrets, List.map_cons]

end Represents

/-! ## Sequences that hold what they allocated -/

/-- Releasing all that is held, the newest first, leads back to the memory `m`. -/
def Unwinds (L : Layout) (p : SizeT) (m : Bytes) (x : PoolState × List SizeT) : Prop :=
  L.Tracks p x.1 ∧ HeapPool.freeMany p x.1.mem x.2 = m

theorem Unwinds.step (hno : L.NoErrAddr) {x y : PoolState × List SizeT} {call : LifoCall}
    (h : L.Unwinds p m x) (hstep : lifoStep p x call = some y) : L.Unwinds p m y := by
  obtain ⟨s, held⟩ := x
  obtain ⟨htracks, hunwind⟩ := h
  cases call with
  | alloc =>
      rw [lifoStep, Option.ite_none_left_eq_some] at hstep
      obtain ⟨hok, hstep⟩ := hstep
      obtain ⟨t, ht, heq⟩ := Option.map_eq_some_iff.mp hstep
      subst heq
      refine ⟨tracks_step hno htracks ht, ?_⟩
      rw [poolStep_alloc, if_neg hok, Option.some.injEq] at ht
      subst ht
      obtain ⟨a, hrep, -⟩ := htracks
      cases hfree : a.free with
      | nil =>
          -- an empty pool answers with an error, and the step needs a success
          rw [hrep.alloc_empty hfree] at hok
          exact absurd isErrValue_errNoMem hok
      | cons i rest =>
          dsimp only
          rw [freeMany_cons, hrep.free_alloc hfree]
          exact hunwind
  | free =>
      cases held with
      | nil => cases hstep
      | cons addr held =>
          obtain ⟨t, ht, heq⟩ := Option.map_eq_some_iff.mp hstep
          subst heq
          refine ⟨tracks_step hno htracks ht, ?_⟩
          simp only [poolStep, Option.ite_none_right_eq_some, Option.some.injEq] at ht
          obtain ⟨-, ht⟩ := ht
          subst ht
          exact hunwind

/-- A sequence that holds nothing at its end has changed no byte. -/
theorem lifo_unchanged (hno : L.NoErrAddr) {s t : PoolState} (h : L.Tracks p s)
    (hrun : Reachable (lifoStep p) (s, []) (t, [])) : t.mem = s.mem := by
  have hunwinds : L.Unwinds p s.mem (t, []) := by
    apply hrun.invariant (I := L.Unwinds p s.mem) ⟨h, rfl⟩
    exact fun x _ y hx _ hstep ↦ hx.step hno hstep
  exact hunwinds.2

/-- Outstanding chunks that are released come back in the reverse order. -/
theorem free_then_alloc (hno : L.NoErrAddr) {s : PoolState} (h : L.Tracks p s) {cs : List SizeT}
    (hnodup : cs.Nodup) (hout : ∀ c ∈ cs, c ∈ s.outstanding) :
    (allocReturns p cs.length (freeMany p s.mem cs)).1 = cs.reverse ∧
      (∀ c ∈ cs, isErrValue c = false) ∧
      getField (allocReturns p cs.length (freeMany p s.mem cs)).2 p .hpdFirstfree =
        getField s.mem p .hpdFirstfree ∧
      getField (allocReturns p cs.length (freeMany p s.mem cs)).2 p .hpdNralloc =
        getField s.mem p .hpdNralloc := by
  obtain ⟨a, hrep, heq⟩ := h
  rw [heq] at hout
  -- the chunks as indexes
  obtain ⟨is, his, hcs⟩ : ∃ is : List SizeT, (∀ i ∈ is, i ∈ a.out) ∧ is.map L.chunkAddr = cs := by
    clear hnodup
    induction cs with
    | nil => exact ⟨[], fun i hi ↦ absurd hi List.not_mem_nil, rfl⟩
    | cons c cs ih =>
        obtain ⟨is, his, hcs⟩ := ih fun c hc ↦ hout c (List.mem_cons_of_mem _ hc)
        obtain ⟨i, hi, -, hc⟩ := hrep.outstanding_mem (hout c List.mem_cons_self)
        refine ⟨i :: is, ?_, by rw [List.map_cons, hcs, hc]⟩
        intro j hj
        obtain rfl | hj := List.mem_cons.mp hj
        · exact hi
        · exact his j hj
  subst hcs
  obtain ⟨b, hb, hfree⟩ := hrep.freeMany hnodup.of_map his
  obtain ⟨hrets, c, hc, hcfree⟩ := hb.allocReturns hfree
  rw [List.length_reverse, ← List.length_map L.chunkAddr] at hrets hc
  refine ⟨by rw [hrets, List.map_reverse], ?_, hrep.same_head hc hcfree⟩
  intro c hc
  obtain ⟨i, hi, rfl⟩ := List.mem_map.mp hc
  exact hno.isErrValue_chunkAddr (hrep.out_lt (his i hi))

end Layout

/-! ## From the created pool -/

/-- Wherever the calls on a well-sized pool lead: a sequence of successful calls that releases the
chunks it allocated, each time the newest, leaves the free list as it was, and outstanding chunks
released in any order are what the next allocations return, the last one first. -/
theorem heapPool_lifo {page : PageSize} {nb size _align : SizeT} (haccepted : Accepted _align)
    (hsized : WellSized page nb size _align)
    (map : UserMapping page (mappedLength page nb size _align)) (m : Bytes) :
    ∃ m₀, heapPoolCreate page.bytes (fun _ ↦ some map.base) m nb size _align =
        .ok (map.base, m₀) ∧
      ∀ s, Reachable (poolStep map.base) ⟨m₀, []⟩ s →
        (∀ t, Reachable (lifoStep map.base) (s, []) (t, []) →
          SameFreeList s.mem t.mem map.base) ∧
        ∀ cs : List SizeT, cs.Nodup → (∀ c ∈ cs, c ∈ s.outstanding) →
          (allocReturns map.base cs.length (freeMany map.base s.mem cs)).1 = cs.reverse ∧
          (∀ c ∈ cs, isErrValue c = false) ∧
          getField (allocReturns map.base cs.length (freeMany map.base s.mem cs)).2 map.base
              .hpdFirstfree = getField s.mem map.base .hpdFirstfree ∧
          getField (allocReturns map.base cs.length (freeMany map.base s.mem cs)).2 map.base
              .hpdNralloc = getField s.mem map.base .hpdNralloc := by
  have hwrap := (hsized.sizing haccepted).noAddrWrap map
  have hno := (hsized.sizing haccepted).noErrAddr map
  obtain ⟨m₀, hrun, hm₀⟩ := (hsized.sizing haccepted).heapPoolCreate_spec hwrap page nb rfl m
  refine ⟨m₀, hrun, fun s hreach ↦ ?_⟩
  have htracks : ((hsized.sizing haccepted).layout hwrap).Tracks map.base s := by
    apply hreach.invariant ⟨IdStack.fresh _, hm₀.represents, rfl⟩
    exact fun t op u ht _ hstep ↦ Layout.tracks_step hno ht hstep
  constructor
  · intro t hlifo
    rw [Layout.lifo_unchanged hno htracks hlifo]
    exact ⟨rfl, rfl, fun _ _ ↦ rfl⟩
  · intro cs hnodup hout
    exact Layout.free_then_alloc hno htracks hnodup hout

-- The pool of `main.c`.
theorem heapPool_lifo_main :
    ∃ m₀, heapPoolCreate 4096 (fun _ ↦ some 65536) (fun _ ↦ 0) 10 128 0 = .ok (65536, m₀) ∧
      ∀ t, Reachable (lifoStep 65536) (⟨m₀, []⟩, []) (t, []) → SameFreeList m₀ t.mem 65536 := by
  have hsized : WellSized pageSize4k 10 128 0 := by
    constructor <;> decide
  let map : UserMapping pageSize4k (mappedLength pageSize4k 10 128 0) :=
    ⟨65536, pageSize4k_dvd_base, by decide⟩
  obtain ⟨m₀, hrun, hlifo⟩ := heapPool_lifo zero_accepted hsized map fun _ ↦ 0
  exact ⟨m₀, hrun, fun t ht ↦ (hlifo _ .refl).1 t ht⟩

/-! ## A chunk cost that wraps -/

/-- With a stride of zero all the headers are one word, which keeps the last index. -/
theorem layoutLoop_stacked {p ptr : SizeT} {n : ℕ} (hptr : p.toNat + 72 + 8 * n + 8 ≤ ptr.toNat)
    {bound : ℕ} {i walker : SizeT} {m : Bytes} (hnrel : (getField m p .hpdNrel).toNat = n)
    (hi : i.toNat ≤ n) (hbound : n < i.toNat + bound)
    (hwalker : walker.toNat = p.toNat + 72 + 8 * i.toNat) :
    ∃ m', layoutLoop 0 0 p bound i walker ptr m = .ok m' ∧
      (∀ f, getField m' p f = getField m p f) ∧
      (i.toNat < n → (chunkHeader m' ptr).toNat = n - 1) ∧ (n ≤ i.toNat → m' = m) := by
  induction bound generalizing i walker m with
  | zero => omega
  | succ bound ih =>
      have hlt := ptr.toNat_lt
      have hp : p.toNat + 72 ≤ 2 ^ 64 := by omega
      have htest : i < getField m p .hpdNrel ↔ i.toNat < n := by
        rw [UInt64.lt_iff_toNat_lt, hnrel]
      rw [layoutLoop]
      by_cases hin : i.toNat < n
      · have hheader : (ptr - sizeofSizeT).toNat = ptr.toNat - 8 :=
          toNat_sub_of_le (by rw [sizeofSizeT_toNat]; omega)
        have hnext : (i + 1).toNat = i.toNat + 1 :=
          toNat_add_of_lt (b := 1) (show i.toNat + 1 < 2 ^ 64 by omega)
        have hwalker' : (walker + sizeofSizeT).toNat = p.toNat + 72 + 8 * (i + 1).toNat := by
          rw [toNat_add_of_lt (by rw [sizeofSizeT_toNat]; omega), hwalker, hnext,
            sizeofSizeT_toNat]
          omega
        have hfield : ∀ f, getField (layoutChunk m walker ptr i) p f = getField m p f := by
          intro f
          rw [layoutChunk, getField_store64 hp _ (by omega), getField_store64 hp _ (by omega)]
        -- the next pass writes the same header
        rw [if_pos (htest.mpr hin), if_neg (fun hboth ↦ hboth.1 rfl), UInt64.add_zero]
        obtain ⟨m', hrun, hframe, hlater, hlast⟩ := ih ((congrArg _ (hfield _)).trans hnrel)
          (by omega) (by omega) hwalker'
        refine ⟨m', hrun, fun f ↦ (hframe f).trans (hfield f), fun _ ↦ ?_, fun hge ↦ ?_⟩
        · by_cases hmore : (i + 1).toNat < n
          · exact hlater hmore
          · rw [hlast (by omega), chunkHeader, layoutChunk, load64_store64_same]
            omega
        · omega
      · rw [if_neg (mt htest.mp hin)]
        exact ⟨m, rfl, fun _ ↦ rfl, fun hlt ↦ absurd hlt hin, fun _ ↦ rfl⟩

theorem lifo_pair {p ret : SizeT} {m m' : Bytes} (halloc : heapPoolAlloc m p = (ret, m'))
    (hok : ¬ isErrValue ret = true) :
    Reachable (lifoStep p) (⟨m, []⟩, []) (⟨heapPoolFree m' p ret, []⟩, []) := by
  have hfirst : lifoStep p (⟨m, []⟩, []) .alloc = some (⟨m', [ret]⟩, [ret]) := by
    simp only [lifoStep, poolStep_alloc, halloc, if_neg hok, Option.map_some]
  have hsecond : lifoStep p (⟨m', [ret]⟩, [ret]) .free =
      some (⟨heapPoolFree m' p ret, []⟩, []) := by
    simp only [lifoStep, poolStep, if_pos List.mem_cons_self, Option.map_some,
      List.erase_cons_head]
  exact .next .free (.next .alloc .refl trivial hfirst) trivial hsecond

theorem firstfree_heapPoolFree {p : SizeT} (hp : p.toNat + 72 ≤ 2 ^ 64) (m : Bytes)
    (addr : SizeT) : getField (heapPoolFree m p addr) p .hpdFirstfree = chunkHeader m addr := by
  rw [heapPoolFree, getField_setField hp, if_neg (by decide), getField_setField hp, if_pos rfl]

/-- Chunks of `2 ^ 64 - 8` bytes: the size and its header word add up to zero, and 502 chunks are
laid out at one address. -/
theorem heapPoolCreate_stacked :
    ∃ m₀, heapPoolCreate 4096 (fun _ ↦ some 65536) (fun _ ↦ 0) 1 (-8) 0 = .ok (65536, m₀) ∧
      getField m₀ 65536 .hpdNrel = 502 ∧ getField m₀ 65536 .hpdNralloc = 0 ∧
      getField m₀ 65536 .hpdFirstfree = 0 ∧ getField m₀ 65536 .hpdSzck = 0 ∧
      getField m₀ 65536 .hpdOfffirstelem = 4096 ∧ (chunkHeader m₀ 69632).toNat = 501 := by
  have hp : (65536 : SizeT).toNat + 72 ≤ 2 ^ 64 := by decide
  obtain ⟨m₁, hwrite, hdesc, -⟩ := @writeDesc_spec 65536 (-8) 4096 8 (-8) 8 hp (by decide) fun _ ↦ 0
  let m₂ := setField m₁ 65536 .hpdOfffirstelem 4096
  have hfield : ∀ f, f ≠ .hpdOfffirstelem → getField m₂ 65536 f = getField m₁ 65536 f := by
    intro f hf
    rw [getField_setField hp, if_neg hf]
  have hnrel : getField m₁ 65536 .hpdNrel = 502 := hdesc _ (by decide)
  have hcount : (getField m₂ 65536 .hpdNrel).toNat = 502 := by
    rw [hfield _ (by decide), hnrel]
    rfl
  -- the stride is zero, so the loop stays at the first chunk
  have hcreate : heapPoolCreate 4096 (fun _ ↦ some 65536) (fun _ ↦ 0) 1 (-8) 0 =
      (layoutLoop 0 0 65536 503 0 (hpdRaw 65536) 69632 m₂).map fun m ↦ (65536, m) := by
    have hchunk : (-8 : SizeT) + chunkExtraSize = -8 := by decide
    have hhole : poolHolesize (-8) 0 = 8 := by decide
    have halign : poolAlignment 0 = 8 := by decide
    have halloc : poolAllocsize 4096 1 (-8) 8 8 = 4096 := by decide
    have hstride : (-8 + 8 : SizeT) = 0 := by decide
    have hoffset : (69632 - 65536 : SizeT) = 4096 := by decide
    have hptr : firstChunk m₁ 65536 8 = 69632 := by
      rw [firstChunk, hnrel]
      decide
    rw [heapPoolCreate, if_neg (fun hboth ↦ hboth.1 rfl)]
    simp only [hchunk, hhole, halign, halloc, hwrite]
    dsimp only [bind, Except.bind]
    rw [hptr, hstride, hoffset, hcount]
  obtain ⟨m₀, hrun, hframe, hheader, -⟩ : ∃ m₀,
      layoutLoop 0 0 65536 503 0 (hpdRaw 65536) 69632 m₂ = .ok m₀ ∧
        (∀ f, getField m₀ 65536 f = getField m₂ 65536 f) ∧
        ((0 : SizeT).toNat < 502 → (chunkHeader m₀ 69632).toNat = 502 - 1) ∧
        (502 ≤ (0 : SizeT).toNat → m₀ = m₂) :=
    layoutLoop_stacked (by decide) hcount (by decide) (by decide) (by decide)
  rw [hrun] at hcreate
  have hget : ∀ f, f ≠ .hpdOfffirstelem → getField m₀ 65536 f = getField m₁ 65536 f := by
    intro f hf
    rw [hframe, hfield f hf]
  refine ⟨m₀, hcreate, ?_, ?_, ?_, ?_, ?_, hheader (by decide)⟩
  · rw [hget _ (by decide), hnrel]
  · rw [hget _ (by decide), hdesc _ (by decide), descValue]
  · rw [hget _ (by decide), hdesc _ (by decide), descValue]
  · rw [hget _ (by decide), hdesc _ (by decide)]
    decide
  · rw [hframe, getField_setField hp, if_pos rfl]

/-- One allocation from that pool and its release change the first free index. -/
theorem heapPool_lifo_stacked :
    ∃ m₀ t, heapPoolCreate 4096 (fun _ ↦ some 65536) (fun _ ↦ 0) 1 (-8) 0 = .ok (65536, m₀) ∧
      Reachable (lifoStep 65536) (⟨m₀, []⟩, []) (t, []) ∧ ¬ SameFreeList m₀ t.mem 65536 := by
  have hp : (65536 : SizeT).toNat + 72 ≤ 2 ^ 64 := by decide
  obtain ⟨m₀, hcreate, hnrel, hcount, hfirst, hszck, hoff, hheader⟩ := heapPoolCreate_stacked
  have hfree : ¬ heapPoolNbFree m₀ 65536 = 0 := by
    rw [heapPoolNbFree, hcount, hnrel]
    decide
  let m' := setField (setField m₀ 65536 .hpdFirstfree (arrayIndex m₀ 65536 0)) 65536 .hpdNralloc 1
  have halloc : heapPoolAlloc m₀ 65536 = (69632, m') := by
    rw [heapPoolAlloc, if_neg hfree]
    simp only [nthChunk, getField_setField hp, reduceCtorEq, if_false, hoff, hszck, hfirst, hcount]
    rfl
  refine ⟨m₀, _, hcreate, lifo_pair halloc (by decide), fun hsame ↦ ?_⟩
  have hhead := hsame.firstfree
  -- what is released is what the last header says
  have hlast : chunkHeader m' 69632 = chunkHeader m₀ 69632 := by
    rw [chunkHeader, chunkHeader, load64_setField hp _ (by decide),
      load64_setField hp _ (by decide)]
  rw [firstfree_heapPoolFree hp, hfirst, hlast] at hhead
  rw [hhead] at hheader
  exact absurd hheader (by decide)

end Divers.HeapPool
