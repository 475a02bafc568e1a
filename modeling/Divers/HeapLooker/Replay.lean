import Divers.HeapLooker.Model

/-! What a reader of the trace knows about the heap: all of it, except for the blocks that `realloc`
gave back, of which the trace has no free record. -/

open Divers.Library

namespace Divers.HeapLooker

/-! ## Two heaps -/

/-- The heap that was recorded and the live one differ by the addresses in `stale` exactly: they are
recorded and not live. -/
structure Behind (recorded live : Blocks) (stale : List ℕ) : Prop where
  agree : ∀ p, p ∉ stale → recorded p = live p
  kept : ∀ p ∈ stale, (recorded p).isSome
  dead : ∀ p ∈ stale, live p = none

namespace Behind

variable {recorded live live' : Blocks} {stale : List ℕ} {p ret size : ℕ}

theorem eq_iff (h : Behind recorded live stale) : recorded = live ↔ stale = [] := by
  constructor
  · intro heq
    apply List.eq_nil_iff_forall_not_mem.mpr
    intro p hp
    have hkept := h.kept p hp
    rw [heq, h.dead p hp] at hkept
    cases hkept
  · intro hstale
    funext p
    apply h.agree
    rw [hstale]
    exact List.not_mem_nil

/-- A block that is handed out and recorded is known again, whatever was recorded there. -/
theorem handOut (h : Behind recorded live stale)
    (hlive : live.handOut size (some ret) = some live') :
    Behind (Function.update recorded ret (some size)) live' (stale.filter (· ≠ ret)) := by
  simp only [Blocks.handOut] at hlive
  split at hlive
  next hfree =>
    cases hlive
    have hmem : ∀ p, p ∈ stale.filter (· ≠ ret) ↔ p ∈ stale ∧ p ≠ ret := by simp
    constructor
    · intro p hp
      by_cases heq : p = ret
      · rw [heq, Function.update_self, Function.update_self]
      · rw [Function.update_of_ne heq, Function.update_of_ne heq]
        apply h.agree
        intro hstale
        exact hp ((hmem p).mpr ⟨hstale, heq⟩)
    · intro p hp
      rcases (hmem p).mp hp with ⟨hstale, hne⟩
      rw [Function.update_of_ne hne]
      exact h.kept p hstale
    · intro p hp
      rcases (hmem p).mp hp with ⟨hstale, hne⟩
      rw [Function.update_of_ne hne]
      exact h.dead p hstale
  next => cases hlive

theorem giveBack_eq (hlive : live.giveBack p = some live') :
    (live p).isSome ∧ live' = Function.update live p none := by
  unfold Blocks.giveBack at hlive
  split at hlive
  next hsome => exact ⟨hsome, (Option.some.inj hlive).symm⟩
  next => cases hlive

theorem not_mem (h : Behind recorded live stale) (hsome : (live p).isSome) : p ∉ stale := by
  intro hp
  rw [h.dead p hp] at hsome
  cases hsome

/-- A recorded release. -/
theorem giveBack (h : Behind recorded live stale) (hlive : live.giveBack p = some live') :
    Behind (Function.update recorded p none) live' stale := by
  rcases giveBack_eq hlive with ⟨hsome, rfl⟩
  have hne : ∀ q ∈ stale, q ≠ p := fun q hq heq ↦ h.not_mem hsome (heq ▸ hq)
  constructor
  · intro q hq
    by_cases heq : q = p
    · rw [heq, Function.update_self, Function.update_self]
    · rw [Function.update_of_ne heq, Function.update_of_ne heq]
      exact h.agree q hq
  · intro q hq
    rw [Function.update_of_ne (hne q hq)]
    exact h.kept q hq
  · intro q hq
    rw [Function.update_of_ne (hne q hq)]
    exact h.dead q hq

/-- A release that goes unrecorded. -/
theorem giveBack_unrecorded (h : Behind recorded live stale)
    (hlive : live.giveBack p = some live') : Behind recorded live' (p :: stale) := by
  rcases giveBack_eq hlive with ⟨hsome, rfl⟩
  constructor
  · intro q hq
    rw [List.mem_cons, not_or] at hq
    rw [Function.update_of_ne hq.1]
    exact h.agree q hq.2
  · intro q hq
    rcases List.mem_cons.mp hq with rfl | hq
    · rw [h.agree q (h.not_mem hsome)]
      exact hsome
    · exact h.kept q hq
  · intro q hq
    rcases List.mem_cons.mp hq with rfl | hq
    · rw [Function.update_self]
    · have hne : q ≠ p := fun heq ↦ h.not_mem hsome (heq ▸ hq)
      rw [Function.update_of_ne hne]
      exact h.dead q hq

end Behind

/-- The length that is recorded for `calloc` is the one that the allocator used. -/
theorem calloc_handOut {live live' : Blocks} {a b : SizeT} {ret : Option ℕ}
    (hlive : live.calloc a b ret = some live') : live.handOut (a * b).toNat ret = some live' := by
  unfold Blocks.calloc at hlive
  split at hlive
  next => cases hlive
  next hfits =>
    cases ret with
    | none => exact hlive
    | some ret =>
        have hlt : a.toNat * b.toNat < 2 ^ 64 := by
          by_contra hge
          exact hfits ⟨rfl, Nat.le_of_not_lt hge⟩
        rw [UInt64.toNat_mul, Nat.mod_eq_of_lt hlt]
        exact hlive

theorem replay_append (trace : List TraceRecord) (record : TraceRecord) :
    replay (trace ++ [record]) = replayRecord (replay trace) record := by
  unfold replay
  rw [List.foldl_append]
  rfl

/-! ## Runs -/

/-- The addresses of the blocks that a `realloc` gave back and that have not been handed out since,
after a call that reaches the allocator. -/
def unrecorded (stale : List ℕ) : HeapCall → List ℕ
  | .malloc _ ret => stale.filter (some · ≠ ret)
  | .calloc _ _ ret => stale.filter (some · ≠ ret)
  | .realloc base _ (.block ret) => (base.toList ++ stale).filter (· ≠ ret)
  | .realloc _ _ .failed => stale
  | .realloc base _ .released => base.toList ++ stale
  | .free _ => stale

/-- A step, with these addresses beside the state. -/
def staleStep (x : Looker × List ℕ) (call : Bool × HeapCall) : Option (Looker × List ℕ) :=
  (x.1.step call).map fun t ↦ (t, if x.1.reaches call then unrecorded x.2 call.2 else x.2)

namespace Looker

variable {s t : Looker} {stale : List ℕ}

structure Traced (s : Looker) (stale : List ℕ) : Prop where
  fp : s.fp = true
  behind : Behind (replay s.trace) s.blocks stale

theorem init_traced : (heapLookerInit init).Traced [] :=
  ⟨rfl, fun _ _ ↦ rfl, fun _ h ↦ absurd h List.not_mem_nil, fun _ h ↦ absurd h List.not_mem_nil⟩

namespace Traced

/-- The allocator answers `ret`, and the block is recorded unless it is NULL. -/
theorem writeAllocbacktrace (hfp : s.fp = true) {len : SizeT} {ret : Option ℕ} {live : Blocks}
    (h : Behind (replay s.trace) live stale) (hlive : live.handOut len.toNat ret = some s.blocks) :
    (writeAllocbacktrace s ret len).Traced (stale.filter (some · ≠ ret)) := by
  cases ret with
  | none =>
      cases hlive
      have hall : stale.filter (some · ≠ (none : Option ℕ)) = stale := by simp
      rw [hall]
      exact ⟨hfp, h⟩
  | some ret =>
      unfold HeapLooker.writeAllocbacktrace
      simp only [hfp, if_true]
      refine ⟨rfl, ?_⟩
      simp only [replay_append, replayRecord, ne_eq, Option.some.injEq]
      exact h.handOut hlive

theorem writeFreebacktrace (hfp : s.fp = true) {base : Option ℕ} {live : Blocks}
    (h : Behind (replay s.trace) live stale) (hlive : live.free base = some s.blocks) :
    (writeFreebacktrace s base).Traced stale := by
  unfold HeapLooker.writeFreebacktrace
  simp only [hfp, if_true]
  refine ⟨rfl, ?_⟩
  rw [replay_append]
  cases base with
  | none =>
      cases hlive
      exact h
  | some p => exact h.giveBack hlive

/-- A wrapper records what the wrapped function did, and nothing if that has not been found. -/
theorem wrapper {ptr : Bool} {called : Option Blocks} {record : Blocks → Looker} {stale' : List ℕ}
    (hstep : (if ptr then called.map record else some s) = some t) (h : s.Traced stale)
    (hcalled : ∀ blocks, called = some blocks → (record blocks).Traced stale') :
    t.Traced (if ptr then stale' else stale) := by
  split at hstep
  next hptr =>
    rcases Option.map_eq_some_iff.mp hstep with ⟨blocks, hblocks, rfl⟩
    rw [if_pos hptr]
    exact hcalled blocks hblocks
  next hptr =>
    cases hstep
    rw [if_neg hptr]
    exact h

theorem malloc (h : s.Traced stale) {found : Bool} {len : SizeT} {ret : Option ℕ}
    (hstep : s.malloc found len ret = some t) :
    t.Traced (if loadFuncIf s.mallocPtr found then unrecorded stale (.malloc len ret)
      else stale) := by
  refine wrapper hstep ⟨h.fp, h.behind⟩ fun blocks hblocks ↦ ?_
  apply writeAllocbacktrace
  · exact h.fp
  · exact h.behind
  · exact hblocks

theorem calloc (h : s.Traced stale) {found : Bool} {a b : SizeT} {ret : Option ℕ}
    (hstep : s.calloc found a b ret = some t) :
    t.Traced (if loadFuncIf s.callocPtr found then unrecorded stale (.calloc a b ret)
      else stale) := by
  refine wrapper hstep ⟨h.fp, h.behind⟩ fun blocks hblocks ↦ ?_
  apply writeAllocbacktrace
  · exact h.fp
  · exact h.behind
  · exact calloc_handOut hblocks

theorem realloc (h : s.Traced stale) {found : Bool} {base : Option ℕ} {a : SizeT}
    {answer : ReallocAnswer} (hstep : s.realloc found base a answer = some t) :
    t.Traced (if loadFuncIf s.reallocPtr found then unrecorded stale (.realloc base a answer)
      else stale) := by
  refine wrapper hstep ⟨h.fp, h.behind⟩ fun blocks hblocks ↦ ?_
  cases answer with
  | block ret =>
      -- the block at `base` goes unrecorded, the one at `ret` is recorded
      have hgiven : ∃ live, live.handOut a.toNat (some ret) = some blocks ∧
          Behind (replay s.trace) live (base.toList ++ stale) := by
        cases base with
        | none => exact ⟨s.blocks, hblocks, h.behind⟩
        | some base =>
            rcases Option.bind_eq_some_iff.mp hblocks with ⟨live, hgive, hhand⟩
            exact ⟨live, hhand, h.behind.giveBack_unrecorded hgive⟩
      rcases hgiven with ⟨live, hhand, hbehind⟩
      have hfilter : unrecorded stale (.realloc base a (.block ret)) =
          (base.toList ++ stale).filter (some · ≠ some ret) := by simp [unrecorded]
      rw [hfilter]
      apply writeAllocbacktrace
      · exact h.fp
      · exact hbehind
      · exact hhand
  | failed =>
      have hsame : blocks = s.blocks := by
        cases base with
        | none => exact (Option.some.inj hblocks).symm
        | some base =>
            simp only [Blocks.realloc] at hblocks
            split at hblocks
            next => exact (Option.some.inj hblocks).symm
            next => cases hblocks
      rw [hsame]
      exact ⟨h.fp, h.behind⟩
  | released =>
      rcases Option.bind_eq_some_iff.mp hblocks with ⟨base, rfl, hgive⟩
      exact ⟨h.fp, h.behind.giveBack_unrecorded hgive⟩

theorem free (h : s.Traced stale) {found : Bool} {base : Option ℕ}
    (hstep : s.free found base = some t) :
    t.Traced (if loadFuncIf s.freePtr found then unrecorded stale (.free base) else stale) := by
  refine wrapper hstep ⟨h.fp, h.behind⟩ fun blocks hblocks ↦ ?_
  apply writeFreebacktrace
  · exact h.fp
  · exact h.behind
  · exact hblocks

theorem step (h : s.Traced stale) {call : Bool × HeapCall} (hstep : s.step call = some t) :
    t.Traced (if s.reaches call then unrecorded stale call.2 else stale) := by
  rcases call with ⟨found, call⟩
  cases call with
  | malloc => exact h.malloc hstep
  | calloc => exact h.calloc hstep
  | realloc => exact h.realloc hstep
  | free => exact h.free hstep

end Traced

/-- The trace replays to the live blocks exactly when every block that a `realloc` moved or freed
has had its address handed out again. -/
theorem replay_run_eq_iff
    (hrun : Reachable staleStep (heapLookerInit init, []) (s, stale)) :
    replay s.trace = s.blocks ↔ stale = [] := by
  have htraced : s.Traced stale := by
    apply hrun.invariant (I := fun x : Looker × List ℕ ↦ x.1.Traced x.2)
    · exact init_traced
    · intro c call c' h _ hstep
      obtain ⟨s, stale⟩ := c
      obtain ⟨t, stale'⟩ := c'
      rcases Option.map_eq_some_iff.mp hstep with ⟨next, hnext, heq⟩
      cases heq
      exact h.step hnext
  exact htraced.behind.eq_iff

-- `f1` of `f1.c`: a block is allocated and freed.
theorem replay_run_eq_iff_freed :
    ∃ s, Reachable staleStep (heapLookerInit init, []) (s, []) ∧ s.trace.length = 2 ∧
      replay s.trace = s.blocks := by
  have hstart : Reachable staleStep (heapLookerInit init, []) (heapLookerInit init, []) := .refl
  have hrun := (hstart.next (true, .malloc 4 (some 1)) trivial rfl).next
    (true, .free (some 1)) trivial rfl
  exact ⟨_, hrun, rfl, (replay_run_eq_iff hrun).mpr rfl⟩

/-- `f3` of `f1.c`: `realloc` moves the block, and the trace keeps its first address for ever. -/
theorem replay_run_not_eq :
    ¬ ∀ s, Reachable step (heapLookerInit init) s → replay s.trace = s.blocks := by
  intro hclaim
  have hstart : Reachable step (heapLookerInit init) (heapLookerInit init) := .refl
  have hrun := ((hstart.next (true, .malloc 2 (some 1)) trivial rfl).next
    (true, .realloc (some 1) 6 (.block 2)) trivial rfl).next (true, .free (some 2)) trivial rfl
  have heq := congrFun (hclaim _ hrun) 1
  cases heq

end Looker

end Divers.HeapLooker
