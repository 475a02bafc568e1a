import Mathlib.Data.List.Basic
import Mathlib.Tactic.Common

/-!
# Searching tables of records

A table is a run of records of `stride` bytes.  `scanRecords` looks at up to `n` records from an
address on and stops at the first that satisfies `p`; `searchTables` does so in the wanted ones of a
list of tables.  Both also say at which records they looked.  A search goes through `count` records
of a table, whatever the number of bytes that the table has: `Exact` is when it gives the first
record inside the tables all the same, and reads no byte outside them.
-/

namespace Divers.Library

/-! ## One table -/

/-- The first record that satisfies `p`, and the records looked at. -/
def scanRecords (p : ℕ → Bool) (stride : ℕ) : ℕ → ℕ → Option ℕ × List ℕ
  | 0, _ => (none, [])
  | n + 1, a =>
      if p a then (some a, [a])
      else
        let rest := scanRecords p stride n (a + stride)
        (rest.1, a :: rest.2)

def records (stride n a : ℕ) : List ℕ := (List.range n).map fun j ↦ a + stride * j

variable {p : ℕ → Bool} {stride n a r : ℕ}

theorem record_add (stride a n j : ℕ) : a + stride * (n + j) = a + stride * n + stride * j := by
  rw [Nat.mul_add, Nat.add_assoc]

theorem record_succ (stride a j : ℕ) : a + stride * (j + 1) = a + stride + stride * j := by
  rw [Nat.add_comm j, record_add, Nat.mul_one]

theorem records_succ (stride n a : ℕ) :
    records stride (n + 1) a = a :: records stride n (a + stride) := by
  unfold records
  rw [List.range_succ_eq_map, List.map_cons, List.map_map, Nat.mul_zero, Nat.add_zero]
  congr 1
  apply List.map_congr_left
  intro j _
  exact record_succ stride a j

theorem records_add (stride n k a : ℕ) :
    records stride (n + k) a = records stride n a ++ records stride k (a + stride * n) := by
  unfold records
  rw [List.range_add, List.map_append, List.map_map]
  congr 1
  apply List.map_congr_left
  intro j _
  exact record_add stride a n j

theorem scanRecords_found (p : ℕ → Bool) (stride n a : ℕ) :
    (scanRecords p stride n a).1 = (records stride n a).find? p := by
  induction n generalizing a with
  | zero => rfl
  | succ n ih =>
      rw [scanRecords, records_succ]
      by_cases ha : p a
      · rw [if_pos ha, List.find?_cons_of_pos ha]
      · rw [if_neg ha, List.find?_cons_of_neg ha]
        exact ih (a + stride)

/-- No record before number `j` satisfies `p`. -/
def NoneBefore (p : ℕ → Bool) (stride a j : ℕ) : Prop := ∀ i < j, p (a + stride * i) = false

instance {j : ℕ} : Decidable (NoneBefore p stride a j) :=
  inferInstanceAs (Decidable (∀ i < j, _))

theorem noneBefore_zero : NoneBefore p stride a 0 := fun i hi ↦ absurd hi (Nat.not_lt_zero i)

theorem noneBefore_succ {j : ℕ} :
    NoneBefore p stride a (j + 1) ↔ p a = false ∧ NoneBefore p stride (a + stride) j := by
  unfold NoneBefore
  rw [Nat.forall_lt_succ_left]
  simp only [Nat.mul_zero, Nat.add_zero, record_succ]

theorem NoneBefore.mono {i j : ℕ} (h : NoneBefore p stride a j) (hij : i ≤ j) :
    NoneBefore p stride a i := fun k hk ↦ h k (by omega)

theorem scanRecords_eq_none :
    (scanRecords p stride n a).1 = none ↔ NoneBefore p stride a n := by
  rw [scanRecords_found, List.find?_eq_none]
  simp [records, NoneBefore]

theorem scanRecords_eq_some :
    (scanRecords p stride n a).1 = some r ↔
      ∃ j < n, p (a + stride * j) = true ∧ NoneBefore p stride a j ∧ r = a + stride * j := by
  rw [scanRecords_found, records, List.find?_map, Option.map_eq_some_iff]
  simp only [List.find?_range_eq_some, List.mem_range, Function.comp, NoneBefore, Bool.not_eq_true']
  constructor
  · intro h
    obtain ⟨j, ⟨hmatch, hlt, hbefore⟩, hr⟩ := h
    exact ⟨j, hlt, hmatch, hbefore, hr.symm⟩
  · intro h
    obtain ⟨j, hlt, hmatch, hbefore, hr⟩ := h
    exact ⟨j, ⟨hmatch, hlt, hbefore⟩, hr.symm⟩

/-- The records that are looked at are those with no match before them. -/
theorem mem_scanRecords :
    r ∈ (scanRecords p stride n a).2 ↔
      ∃ j < n, r = a + stride * j ∧ NoneBefore p stride a j := by
  induction n generalizing a with
  | zero => simp [scanRecords]
  | succ n ih =>
      rw [Nat.exists_lt_succ_left]
      simp only [noneBefore_zero, noneBefore_succ, record_succ, Nat.mul_zero, Nat.add_zero,
        and_true]
      rw [scanRecords]
      by_cases ha : p a = true
      · -- a match: only the first record was looked at
        simp [ha]
      · simp [ha, ih]

/-! ## Several tables -/

structure Tables (τ : Type*) where
  wanted : τ → Bool
  start : τ → ℕ
  size : τ → ℕ            -- in bytes
  count : τ → ℕ           -- the number of records that a search goes through
  stride : ℕ
  field : ℕ               -- where the bytes of a record stand that a search reads
  width : ℕ               -- and how many they are
  stride_pos : 0 < stride
  field_le : field + width ≤ stride

variable {τ : Type*}

def searchTables (T : Tables τ) (p : ℕ → Bool) : List τ → Option ℕ × List ℕ
  | [] => (none, [])
  | t :: l =>
      if T.wanted t then
        let here := scanRecords p T.stride (T.count t) (T.start t)
        match here.1 with
        | some r => (some r, here.2)
        | none =>
            let rest := searchTables T p l
            (rest.1, here.2 ++ rest.2)
      else searchTables T p l

/-- The records that lie inside the wanted tables, in the order of the tables. -/
def recordsInside (T : Tables τ) (l : List τ) : List ℕ :=
  (l.filter T.wanted).flatMap fun t ↦ records T.stride (T.size t / T.stride) (T.start t)

namespace Tables

variable (T : Tables τ) (all : List τ)

/-- Record number `j` of a table, inside it or not. -/
def record (t : τ) (j : ℕ) : ℕ := T.start t + T.stride * j

/-- The byte `x` lies in a wanted table. -/
def Has (x : ℕ) : Prop := ∃ t ∈ all, T.wanted t = true ∧ T.start t ≤ x ∧ x < T.start t + T.size t

/-- The bytes that a search reads in the record `r` lie in wanted tables. -/
def Covers (r : ℕ) : Prop := ∀ x, r + T.field ≤ x → x < r + T.field + T.width → T.Has all x

variable {T all} {t : τ}

theorem covers_of_lt (hmem : t ∈ all) (ht : T.wanted t = true) {j : ℕ}
    (hj : j < T.size t / T.stride) : T.Covers all (T.record t j) := by
  intro x hlo hhi
  have hend : T.stride * (j + 1) ≤ T.size t :=
    Nat.le_trans (Nat.mul_le_mul_left _ hj) (Nat.mul_div_le ..)
  have hfield := T.field_le
  rw [Nat.mul_succ] at hend
  rw [record] at hlo hhi
  exact ⟨t, hmem, ht, by omega, by omega⟩

end Tables

/-- The search comes to the record `r` first, and reads bytes of the wanted tables only until
there. -/
inductive Reaches (T : Tables τ) (all : List τ) (p : ℕ → Bool) (r : ℕ) : List τ → Prop
  | skip {t : τ} {l : List τ} (hskip : T.wanted t = false) (hrest : Reaches T all p r l) :
      Reaches T all p r (t :: l)
  | here {t : τ} {l : List τ} (hwanted : T.wanted t = true)
      {j : ℕ} (hcount : j < T.count t) (hbefore : NoneBefore p T.stride (T.start t) j)
      (hmatch : p r = true) (hr : r = T.record t j)
      (hcovers : ∀ i ≤ j, T.Covers all (T.record t i)) : Reaches T all p r (t :: l)
  | past {t : τ} {l : List τ} (hwanted : T.wanted t = true)
      (hnone : NoneBefore p T.stride (T.start t) (T.count t))
      (hcovers : ∀ i < T.count t, T.Covers all (T.record t i)) (hrest : Reaches T all p r l) :
      Reaches T all p r (t :: l)

/-- When a search is right: nothing is asked of the first table with a match both inside it and
among the records gone through, and of the ones behind it.  In the tables before it the search reads
bytes of the wanted tables only, and a match inside the table that it misses, or a match behind the
table's end that it takes, is the first one that it comes to or that is inside the later tables. -/
inductive Exact (T : Tables τ) (all : List τ) (p : ℕ → Bool) : List τ → Prop
  | nil : Exact T all p []
  | skip {t : τ} {l : List τ} (hskip : T.wanted t = false) (hrest : Exact T all p l) :
      Exact T all p (t :: l)
  | hit {t : τ} {l : List τ} (hwanted : T.wanted t = true)
      {j : ℕ} (hcount : j < T.count t) (hsize : j < T.size t / T.stride)
      (hmatch : p (T.record t j) = true) : Exact T all p (t :: l)
  | quiet {t : τ} {l : List τ} (hwanted : T.wanted t = true)
      (hcount : NoneBefore p T.stride (T.start t) (T.count t))
      (hsize : NoneBefore p T.stride (T.start t) (T.size t / T.stride))
      (hcovers : ∀ i < T.count t, T.Covers all (T.record t i)) (hrest : Exact T all p l) :
      Exact T all p (t :: l)
  | missed {t : τ} {l : List τ} (hwanted : T.wanted t = true)
      {j : ℕ} (hcount : T.count t ≤ j) (hsize : j < T.size t / T.stride)
      (hbefore : NoneBefore p T.stride (T.start t) j) (hmatch : p (T.record t j) = true)
      (hrest : Reaches T all p (T.record t j) l) : Exact T all p (t :: l)
  | beyond {t : τ} {l : List τ} (hwanted : T.wanted t = true)
      {j : ℕ} (hcount : j < T.count t) (hsize : T.size t / T.stride ≤ j)
      (hbefore : NoneBefore p T.stride (T.start t) j) (hmatch : p (T.record t j) = true)
      (hcovers : ∀ i ≤ j, T.Covers all (T.record t i))
      (hrest : (recordsInside T l).find? p = some (T.record t j)) : Exact T all p (t :: l)

variable {T : Tables τ} {all : List τ} {t : τ} {l : List τ} {j : ℕ}

theorem searchTables_skip (ht : T.wanted t = false) :
    searchTables T p (t :: l) = searchTables T p l := by
  rw [searchTables, if_neg (by simp [ht])]

theorem recordsInside_skip (ht : T.wanted t = false) :
    recordsInside T (t :: l) = recordsInside T l := by
  unfold recordsInside
  rw [List.filter_cons_of_neg (by simp [ht])]

/-! ### What a search does with the first table -/

/-- A run of records has a first match, or none. -/
theorem noneBefore_or_first (p : ℕ → Bool) (stride a n : ℕ) :
    NoneBefore p stride a n ∨
      ∃ j < n, p (a + stride * j) = true ∧ NoneBefore p stride a j := by
  cases hfound : (scanRecords p stride n a).1 with
  | none => exact Or.inl (scanRecords_eq_none.mp hfound)
  | some r =>
      obtain ⟨j, hj, hmatch, hbefore, -⟩ := scanRecords_eq_some.mp hfound
      exact Or.inr ⟨j, hj, hmatch, hbefore⟩

theorem NoneBefore.not_match {a i j : ℕ} (h : NoneBefore p stride a j) (hi : i < j) :
    ¬ p (a + stride * i) = true := by
  rw [h i hi]
  exact Bool.false_ne_true

/-- There is one first match. -/
theorem NoneBefore.first_eq {a i j : ℕ} (hi : NoneBefore p stride a i)
    (hmi : p (a + stride * i) = true) (hj : NoneBefore p stride a j)
    (hmj : p (a + stride * j) = true) : i = j := by
  apply Nat.le_antisymm
  · by_contra hlt
    exact hi.not_match (by omega) hmj
  · by_contra hlt
    exact hj.not_match (by omega) hmi

theorem searchTables_first (all l : List τ) (ht : T.wanted t = true) (hcount : j < T.count t)
    (hmatch : p (T.record t j) = true) (hbefore : NoneBefore p T.stride (T.start t) j) :
    (searchTables T p (t :: l)).1 = some (T.record t j) ∧
      ((∀ r ∈ (searchTables T p (t :: l)).2, T.Covers all r) ↔
        ∀ i ≤ j, T.Covers all (T.record t i)) := by
  have hfound : (scanRecords p T.stride (T.count t) (T.start t)).1 = some (T.record t j) :=
    scanRecords_eq_some.mpr ⟨j, hcount, hmatch, hbefore, rfl⟩
  rw [searchTables, if_pos ht]
  simp only [hfound, true_and]
  constructor
  · intro h i hi
    exact h _ (mem_scanRecords.mpr ⟨i, by omega, rfl, hbefore.mono hi⟩)
  · intro h r hr
    obtain ⟨i, -, rfl, hi⟩ := mem_scanRecords.mp hr
    -- the search stops at record `j`
    refine h i ?_
    by_contra hlt
    exact hi.not_match (by omega) hmatch

theorem searchTables_past (all l : List τ) (ht : T.wanted t = true)
    (hnone : NoneBefore p T.stride (T.start t) (T.count t)) :
    (searchTables T p (t :: l)).1 = (searchTables T p l).1 ∧
      ((∀ r ∈ (searchTables T p (t :: l)).2, T.Covers all r) ↔
        (∀ i < T.count t, T.Covers all (T.record t i)) ∧
          ∀ r ∈ (searchTables T p l).2, T.Covers all r) := by
  have hfound := scanRecords_eq_none.mpr hnone
  rw [searchTables, if_pos ht]
  simp only [hfound, true_and, List.forall_mem_append]
  refine and_congr_left fun _ ↦ ⟨fun h i hi ↦ ?_, fun h r hr ↦ ?_⟩
  · exact h _ (mem_scanRecords.mpr ⟨i, hi, rfl, hnone.mono (by omega)⟩)
  · obtain ⟨i, hi, rfl, -⟩ := mem_scanRecords.mp hr
    exact h i hi

/-! ### Exactness -/

theorem find?_recordsInside (ht : T.wanted t = true) :
    (recordsInside T (t :: l)).find? p =
      ((scanRecords p T.stride (T.size t / T.stride) (T.start t)).1).or
        ((recordsInside T l).find? p) := by
  unfold recordsInside
  rw [List.filter_cons_of_pos ht, List.flatMap_cons, List.find?_append, scanRecords_found]

theorem find?_recordsInside_first (ht : T.wanted t = true) (hsize : j < T.size t / T.stride)
    (hmatch : p (T.record t j) = true) (hbefore : NoneBefore p T.stride (T.start t) j) :
    (recordsInside T (t :: l)).find? p = some (T.record t j) := by
  rw [find?_recordsInside ht, scanRecords_eq_some.mpr ⟨j, hsize, hmatch, hbefore, rfl⟩]
  rfl

theorem find?_recordsInside_none (ht : T.wanted t = true)
    (hnone : NoneBefore p T.stride (T.start t) (T.size t / T.stride)) :
    (recordsInside T (t :: l)).find? p = (recordsInside T l).find? p := by
  rw [find?_recordsInside ht, scanRecords_eq_none.mpr hnone]
  rfl

theorem reaches_iff :
    (searchTables T p l).1 = some r ∧ (∀ r ∈ (searchTables T p l).2, T.Covers all r) ↔
      Reaches T all p r l := by
  induction l with
  | nil =>
      constructor
      · intro h
        cases h.1
      · intro h
        cases h
  | cons t l ih =>
      by_cases ht : T.wanted t = true
      · obtain hnone | ⟨j, hcount, hmatch, hbefore⟩ :=
          noneBefore_or_first p T.stride (T.start t) (T.count t)
        · have hpast := searchTables_past all l ht hnone
          rw [hpast.1, hpast.2, and_left_comm, ih]
          constructor
          · rintro ⟨hcovers, hrest⟩
            exact .past ht hnone hcovers hrest
          · intro h
            cases h with
            | skip hskip => simp [ht] at hskip
            | here _ hcount _ hmatch hr =>
                subst hr
                exact absurd hmatch (hnone.not_match hcount)
            | past _ _ hcovers hrest => exact ⟨hcovers, hrest⟩
        · have hfirst := searchTables_first all l ht hcount hmatch hbefore
          rw [hfirst.1, hfirst.2, Option.some.injEq]
          constructor
          · rintro ⟨rfl, hcovers⟩
            exact .here ht hcount hbefore hmatch rfl hcovers
          · intro h
            cases h with
            | skip hskip => simp [ht] at hskip
            | here _ _ hbefore' hmatch' hr hcovers =>
                subst hr
                cases hbefore'.first_eq hmatch' hbefore hmatch
                exact ⟨rfl, hcovers⟩
            | past _ hnone => exact absurd hmatch (hnone.not_match hcount)
      · have hskip : T.wanted t = false := by simpa using ht
        rw [searchTables_skip hskip, ih]
        constructor
        · intro h
          exact .skip hskip h
        · intro h
          cases h with
          | skip _ hrest => exact hrest
          | here hwanted => exact absurd hwanted ht
          | past hwanted => exact absurd hwanted ht

/-- The search gives the first record inside the tables and reads bytes of the tables only exactly
if it is exact. -/
theorem searchTables_exact_iff (hall : ∀ t ∈ l, t ∈ all) :
    (searchTables T p l).1 = (recordsInside T l).find? p ∧
        (∀ r ∈ (searchTables T p l).2, T.Covers all r) ↔
      Exact T all p l := by
  induction l with
  | nil => exact iff_of_true ⟨rfl, fun _ h ↦ absurd h List.not_mem_nil⟩ .nil
  | cons t l ih =>
      have ih := ih fun t' ht' ↦ hall t' (List.mem_cons_of_mem t ht')
      by_cases ht : T.wanted t = true
      · have hown : ∀ i < T.size t / T.stride, T.Covers all (T.record t i) :=
          fun i hi ↦ Tables.covers_of_lt (hall t List.mem_cons_self) ht hi
        obtain hnone | ⟨j, hcount, hmatch, hbefore⟩ :=
          noneBefore_or_first p T.stride (T.start t) (T.count t) <;>
        obtain hquiet | ⟨k, hsize, hmatch', hbefore'⟩ :=
          noneBefore_or_first p T.stride (T.start t) (T.size t / T.stride)
        · -- no match
          have hpast := searchTables_past all l ht hnone
          rw [hpast.1, hpast.2, find?_recordsInside_none ht hquiet, and_left_comm, ih]
          constructor
          · rintro ⟨hcovers, hrest⟩
            exact .quiet ht hnone hquiet hcovers hrest
          · intro h
            cases h with
            | skip hskip => simp [ht] at hskip
            | hit _ _ hsize hmatch => exact absurd hmatch (hquiet.not_match hsize)
            | quiet _ _ _ hcovers hrest => exact ⟨hcovers, hrest⟩
            | missed _ _ hsize _ hmatch => exact absurd hmatch (hquiet.not_match hsize)
            | beyond _ hcount _ _ hmatch => exact absurd hmatch (hnone.not_match hcount)
        · -- a match inside the table that the search does not come to
          have hmissed : T.count t ≤ k := by
            by_contra hlt
            exact hnone.not_match (by omega) hmatch'
          have hcovers : ∀ i < T.count t, T.Covers all (T.record t i) :=
            fun i hi ↦ hown i (by omega)
          have hpast := searchTables_past all l ht hnone
          rw [hpast.1, hpast.2, find?_recordsInside_first ht hsize hmatch' hbefore', and_left_comm,
            and_iff_right hcovers, reaches_iff]
          constructor
          · intro h
            exact .missed ht hmissed hsize hbefore' hmatch' h
          · intro h
            cases h with
            | skip hskip => simp [ht] at hskip
            | hit _ hcount _ hmatch => exact absurd hmatch (hnone.not_match hcount)
            | quiet _ _ hquiet => exact absurd hmatch' (hquiet.not_match hsize)
            | missed _ _ _ hbefore hmatch hrest =>
                cases hbefore.first_eq hmatch hbefore' hmatch'
                exact hrest
            | beyond _ hcount _ _ hmatch => exact absurd hmatch (hnone.not_match hcount)
        · -- a match behind the table's end
          have hbeyond : T.size t / T.stride ≤ j := by
            by_contra hlt
            exact hquiet.not_match (by omega) hmatch
          have hfirst := searchTables_first all l ht hcount hmatch hbefore
          rw [hfirst.1, hfirst.2, find?_recordsInside_none ht hquiet]
          constructor
          · rintro ⟨hrest, hcovers⟩
            exact .beyond ht hcount hbeyond hbefore hmatch hcovers hrest.symm
          · intro h
            cases h with
            | skip hskip => simp [ht] at hskip
            | hit _ _ hsize hmatch => exact absurd hmatch (hquiet.not_match hsize)
            | quiet _ hnone => exact absurd hmatch (hnone.not_match hcount)
            | missed _ _ hsize _ hmatch => exact absurd hmatch (hquiet.not_match hsize)
            | beyond _ _ _ hbefore' hmatch' hcovers hrest =>
                cases hbefore'.first_eq hmatch' hbefore hmatch
                exact ⟨hrest.symm, hcovers⟩
        · -- the first match of the table, which both come to
          cases hbefore.first_eq hmatch hbefore' hmatch'
          have hfirst := searchTables_first all l ht hcount hmatch hbefore
          refine iff_of_true ⟨?_, hfirst.2.mpr fun i hi ↦ hown i (by omega)⟩
            (.hit ht hcount hsize hmatch)
          rw [hfirst.1, find?_recordsInside_first ht hsize hmatch hbefore]
      · have hskip : T.wanted t = false := by simpa using ht
        rw [searchTables_skip hskip, recordsInside_skip hskip, ih]
        constructor
        · intro h
          exact .skip hskip h
        · intro h
          cases h with
          | skip _ hrest => exact hrest
          | hit hwanted => exact absurd hwanted ht
          | quiet hwanted => exact absurd hwanted ht
          | missed hwanted => exact absurd hwanted ht
          | beyond hwanted => exact absurd hwanted ht

end Divers.Library
