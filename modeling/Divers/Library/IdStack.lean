import Mathlib.Data.List.Perm.Subperm

/-!
# LIFO allocation of identifiers

An `IdStack all` splits the identifiers `all` into a stack of free ones and those handed out.
Popping hands out the top of the stack and pushing returns an identifier to it; the split is part
of the type, so no identifier is ever lost or handed out twice.
-/

namespace Divers.Library

/-- A map that tells `a` from the other elements commutes with erasing it. -/
theorem map_erase_of_inj {α β : Type*} [DecidableEq α] [DecidableEq β] {f : α → β} {a : α}
    {l : List α} (hinj : ∀ x ∈ l, f x = f a → x = a) :
    (l.map f).erase (f a) = (l.erase a).map f := by
  induction l with
  | nil => rfl
  | cons x l ih =>
      by_cases hxa : x = a
      · subst hxa
        rw [List.map_cons, List.erase_cons_head, List.erase_cons_head]
      · have hne : f x ≠ f a := fun h ↦ hxa (hinj x List.mem_cons_self h)
        rw [List.map_cons, List.erase_cons_tail (by simpa using hne),
          List.erase_cons_tail (by simpa using hxa), List.map_cons,
          ih fun y hy ↦ hinj y (List.mem_cons_of_mem x hy)]

structure IdStack {ι : Type*} (all : List ι) where
  free : List ι
  out : List ι
  perm : (free ++ out).Perm all

namespace IdStack

variable {ι : Type*} {all : List ι}

/-- All identifiers are free, the first of `all` on top. -/
def fresh (all : List ι) : IdStack all := ⟨all, [], by rw [List.append_nil]⟩

def pop (s : IdStack all) (i : ι) (rest : List ι) (h : s.free = i :: rest) : IdStack all where
  free := rest
  out := i :: s.out
  perm := by
    have hperm := s.perm
    rw [h] at hperm
    exact List.perm_middle.trans hperm

def push [DecidableEq ι] (s : IdStack all) (i : ι) (h : i ∈ s.out) : IdStack all where
  free := i :: s.free
  out := s.out.erase i
  perm := by
    have hout : (i :: s.out.erase i).Perm s.out := (List.perm_cons_erase h).symm
    exact List.perm_middle.symm.trans ((List.Perm.append_left s.free hout).trans s.perm)

variable (s : IdStack all)

theorem length_add : s.free.length + s.out.length = all.length := by
  rw [← List.length_append, s.perm.length_eq]

theorem mem_iff {i : ι} : i ∈ s.free ∨ i ∈ s.out ↔ i ∈ all := by
  rw [← List.mem_append, s.perm.mem_iff]

variable (hall : all.Nodup)
include hall

theorem nodup_append : (s.free ++ s.out).Nodup := s.perm.nodup_iff.mpr hall

theorem free_nodup : s.free.Nodup := (List.nodup_append.mp (s.nodup_append hall)).1

theorem out_nodup : s.out.Nodup := (List.nodup_append.mp (s.nodup_append hall)).2.1

theorem not_mem_out {i : ι} (h : i ∈ s.free) : i ∉ s.out :=
  fun hout ↦ (List.nodup_append.mp (s.nodup_append hall)).2.2 i h i hout rfl

/-- The free identifiers are those of `all` that are not handed out. -/
theorem mem_free_iff {i : ι} : i ∈ s.free ↔ i ∈ all ∧ i ∉ s.out :=
  ⟨fun h ↦ ⟨s.mem_iff.mp (Or.inl h), s.not_mem_out hall h⟩,
    fun h ↦ (s.mem_iff.mpr h.1).resolve_right h.2⟩

end IdStack

end Divers.Library
