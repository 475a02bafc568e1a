import Mathlib.Logic.Function.Basic
import Mathlib.Data.Nat.Init

/-!
# Address spaces

Which bytes of an address space are mapped, and the books on who holds them: `own` is what is mapped
from the start, and each key holds at most one extent.  Mapping an extent over free bytes and
unmapping one that a key holds keep the books.
-/

namespace Divers.Library

/-- The bytes from `base` up to `base + len`. -/
structure Extent where
  base : ℕ
  len : ℕ
  deriving DecidableEq, Repr

def Extent.Has (e : Extent) (x : ℕ) : Prop := e.base ≤ x ∧ x < e.base + e.len

instance (e : Extent) (x : ℕ) : Decidable (e.Has x) := inferInstanceAs (Decidable (_ ∧ _))

/-- `m'` holds in the extent what `m` does. -/
def Extent.Same {α : Type*} (e : Extent) (m m' : ℕ → α) : Prop := ∀ x, e.Has x → m' x = m x

abbrev Mapped := ℕ → Bool

namespace Mapped

def map (M : Mapped) (e : Extent) : Mapped := fun x ↦ M x || decide (e.Has x)

def unmap (M : Mapped) (e : Extent) : Mapped := fun x ↦ M x && !decide (e.Has x)

def Free (M : Mapped) (e : Extent) : Prop := ∀ x, e.Has x → M x = false

instance (M : Mapped) (e : Extent) : Decidable (M.Free e) :=
  decidable_of_iff (∀ k, k < e.len → M (e.base + k) = false) <| by
    constructor
    · intro h x hx
      rw [Extent.Has] at hx
      have := h (x - e.base) (by omega)
      rwa [Nat.add_sub_cancel' hx.1] at this
    · exact fun h k hk ↦ h _ ⟨Nat.le_add_right .., Nat.add_lt_add_left hk _⟩

@[simp] theorem map_iff {M : Mapped} {e : Extent} {x : ℕ} :
    M.map e x = true ↔ M x = true ∨ e.Has x := by
  simp [map]

@[simp] theorem unmap_iff {M : Mapped} {e : Extent} {x : ℕ} :
    M.unmap e x = true ↔ M x = true ∧ ¬ e.Has x := by
  simp [unmap]

end Mapped

variable {ι : Type*} {own M : Mapped} {held : ι → Option Extent} {i j : ι} {e f : Extent}

/-- What is mapped is `own` and the extents held, and no byte of these belongs to two. -/
structure Booked (own M : Mapped) (held : ι → Option Extent) : Prop where
  mapped_iff : ∀ x, M x = true ↔ own x = true ∨ ∃ i e, held i = some e ∧ e.Has x
  own_apart : ∀ {i e x}, held i = some e → e.Has x → own x = false
  apart : ∀ {i j e f x}, held i = some e → held j = some f → e.Has x → f.Has x → i = j

namespace Booked

theorem none (own : Mapped) : Booked own own fun _ : ι ↦ none where
  mapped_iff x := by simp
  own_apart h := by cases h
  apart h := by cases h

/-- With nothing held, what is mapped is what was mapped from the start. -/
theorem eq_own (h : Booked own M held) (hnone : ∀ i, held i = Option.none) : M = own := by
  funext x
  rw [Bool.eq_iff_iff, h.mapped_iff x]
  simp [hnone]

theorem not_free (h : Booked own M held) (hi : held i = some e) {x : ℕ} (hx : e.Has x) :
    M x = true :=
  (h.mapped_iff x).mpr (Or.inr ⟨i, e, hi, hx⟩)

variable [DecidableEq ι]

theorem map (h : Booked own M held) (hi : held i = Option.none) (hfree : M.Free e) :
    Booked own (M.map e) (Function.update held i (some e)) := by
  -- no other key holds a byte of the new extent
  have hother : ∀ {j f x}, j ≠ i → Function.update held i (some e) j = some f → f.Has x →
      ¬ e.Has x := by
    intro j f x hne hj hf he
    rw [Function.update_of_ne hne] at hj
    have hmapped := h.not_free hj hf
    rw [hfree x he] at hmapped
    cases hmapped
  refine ⟨fun x ↦ ?_, fun {j f x} hj hf ↦ ?_, fun {j k f g x} hj hk hf hg ↦ ?_⟩
  · rw [Mapped.map_iff, h.mapped_iff]
    constructor
    · rintro ((hown | ⟨j, f, hj, hf⟩) | he)
      · exact Or.inl hown
      · refine Or.inr ⟨j, f, ?_, hf⟩
        rwa [Function.update_of_ne]
        rintro rfl
        rw [hi] at hj
        cases hj
      · exact Or.inr ⟨i, e, Function.update_self .., he⟩
    · rintro (hown | ⟨j, f, hj, hf⟩)
      · exact Or.inl (Or.inl hown)
      · by_cases hji : j = i
        · subst hji
          rw [Function.update_self, Option.some.injEq] at hj
          exact Or.inr (hj ▸ hf)
        · rw [Function.update_of_ne hji] at hj
          exact Or.inl (Or.inr ⟨j, f, hj, hf⟩)
  · by_cases hji : j = i
    · subst hji
      rw [Function.update_self, Option.some.injEq] at hj
      by_contra hown
      have hmapped := (h.mapped_iff x).mpr (Or.inl (Bool.not_eq_false _ ▸ hown))
      rw [hfree x (hj ▸ hf)] at hmapped
      cases hmapped
    · rw [Function.update_of_ne hji] at hj
      exact h.own_apart hj hf
  · by_cases hji : j = i
    · subst hji
      by_contra hkj
      rw [Function.update_self, Option.some.injEq] at hj
      exact hother (Ne.symm hkj) hk hg (hj ▸ hf)
    · by_cases hki : k = i
      · subst hki
        rw [Function.update_self, Option.some.injEq] at hk
        exact absurd (hk ▸ hg) (hother hji hj hf)
      · rw [Function.update_of_ne hji] at hj
        rw [Function.update_of_ne hki] at hk
        exact h.apart hj hk hf hg

theorem unmap (h : Booked own M held) (hi : held i = some e) :
    Booked own (M.unmap e) (Function.update held i Option.none) := by
  have hrest : ∀ {j f}, Function.update held i Option.none j = some f →
      j ≠ i ∧ held j = some f := by
    intro j f hj
    by_cases hji : j = i
    · rw [hji, Function.update_self] at hj
      cases hj
    · exact ⟨hji, by rwa [Function.update_of_ne hji] at hj⟩
  refine ⟨fun x ↦ ?_, fun hj ↦ h.own_apart (hrest hj).2,
    fun hj hk ↦ h.apart (hrest hj).2 (hrest hk).2⟩
  rw [Mapped.unmap_iff, h.mapped_iff]
  constructor
  · rintro ⟨hown | ⟨j, f, hj, hf⟩, hout⟩
    · exact Or.inl hown
    · refine Or.inr ⟨j, f, ?_, hf⟩
      rwa [Function.update_of_ne]
      rintro rfl
      rw [hi, Option.some.injEq] at hj
      exact hout (hj ▸ hf)
  · rintro (hown | ⟨j, f, hj, hf⟩)
    · refine ⟨Or.inl hown, fun he ↦ ?_⟩
      rw [h.own_apart hi he] at hown
      cases hown
    · have hj := hrest hj
      exact ⟨Or.inr ⟨j, f, hj.2, hf⟩, fun he ↦ hj.1 (h.apart hj.2 hi hf he)⟩

end Booked

end Divers.Library
