import Mathlib.Logic.Function.Basic
import Mathlib.Data.List.Nodup
import Mathlib.Data.List.TakeWhile

/-!
# Paths through linked cells

A cell `i` is named by the pointer `ptr i` and holds the pointer `next i`.  `Path ptr next p l q`
says that following `next` from the pointer `p` visits exactly the cells of `l`, in order, and
arrives at the pointer `q`.  A null-terminated list is the case where `q` names no cell; a free
list threaded through an index array is the case where `q` is one past the last index.
-/

namespace Divers.Library

variable {ι π : Type*} {ptr next next' : ι → π} {p q r : π} {i j : ι} {l l₁ l₂ : List ι}

def Path (ptr next : ι → π) : π → List ι → π → Prop
  | p, [], q => p = q
  | p, i :: l, q => p = ptr i ∧ Path ptr next (next i) l q

@[simp] theorem path_nil : Path ptr next p [] q ↔ p = q := Iff.rfl

@[simp] theorem path_cons :
    Path ptr next p (i :: l) q ↔ p = ptr i ∧ Path ptr next (next i) l q := Iff.rfl

instance Path.decidable [DecidableEq π] : (p : π) → (l : List ι) → Decidable (Path ptr next p l q)
  | p, [] => inferInstanceAs (Decidable (p = q))
  | p, i :: l =>
      have := Path.decidable (next i) l
      inferInstanceAs (Decidable (p = ptr i ∧ Path ptr next (next i) l q))

theorem path_append :
    Path ptr next p (l₁ ++ l₂) q ↔ ∃ r, Path ptr next p l₁ r ∧ Path ptr next r l₂ q := by
  induction l₁ generalizing p with
  | nil => simp
  | cons i l₁ ih => simp [ih, and_assoc]

/-- A path only reads the cells it visits. -/
theorem Path.congr (h : Path ptr next p l q) (hsame : ∀ i ∈ l, next' i = next i) :
    Path ptr next' p l q := by
  induction l generalizing p with
  | nil => exact h
  | cons i l ih =>
      refine ⟨h.1, ?_⟩
      rw [hsame i List.mem_cons_self]
      exact ih h.2 fun j hj ↦ hsame j (List.mem_cons_of_mem i hj)

/-- Two paths from one pointer to one stop that neither of them passes are the same path. -/
theorem Path.unique (hinj : Function.Injective ptr) (h₁ : Path ptr next p l₁ q)
    (h₂ : Path ptr next p l₂ q) (hstop₁ : ∀ i ∈ l₁, ptr i ≠ q) (hstop₂ : ∀ i ∈ l₂, ptr i ≠ q) :
    l₁ = l₂ := by
  induction l₁ generalizing p l₂ with
  | nil =>
      cases l₂ with
      | nil => rfl
      | cons j l₂ => exact absurd (h₂.1.symm.trans h₁) (hstop₂ j List.mem_cons_self)
  | cons i l₁ ih =>
      cases l₂ with
      | nil => exact absurd (h₁.1.symm.trans h₂) (hstop₁ i List.mem_cons_self)
      | cons j l₂ =>
          obtain rfl := hinj (h₁.1.symm.trans h₂.1)
          rw [ih h₁.2 h₂.2 (fun k hk ↦ hstop₁ k (List.mem_cons_of_mem i hk))
            fun k hk ↦ hstop₂ k (List.mem_cons_of_mem i hk)]

/-- A path that ends in a pointer that names no cell visits no cell twice: it would go on in the
same way from both visits. -/
theorem Path.nodup (hinj : Function.Injective ptr) (h : Path ptr next p l q)
    (hstop : ∀ i, ptr i ≠ q) : l.Nodup := by
  induction l generalizing p with
  | nil => exact List.nodup_nil
  | cons i l ih =>
      refine List.nodup_cons.mpr ⟨fun hi ↦ ?_, ih h.2⟩
      obtain ⟨pre, post, rfl⟩ := List.append_of_mem hi
      obtain ⟨r, -, hr⟩ := path_append.mp h.2
      have hagain : Path ptr next p (i :: post) q := by
        refine ⟨h.1, hr.2⟩
      have heq := Path.unique hinj h hagain (fun j _ ↦ hstop j) fun j _ ↦ hstop j
      have hlength := congrArg List.length heq
      simp only [List.length_cons, List.length_append] at hlength
      omega

/-! ### Link surgery -/

/-- Pointing `k` at a new cell `j` that points where `k` did puts `j` right behind `k`. -/
theorem Path.splice_after {k : ι} (h : Path ptr next p (l₁ ++ k :: l₂) q)
    (hk : next' k = ptr j) (hj : next' j = next k)
    (hsame : ∀ i ∈ l₁ ++ l₂, next' i = next i) :
    Path ptr next' p (l₁ ++ k :: j :: l₂) q := by
  rw [path_append] at h ⊢
  rcases h with ⟨r, hbefore, hrk, hafter⟩
  refine ⟨r, hbefore.congr fun i hi ↦ hsame i (List.mem_append_left l₂ hi), hrk, hk, ?_⟩
  rw [hj]
  exact hafter.congr fun i hi ↦ hsame i (List.mem_append_right l₁ hi)

/-- Pointing `k` where its successor `j` points takes `j` out. -/
theorem Path.bypass {k : ι} (h : Path ptr next p (l₁ ++ k :: j :: l₂) q)
    (hk : next' k = next j) (hsame : ∀ i ∈ l₁ ++ l₂, next' i = next i) :
    Path ptr next' p (l₁ ++ k :: l₂) q := by
  rw [path_append] at h ⊢
  rcases h with ⟨r, hbefore, hrk, -, hafter⟩
  refine ⟨r, hbefore.congr fun i hi ↦ hsame i (List.mem_append_left l₂ hi), hrk, ?_⟩
  rw [hk]
  exact hafter.congr fun i hi ↦ hsame i (List.mem_append_right l₁ hi)

/-! ### Walks -/

/-- Go on from `walk` while the condition holds, `pwalk` following one cell behind: both pointers
where the walk stops.  The bound is on the number of cells, and `none` means it was too small. -/
def walkWhile (next : ι → Option ι) (condition : ι → Bool) :
    ℕ → Option ι → Option ι → Option (Option ι × Option ι)
  | 0, _, _ => none
  | _ + 1, none, pwalk => some (none, pwalk)
  | bound + 1, some walk, pwalk =>
      if condition walk then walkWhile next condition bound (next walk) (some walk)
      else some (some walk, pwalk)

/-- The walk stops at the first cell that fails the condition, its predecessor in `pwalk`. -/
theorem walkWhile_eq {next : ι → Option ι} (condition : ι → Bool) (bound : ℕ)
    {walk pwalk : Option ι} (hl : Path some next walk l none) :
    walkWhile next condition bound walk pwalk =
      if (l.takeWhile condition).length < bound then
        some ((l.dropWhile condition).head?, (l.takeWhile condition).getLast?.or pwalk)
      else none := by
  induction l generalizing bound walk pwalk with
  | nil =>
      rw [path_nil] at hl
      subst hl
      cases bound with
      | zero => rfl
      | succ bound => simp [walkWhile]
  | cons w l ih =>
      rw [path_cons] at hl
      rcases hl with ⟨rfl, hrest⟩
      cases bound with
      | zero => rfl
      | succ bound =>
          unfold walkWhile
          by_cases hw : condition w = true
          · rw [if_pos hw, ih bound hrest, List.takeWhile_cons_of_pos hw,
              List.dropWhile_cons_of_pos hw, List.length_cons, List.getLast?_cons]
            simp only [Nat.succ_lt_succ_iff]
            cases (List.takeWhile condition l).getLast? <;> rfl
          · rw [if_neg hw, List.takeWhile_cons_of_neg hw, List.dropWhile_cons_of_neg hw]
            simp

theorem length_takeWhile_lt {condition : ι → Bool} {bound : ℕ} (hl : l.length < bound) :
    (l.takeWhile condition).length < bound :=
  (List.takeWhile_sublist condition).length_le.trans_lt hl

-- The walk up to `i` passes what stands in front of it.
section WalkTo

variable [DecidableEq ι]

theorem takeWhile_ne (hi : i ∉ l₁) :
    ((l₁ ++ i :: l₂).takeWhile fun walk ↦ decide (walk ≠ i)) = l₁ := by
  have hne : ∀ k ∈ l₁, decide (k ≠ i) = true := fun k hk ↦
    decide_eq_true fun hki ↦ hi (hki ▸ hk)
  rw [List.takeWhile_append_of_pos hne, List.takeWhile_cons_of_neg (by simp), List.append_nil]

theorem dropWhile_ne (hi : i ∉ l₁) :
    ((l₁ ++ i :: l₂).dropWhile fun walk ↦ decide (walk ≠ i)) = i :: l₂ := by
  have hne : ∀ k ∈ l₁, decide (k ≠ i) = true := fun k hk ↦
    decide_eq_true fun hki ↦ hi (hki ▸ hk)
  rw [List.dropWhile_append_of_pos hne, List.dropWhile_cons_of_neg (by simp)]

theorem dropWhile_ne_absent (hi : i ∉ l) : (l.dropWhile fun walk ↦ decide (walk ≠ i)) = [] := by
  rw [List.dropWhile_eq_nil_iff]
  intro k hk
  apply decide_eq_true
  intro heq
  subst heq
  exact hi hk

theorem takeWhile_ne_absent (hi : i ∉ l) : (l.takeWhile fun walk ↦ decide (walk ≠ i)) = l := by
  rw [List.takeWhile_eq_self_iff]
  intro k hk
  apply decide_eq_true
  intro heq
  subst heq
  exact hi hk

end WalkTo

end Divers.Library
