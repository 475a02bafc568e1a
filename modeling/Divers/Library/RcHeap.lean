import Mathlib.Logic.Function.Basic
import Mathlib.Data.Nat.Init

/-!
# Reference-counted boxes

A heap of boxes with a strong and a weak count.  The value of a box is there while the strong count
is positive, and the memory of a box may be used again once both counts are 0.
-/

namespace Divers.Library

structure RcBox (α : Type*) where
  strong : ℕ
  weak : ℕ
  value : Option α
  deriving DecidableEq

abbrev RcHeap (α : Type*) := ℕ → RcBox α

namespace RcHeap

variable {α : Type*}

def empty : RcHeap α := fun _ ↦ ⟨0, 0, none⟩

variable (h : RcHeap α) (a b : ℕ)

def IsFree : Prop := (h a).strong = 0 ∧ (h a).weak = 0

instance : Decidable (h.IsFree a) := inferInstanceAs (Decidable (_ ∧ _))

/-- `Rc::new` at the free address `a`. -/
def new (v : α) : RcHeap α := fun b ↦ if b = a then ⟨1, 0, some v⟩ else h b

/-- `Rc::clone`. -/
def clone : RcHeap α :=
  fun b ↦ { h b with strong := if b = a then (h b).strong + 1 else (h b).strong }

/-- `Rc::downgrade`. -/
def downgrade : RcHeap α :=
  fun b ↦ { h b with weak := if b = a then (h b).weak + 1 else (h b).weak }

/-- `Weak::upgrade`. -/
def upgrade : Option (RcHeap α) := if (h a).strong = 0 then none else some (h.clone a)

/-- A write through `borrow_mut`. -/
def modify (f : α → α) : RcHeap α :=
  fun b ↦ { h b with value := if b = a then (h b).value.map f else (h b).value }

def dropWeak : RcHeap α :=
  fun b ↦ { h b with weak := if b = a then (h b).weak - 1 else (h b).weak }

/-- The drop of one strong reference, without the drop of the value. -/
def decStrong : RcHeap α :=
  fun b ↦ { h b with strong := if b = a then (h b).strong - 1 else (h b).strong }

/-- The value is moved out of its box. -/
def takeValue : RcHeap α := fun b ↦ { h b with value := if b = a then none else (h b).value }

/-- The drop of a strong reference.  The last one takes the value out, for its own drop. -/
def dropStrong : RcHeap α × Option α :=
  if (h a).strong = 1 then ((h.decStrong a).takeValue a, (h a).value) else (h.decStrong a, none)

/-! ## Fields -/

section Fields

variable {h a b}

@[simp] theorem new_strong (v : α) : (h.new a v b).strong = if b = a then 1 else (h b).strong := by
  unfold new
  split <;> rfl

@[simp] theorem new_weak (v : α) : (h.new a v b).weak = if b = a then 0 else (h b).weak := by
  unfold new
  split <;> rfl

@[simp] theorem new_value (v : α) :
    (h.new a v b).value = if b = a then some v else (h b).value := by
  unfold new
  split <;> rfl

@[simp] theorem clone_strong :
    (h.clone a b).strong = if b = a then (h b).strong + 1 else (h b).strong := rfl

@[simp] theorem clone_weak : (h.clone a b).weak = (h b).weak := rfl

@[simp] theorem clone_value : (h.clone a b).value = (h b).value := rfl

@[simp] theorem downgrade_strong : (h.downgrade a b).strong = (h b).strong := rfl

@[simp] theorem downgrade_weak :
    (h.downgrade a b).weak = if b = a then (h b).weak + 1 else (h b).weak := rfl

@[simp] theorem downgrade_value : (h.downgrade a b).value = (h b).value := rfl

@[simp] theorem modify_strong (f : α → α) : (h.modify a f b).strong = (h b).strong := rfl

@[simp] theorem modify_weak (f : α → α) : (h.modify a f b).weak = (h b).weak := rfl

@[simp] theorem modify_value (f : α → α) :
    (h.modify a f b).value = if b = a then (h b).value.map f else (h b).value := rfl

@[simp] theorem dropWeak_strong : (h.dropWeak a b).strong = (h b).strong := rfl

@[simp] theorem dropWeak_weak :
    (h.dropWeak a b).weak = if b = a then (h b).weak - 1 else (h b).weak := rfl

@[simp] theorem dropWeak_value : (h.dropWeak a b).value = (h b).value := rfl

@[simp] theorem decStrong_strong :
    (h.decStrong a b).strong = if b = a then (h b).strong - 1 else (h b).strong := rfl

@[simp] theorem decStrong_weak : (h.decStrong a b).weak = (h b).weak := rfl

@[simp] theorem decStrong_value : (h.decStrong a b).value = (h b).value := rfl

@[simp] theorem takeValue_strong : (h.takeValue a b).strong = (h b).strong := rfl

@[simp] theorem takeValue_weak : (h.takeValue a b).weak = (h b).weak := rfl

@[simp] theorem takeValue_value :
    (h.takeValue a b).value = if b = a then none else (h b).value := rfl

end Fields

/-- A clone that is dropped again leaves no trace. -/
theorem clone_dropStrong (ha : 0 < (h a).strong) : (h.clone a).dropStrong a = (h, none) := by
  have hne : (h.clone a a).strong ≠ 1 := by
    rw [clone_strong, if_pos rfl]
    omega
  unfold dropStrong
  rw [if_neg hne]
  have hsame : (h.clone a).decStrong a = h := by
    funext b
    unfold decStrong clone
    dsimp only
    by_cases hb : b = a
    · rw [if_pos hb, if_pos hb]
      rfl
    · rw [if_neg hb, if_neg hb]
  rw [hsame]

end RcHeap

end Divers.Library
