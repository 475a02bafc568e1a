import Divers.Library.LinkedPath
import Divers.Library.Transition
import Mathlib.Logic.Relation

/-!
# n_tree

The intrusive n-ary tree of `n_tree.h`.  Nodes are the elements of a type `ι`, the heap gives each
node its three pointers, and a null pointer is `none`.  The macros loop over the `next` pointers,
which a bound on the number of iterations makes structural; `none` means the bound was too small.
-/

open Divers.Library

namespace Divers.Tad

/-! ## The heap -/

structure NtreeNode (ι : Type*) where
  next : Option ι
  parent : Option ι
  child : Option ι
  deriving DecidableEq, Repr

abbrev NtreeHeap (ι : Type*) := ι → NtreeNode ι

/-- `NTREE_ELT_INIT`. -/
def ntreeEltInit {ι : Type*} : NtreeNode ι := ⟨none, none, none⟩

variable {ι : Type*} [DecidableEq ι]

def setNext (h : NtreeHeap ι) (i : ι) (v : Option ι) : NtreeHeap ι :=
  fun j ↦ { h j with next := if j = i then v else (h j).next }

def setParent (h : NtreeHeap ι) (i : ι) (v : Option ι) : NtreeHeap ι :=
  fun j ↦ { h j with parent := if j = i then v else (h j).parent }

def setChild (h : NtreeHeap ι) (i : ι) (v : Option ι) : NtreeHeap ι :=
  fun j ↦ { h j with child := if j = i then v else (h j).child }

section Fields

variable (h : NtreeHeap ι) (i j : ι) (v : Option ι)

@[simp] theorem setNext_next : (setNext h i v j).next = if j = i then v else (h j).next := rfl

@[simp] theorem setNext_parent : (setNext h i v j).parent = (h j).parent := rfl

@[simp] theorem setNext_child : (setNext h i v j).child = (h j).child := rfl

@[simp] theorem setParent_next : (setParent h i v j).next = (h j).next := rfl

@[simp] theorem setParent_parent :
    (setParent h i v j).parent = if j = i then v else (h j).parent := rfl

@[simp] theorem setParent_child : (setParent h i v j).child = (h j).child := rfl

@[simp] theorem setChild_next : (setChild h i v j).next = (h j).next := rfl

@[simp] theorem setChild_parent : (setChild h i v j).parent = (h j).parent := rfl

@[simp] theorem setChild_child :
    (setChild h i v j).child = if j = i then v else (h j).child := rfl

end Fields

/-! ## The macros -/

/-- `ntree_foreach_child_cond` with the body `pwalk = walk`: both pointers after the loop. -/
def foreachChildCond (h : NtreeHeap ι) (condition : ι → Bool) :
    ℕ → Option ι → Option ι → Option (Option ι × Option ι)
  | 0, _, _ => none
  | _ + 1, none, pwalk => some (none, pwalk)
  | bound + 1, some walk, pwalk =>
      if condition walk then foreachChildCond h condition bound (h walk).next (some walk)
      else some (some walk, pwalk)

def ntreePrependChild (h : NtreeHeap ι) (elt child : ι) : NtreeHeap ι :=
  let tmp := (h elt).child
  let h := setParent h child (some elt)
  let h := setChild h elt (some child)
  setNext h child tmp

/-- The condition is pasted into the loop: it holds of the children that are walked past. -/
def ntreeRemoveChildIf (bound : ℕ) (h : NtreeHeap ι) (father : ι) (condition : ι → Bool) :
    Option (NtreeHeap ι) :=
  (foreachChildCond h condition bound (h father).child none).map fun (walk, pwalk) ↦
    match walk with
    | none => h
    | some walk =>
        match pwalk with
        | some pwalk => setNext h pwalk (h walk).next
        | none => setChild h father (h walk).next

def ntreeRemoveChild (bound : ℕ) (h : NtreeHeap ι) (father child : ι) : Option (NtreeHeap ι) :=
  (foreachChildCond h (fun walk ↦ walk ≠ child) bound (h father).child none).map
    fun (walk, pwalk) ↦
      match walk with
      | none => h
      | some walk =>
          match pwalk with
          | some pwalk => setNext h pwalk (h walk).next
          | none => setChild h father (h walk).next

def ntreeInsertChild (bound : ℕ) (h : NtreeHeap ι) (father child : ι)
    (comparator : ι → ι → ℤ) : Option (NtreeHeap ι) :=
  let h := setParent h child (some father)
  match (h father).child with
  | none => some (setChild h father (some child))    -- `child->next` is left as it was
  | some first =>
      (foreachChildCond h (fun walk ↦ comparator walk child ≤ 0) bound (some first) none).map
        fun (_, pwalk) ↦
          match pwalk with
          | none =>
              let h := setNext h child (h father).child
              setChild h father (some child)
          | some pwalk =>
              let h := setNext h child (h pwalk).next
              setNext h pwalk (some child)

def ntreeEltIsRoot (h : NtreeHeap ι) (elt : ι) : Bool := (h elt).parent = none

/-- The loop of `ntree_foreach_ancestor`: the nodes that its body sees. -/
def foreachAncestor (h : NtreeHeap ι) : ℕ → Option ι → Option (List ι)
  | 0, _ => none
  | _ + 1, none => some []
  | bound + 1, some walker =>
      (foreachAncestor h bound (h walker).parent).map fun visited ↦ walker :: visited

def ntreeForeachAncestor (bound : ℕ) (h : NtreeHeap ι) (starter : ι) : Option (List ι) :=
  foreachAncestor h bound (h starter).parent

/-! ## Runs -/

inductive NtreeOp (ι : Type*) where
  | prepend (father child : ι)
  | insert (father child : ι) (comparator : ι → ι → ℤ)
  | remove (father child : ι)

def NtreeOp.father : NtreeOp ι → ι
  | .prepend father _ => father
  | .insert father _ _ => father
  | .remove father _ => father

/-- One macro call, its loop allowed the given number of iterations. -/
def ntreeStep (h : NtreeHeap ι) : ℕ × NtreeOp ι → Option (NtreeHeap ι)
  | (_, .prepend father child) => some (ntreePrependChild h father child)
  | (bound, .insert father child comparator) => ntreeInsertChild bound h father child comparator
  | (bound, .remove father child) => ntreeRemoveChild bound h father child

/-- `l` is the child list of `f`: `child`, then `next` until the null pointer. -/
def ChildList (h : NtreeHeap ι) (f : ι) (l : List ι) : Prop :=
  Path some (fun i ↦ (h i).next) (h f).child l none

/-- `c` is in the child list of `f`. -/
def IsChild (h : NtreeHeap ι) (f c : ι) : Prop := ∃ l, ChildList h f l ∧ c ∈ l

/-- `c` may be attached to `f`: it is in no child list and `f` is neither `c` nor below it. -/
def Attachable (h : NtreeHeap ι) (f c : ι) : Prop :=
  (∀ g, ¬ IsChild h g c) ∧ ¬ Relation.ReflTransGen (IsChild h) c f

/-- The calls a client may make. -/
def Permitted (h : NtreeHeap ι) : ℕ × NtreeOp ι → Prop
  | (_, .prepend father child) => Attachable h father child
  | (_, .insert father child _) => Attachable h father child
  | (_, .remove _ _) => True

/-- No insertion into a childless father of a node that still has a `next` pointer. -/
def NoStaleInsert (h : NtreeHeap ι) : ℕ × NtreeOp ι → Prop
  | (_, .insert father child _) => (h father).child = none → (h child).next = none
  | _ => True

end Divers.Tad
