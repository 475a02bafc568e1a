import Divers.Library.RcHeap
import Divers.Library.Transition

/-!
# small_rust_tree

The tree of `graph.rs`: a node holds its children by strong references and its parent by a weak one.
A node is named by the address of its box.  The drop of a strong reference can drop further ones;
they wait in `dropping`, and nothing else runs until it is empty.
-/

open Divers.Library

namespace Divers.SmallRustTree

variable {T : Type*}

structure ListNode (T : Type*) where
  parent : Option ℕ       -- a weak reference
  children : List ℕ       -- strong references
  value : T
  deriving DecidableEq

abbrev NodeHeap (T : Type*) := RcHeap (ListNode T)

structure TreeState (T : Type*) where
  heap : NodeHeap T
  refs : List ℕ           -- the `ListNodeRef`s of the program
  dropping : List ℕ       -- the strong references that are being dropped, the next one first

def TreeState.init : TreeState T := ⟨RcHeap.empty, [], []⟩

/-! ## Nodes -/

def nodeParent (h : NodeHeap T) (c : ℕ) : Option ℕ := (h c).value.bind ListNode.parent

def nodeChildren (h : NodeHeap T) (p : ℕ) : List ℕ :=
  ((h p).value.map ListNode.children).getD []

def Live (h : NodeHeap T) (c : ℕ) : Prop := 0 < (h c).strong

instance {h : NodeHeap T} {c : ℕ} : Decidable (Live h c) := inferInstanceAs (Decidable (0 < _))

/-! ## ListNodeRef -/

def listNode (value : T) : ListNode T := { parent := none, children := [], value := value }

/-- `get_parent`, with the reference it returns. -/
def getParent (h : NodeHeap T) (self : ℕ) : NodeHeap T × Option ℕ :=
  match nodeParent h self with
  | none => (h, none)
  | some l =>
      match h.upgrade l with
      | some h => (h, some l)
      | none => (h, none)

/-- A weak reference to `self` is made, and dropped is the one that it replaces. -/
def replaceWeak (h : NodeHeap T) (old : Option ℕ) (self : ℕ) : NodeHeap T :=
  match old with
  | some l => (h.downgrade self).dropWeak l
  | none => h.downgrade self

/-- `child.0.borrow_mut().parent = Some(Rc::downgrade(&self.0))`. -/
def setParent (h : NodeHeap T) (self child : ℕ) : NodeHeap T :=
  (replaceWeak h (nodeParent h child) self).modify child fun node ↦
    { node with parent := some self }

/-- `self.0.borrow_mut().children.push(Rc::clone(&child.0))`. -/
def pushChild (h : NodeHeap T) (self child : ℕ) : NodeHeap T :=
  (h.clone child).modify self fun node ↦ { node with children := node.children ++ [child] }

/-- `add_children`, with the reference that is dropped when the `match` ends. -/
def addChildren (h : NodeHeap T) (self child : ℕ) : NodeHeap T × Option ℕ :=
  match getParent h child with
  | (h, some parent) => (h, some parent)
  | (h, none) => (pushChild (setParent h self child) self child, none)

/-! ## Runs -/

inductive TreeOp (T : Type*) where
  | new (addr : ℕ) (value : T)
  | clone (self : ℕ)
  | drop (self : ℕ)
  | getParent (self : ℕ)
  | addChildren (self child : ℕ)
  | release

namespace TreeState

/-- The next strong reference is dropped.  The fields of a node go in order: the weak reference to
its parent, then its children. -/
def release (s : TreeState T) (n : ℕ) (rest : List ℕ) : TreeState T :=
  match s.heap.dropStrong n with
  | (h, none) => { s with heap := h, dropping := rest }
  | (h, some node) =>
      let h := match node.parent with
        | some l => h.dropWeak l
        | none => h
      { s with heap := h, dropping := node.children ++ rest }

/-- One call of the program, which needs a `ListNodeRef` to each node that it names, or the next
piece of a drop. -/
def step (s : TreeState T) : TreeOp T → Option (TreeState T)
  | .new addr value =>
      if s.dropping = [] ∧ s.heap.IsFree addr then
        some { s with heap := s.heap.new addr (listNode value), refs := addr :: s.refs }
      else none
  | .clone self =>
      if s.dropping = [] ∧ self ∈ s.refs then
        some { s with heap := s.heap.clone self, refs := self :: s.refs }
      else none
  | .drop self =>
      if s.dropping = [] ∧ self ∈ s.refs then
        some { s with refs := s.refs.erase self, dropping := [self] }
      else none
  | .getParent self =>
      if s.dropping = [] ∧ self ∈ s.refs then
        let (h, parent) := SmallRustTree.getParent s.heap self
        some { s with heap := h, refs := parent.toList ++ s.refs }
      else none
  | .addChildren self child =>
      if s.dropping = [] ∧ self ∈ s.refs ∧ child ∈ s.refs then
        let (h, temporary) := SmallRustTree.addChildren s.heap self child
        some { s with heap := h, dropping := temporary.toList }
      else none
  | .release =>
      match s.dropping with
      | [] => none
      | n :: rest => some (s.release n rest)

variable {s t : TreeState T}

/-- What a step of each kind says about its two states. -/
theorem step_cases {op : TreeOp T} (h : s.step op = some t) :
    match op with
    | .new addr value => (s.dropping = [] ∧ s.heap.IsFree addr) ∧
        t = { s with heap := s.heap.new addr (listNode value), refs := addr :: s.refs }
    | .clone self => (s.dropping = [] ∧ self ∈ s.refs) ∧
        t = { s with heap := s.heap.clone self, refs := self :: s.refs }
    | .drop self => (s.dropping = [] ∧ self ∈ s.refs) ∧
        t = { s with refs := s.refs.erase self, dropping := [self] }
    | .getParent self => (s.dropping = [] ∧ self ∈ s.refs) ∧
        t = { s with
          heap := (SmallRustTree.getParent s.heap self).1
          refs := (SmallRustTree.getParent s.heap self).2.toList ++ s.refs }
    | .addChildren self child => (s.dropping = [] ∧ self ∈ s.refs ∧ child ∈ s.refs) ∧
        t = { s with
          heap := (SmallRustTree.addChildren s.heap self child).1
          dropping := (SmallRustTree.addChildren s.heap self child).2.toList }
    | .release => ∃ n rest, s.dropping = n :: rest ∧ t = s.release n rest := by
  cases op with
  | release =>
      simp only [step] at h
      split at h
      next => cases h
      next n rest hdropping => exact ⟨n, rest, hdropping, (Option.some.inj h).symm⟩
  | _ =>
      simp only [step] at h
      split at h
      next hallowed => exact ⟨hallowed, (Option.some.inj h).symm⟩
      next => cases h

end TreeState

/-! ## get_parent -/

/-- The node that `get_parent` returns: the parent, if it is still there. -/
def parentOf (h : NodeHeap T) (c : ℕ) : Option ℕ := (nodeParent h c).filter fun l ↦ Live h l

theorem parentOf_eq_some {h : NodeHeap T} {c p : ℕ} :
    parentOf h c = some p ↔ nodeParent h c = some p ∧ Live h p := by
  unfold parentOf
  rw [Option.filter_eq_some_iff, decide_eq_true_eq]

theorem getParent_eq (h : NodeHeap T) (self : ℕ) :
    getParent h self =
      match parentOf h self with
      | some l => (h.clone l, some l)
      | none => (h, none) := by
  unfold getParent parentOf
  cases nodeParent h self with
  | none => rfl
  | some l =>
      unfold RcHeap.upgrade
      by_cases hl : (h l).strong = 0
      · have hdead : decide (Live h l) = false := decide_eq_false (by unfold Live; omega)
        simp [hl, Option.filter, hdead]
      · have hlive : decide (Live h l) = true := decide_eq_true (by unfold Live; omega)
        simp [hl, Option.filter, hlive]

end Divers.SmallRustTree
