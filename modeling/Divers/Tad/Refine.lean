import Divers.Tad.ChildList
import Divers.Tad.NTreeAncestor

/-!
# n_tree refines lists

Every father has a list of children, and the macros are `::`, the insertion behind the children
that do not compare greater, and removal.  What the pointers of a node say once it is in no list is
part of the picture: `parent` names the father it was last linked under, and `next` the child that
stood behind it when it was taken out.
-/

open Divers.Library

namespace Divers.Tad

variable {ι : Type*}

/-! ## All the macros -/

inductive TreeOp (ι : Type*) where
  | call (op : NtreeOp ι)
  | removeIf (father : ι) (condition : ι → Bool)

def TreeOp.father : TreeOp ι → ι
  | .call op => op.father
  | .removeIf father _ => father

/-- The nodes that the body of `ntree_foreach_child_cond` sees. -/
def foreachChild (h : NtreeHeap ι) (condition : ι → Bool) : ℕ → Option ι → Option (List ι)
  | 0, _ => none
  | _ + 1, none => some []
  | bound + 1, some walker =>
      if condition walker then
        (foreachChild h condition bound (h walker).next).map fun visited ↦ walker :: visited
      else some []

def ntreeForeachChildCond (bound : ℕ) (h : NtreeHeap ι) (starter : ι) (condition : ι → Bool) :
    Option (List ι) :=
  foreachChild h condition bound (h starter).child

def treeStep [DecidableEq ι] (h : NtreeHeap ι) : ℕ × TreeOp ι → Option (NtreeHeap ι)
  | (bound, .call op) => ntreeStep h (bound, op)
  | (bound, .removeIf father condition) => ntreeRemoveChildIf bound h father condition

/-! ## The lists -/

structure Siblings (ι : Type*) where
  children : ι → List ι
  father : ι → Option ι
  behind : ι → Option ι

namespace Siblings

def empty : Siblings ι := ⟨fun _ ↦ [], fun _ ↦ none, fun _ ↦ none⟩

variable [DecidableEq ι]

/-- `c` is a new child of `f`, whose children become `l`. -/
def link (S : Siblings ι) (f c : ι) (l : List ι) : Siblings ι where
  children := Function.update S.children f l
  father := Function.update S.father c (some f)
  behind := S.behind

@[simp] theorem link_children (S : Siblings ι) (f c : ι) (l : List ι) :
    (S.link f c l).children = Function.update S.children f l := rfl

def unlink (S : Siblings ι) (f c : ι) : Siblings ι where
  children := Function.update S.children f ((S.children f).erase c)
  father := S.father
  behind := Function.update S.behind c ((S.children f).dropWhile (fun i ↦ i ≠ c)).tail.head?

def apply (S : Siblings ι) : TreeOp ι → Siblings ι
  | .call (.prepend f c) => S.link f c (c :: S.children f)
  | .call (.insert f c comparator) =>
      S.link f c (insertBehind (InOrder comparator) c (S.children f))
  | .call (.remove f c) => if c ∈ S.children f then S.unlink f c else S
  | .removeIf f condition =>
      match (S.children f).find? fun i ↦ !condition i with
      | some c => S.unlink f c
      | none => S

/-- The calls for which the pointers do what the lists do. -/
def Permits (S : Siblings ι) : TreeOp ι → Prop
  | .call (.prepend _ c) => ∀ g, c ∉ S.children g
  | .call (.insert f c _) =>
      (∀ g, c ∉ S.children g) ∧ (S.children f = [] → S.behind c = none)
  | _ => True

end Siblings

/-! ## The abstraction -/

/-- The lists say what every pointer of the heap is. -/
structure Depicts (h : NtreeHeap ι) (S : Siblings ι) : Prop where
  represents : ∃ F : Forest ι, F.list = S.children ∧ Represents h F
  parent : ∀ c, (h c).parent = S.father c
  next : ∀ c, (∀ f, c ∉ S.children f) → (h c).next = S.behind c

/-! ## Two loops -/

section Loops

variable {h h' : NtreeHeap ι} {f c : ι} {l : List ι} {bound : ℕ}

theorem foreachChild_eq (condition : ι → Bool) {walker : Option ι}
    (hl : Path some (fun i ↦ (h i).next) walker l none) :
    foreachChild h condition bound walker =
      if (l.takeWhile condition).length < bound then some (l.takeWhile condition) else none := by
  induction bound generalizing walker l with
  | zero => rfl
  | succ bound ih =>
      cases l with
      | nil =>
          rw [path_nil] at hl
          rw [hl]
          exact (if_pos (Nat.succ_pos bound)).symm
      | cons i l =>
          obtain ⟨rfl, hrest⟩ := hl
          rw [foreachChild, List.takeWhile_cons]
          by_cases hi : condition i = true
          · rw [if_pos hi, if_pos hi, ih hrest, List.length_cons]
            by_cases hlt : (l.takeWhile condition).length < bound
            · rw [if_pos hlt, if_pos (Nat.succ_lt_succ hlt)]
              rfl
            · rw [if_neg hlt, if_neg fun hle ↦ hlt (Nat.lt_of_succ_lt_succ hle)]
              rfl
          · rw [if_neg hi, if_neg hi]
            exact (if_pos (Nat.succ_pos bound)).symm

theorem foreachAncestor_eq_some_iff {walker : Option ι} :
    foreachAncestor h bound walker = some l ↔
      Path some (up h) walker l none ∧ l.length < bound := by
  induction bound generalizing walker l with
  | zero =>
      refine iff_of_false (fun hsome ↦ ?_) fun hlt ↦ Nat.not_lt_zero _ hlt.2
      cases hsome
  | succ bound ih =>
      cases walker with
      | none =>
          cases l with
          | nil => exact iff_of_true rfl ⟨rfl, Nat.succ_pos bound⟩
          | cons i l =>
              have hnone : foreachAncestor h (bound + 1) none = some [] := rfl
              refine iff_of_false (fun hsome ↦ ?_) fun hpath ↦ ?_
              · rw [hnone] at hsome
                cases hsome
              · have heq : none = some i := hpath.1.1
                cases heq
      | some i =>
          rw [foreachAncestor, Option.map_eq_some_iff]
          constructor
          · intro hvisited
            obtain ⟨visited, hrec, rfl⟩ := hvisited
            obtain ⟨hpath, hlt⟩ := ih.mp hrec
            exact ⟨⟨rfl, hpath⟩, Nat.succ_lt_succ hlt⟩
          · intro hvisited
            obtain ⟨hpath, hlt⟩ := hvisited
            cases l with
            | nil => cases hpath
            | cons j l =>
                obtain ⟨heq, hrest⟩ := hpath
                cases heq
                exact ⟨l, ih.mpr ⟨hrest, Nat.lt_of_succ_lt_succ hlt⟩, rfl⟩

end Loops

/-! ## Pointers after the macros -/

section Macros

variable {h h' : NtreeHeap ι} {f c : ι} {l : List ι} {bound : ℕ}

/-- The `next` pointer of a child. -/
theorem ChildList.next_eq {pre post : List ι} (hl : ChildList h f (pre ++ c :: post)) :
    (h c).next = post.head? := by
  obtain ⟨p, -, -, hrest⟩ := path_append.mp hl
  cases post with
  | nil => exact hrest
  | cons d post => exact hrest.1

theorem childList_nil_iff (hl : ChildList h f l) : (h f).child = none ↔ l = [] := by
  unfold ChildList at hl
  cases l with
  | nil => exact iff_of_true hl rfl
  | cons d l =>
      rw [hl.1]
      exact iff_of_false (Option.some_ne_none d) (List.cons_ne_nil d l)

variable [DecidableEq ι]

/-- `ntree_remove_child_if` is the removal of the first child of which the condition is false. -/
theorem ntreeRemoveChildIf_found (hl : ChildList h f l) {condition : ι → Bool}
    (hfind : (l.find? fun i ↦ !condition i) = some c) (bound : ℕ) :
    ntreeRemoveChildIf bound h f condition = ntreeRemoveChild bound h f c := by
  obtain ⟨hfail, pre, post, rfl, hpass⟩ := List.find?_eq_some_iff_append.mp hfind
  have hstop : ¬ condition c = true := by simpa using hfail
  have hpre : ∀ i ∈ pre, condition i = true := by
    intro i hi
    simpa using hpass i hi
  have hc : c ∉ pre := fun hmem ↦ hstop (hpre c hmem)
  unfold ntreeRemoveChildIf ntreeRemoveChild
  rw [foreachChildCond_eq _ bound hl, foreachChildCond_eq _ bound hl, takeWhile_ne hc,
    dropWhile_ne hc, List.takeWhile_append_of_pos hpre, List.takeWhile_cons_of_neg hstop,
    List.append_nil, List.dropWhile_append_of_pos hpre, List.dropWhile_cons_of_neg hstop]

theorem ntreeRemoveChildIf_absent (hl : ChildList h f l) {condition : ι → Bool}
    (hfind : (l.find? fun i ↦ !condition i) = none)
    (hstep : ntreeRemoveChildIf bound h f condition = some h') : h' = h := by
  have hall : ∀ i ∈ l, condition i = true := by
    intro i hi
    simpa using List.find?_eq_none.mp hfind i hi
  unfold ntreeRemoveChildIf at hstep
  rw [foreachChildCond_eq _ bound hl, List.dropWhile_eq_nil_iff.mpr hall] at hstep
  split at hstep
  next => exact (Option.some.inj hstep).symm
  next => cases hstep

/-- Removal writes to the child in front of the node, if to any. -/
theorem ntreeRemoveChild_next (hl : ChildList h f l) (hc : c ∈ l)
    (hstep : ntreeRemoveChild bound h f c = some h') {i : ι} (hi : i = c ∨ i ∉ l) :
    (h' i).next = (h i).next := by
  obtain ⟨pre, post, rfl, hpre⟩ := List.eq_append_cons_of_mem hc
  unfold ntreeRemoveChild at hstep
  rw [foreachChildCond_eq _ bound hl, takeWhile_ne hpre, dropWhile_ne hpre, Option.or_none] at hstep
  split at hstep
  next =>
    cases hstep
    cases hlast : pre.getLast? with
    | none => rfl
    | some k =>
        have hk : k ∈ pre := List.mem_of_getLast? hlast
        have hik : i ≠ k := by
          intro heq
          subst heq
          obtain rfl | hi := hi
          · exact hpre hk
          · exact hi (List.mem_append_left _ hk)
        exact if_neg hik
  next => cases hstep

/-- An insertion into a list that is not empty does not depend on the `next` pointer of the node. -/
theorem ntreeInsertChild_list {comparator : ι → ι → ℤ} (hl : ChildList h f l) (hc : c ∉ l)
    (hnext : l = [] → (h c).next = none)
    (hstep : ntreeInsertChild bound h f c comparator = some h') :
    ChildList h' f (insertBehind (InOrder comparator) c l) := by
  by_cases hbound : (l.takeWhile fun walk ↦ comparator walk c ≤ 0).length < bound
  · obtain ⟨h₁, hrun, hlink⟩ := childSlist_insert_of hl hnext comparator hbound
    rw [hrun, Option.some.injEq] at hstep
    subst hstep
    have hsplit := List.takeWhile_append_dropWhile
      (p := fun walk ↦ decide (comparator walk c ≤ 0)) (l := l)
    rw [childList_iff, hlink]
    rw [childList_iff, ← hsplit] at hl
    rw [← hsplit] at hc
    exact hl.linkAfter (ChildList.nodup hl) hc
  · -- the loop is not run in an empty list only
    cases l with
    | nil =>
        unfold ntreeInsertChild at hstep
        have hempty : (h f).child = none := hl
        simp only [setParent_child, hempty] at hstep
        cases hstep
        refine ⟨?_, ?_⟩
        · rw [setChild_child, if_pos rfl]
        · exact hnext rfl
    | cons first l =>
        have hwalk : Path some (fun i ↦ (setParent h c (some f) i).next) (some first) (first :: l)
            none := ⟨rfl, hl.2⟩
        unfold ntreeInsertChild at hstep
        simp only [setParent_child, hl.1] at hstep
        rw [foreachChildCond_eq _ bound hwalk, if_neg hbound] at hstep
        cases hstep

end Macros

/-! ## One call -/

namespace Depicts

variable {h h' : NtreeHeap ι} {S : Siblings ι} {F : Forest ι} {f c : ι} {bound : ℕ}

theorem init : Depicts (fun _ ↦ ntreeEltInit) (Siblings.empty : Siblings ι) :=
  ⟨⟨Forest.empty, rfl, Represents.init⟩, fun _ ↦ rfl, fun _ _ ↦ rfl⟩

theorem lists (hd : Depicts h S) (f : ι) : ChildList h f (S.children f) := by
  obtain ⟨F, hlist, hF⟩ := hd.represents
  rw [← hlist]
  exact hF.lists f

variable [DecidableEq ι]

theorem link (hd : Depicts h S) (hlist : F.list = S.children) {pre post : List ι}
    {hsplit : F.list f = pre ++ post} {hc : ∀ g, c ∉ F.list g}
    (hF' : Represents h' (F.attach f c pre post hsplit hc)) (hlinks : LinksUnder h h' F f c) :
    Depicts h' (S.link f c (pre ++ c :: post)) where
  represents := by
    refine ⟨_, ?_, hF'⟩
    show Function.update F.list f (pre ++ c :: post) = Function.update S.children f _
    rw [hlist]
  parent d := by
    rw [hlinks.parent, hd.parent]
    exact (Function.update_apply S.father c (some f) d).symm
  next d hout := by
    have hmem : ∀ {g}, d = c ∧ g = f ∨ d ∈ F.list g →
        d ∈ Function.update S.children f (pre ++ c :: post) g := by
      intro g hg
      have hg' : d ∈ (F.attach f c pre post hsplit hc).list g := Forest.mem_attach.mpr hg
      rw [← hlist]
      exact hg'
    have hdc : d ≠ c := fun heq ↦ hout f (hmem (.inl ⟨heq, rfl⟩))
    have hfree : ∀ g, d ∉ F.list g := fun g hg ↦ hout g (hmem (.inr hg))
    rw [hlinks.next d hdc (hfree f)]
    exact hd.next d fun g ↦ hlist ▸ hfree g

theorem unlink (hd : Depicts h S) (hc : c ∈ S.children f)
    (hstep : ntreeRemoveChild bound h f c = some h') : Depicts h' (S.unlink f c) := by
  obtain ⟨F, hlist, hF⟩ := hd.represents
  have hl := hd.lists f
  refine ⟨⟨F.detach f c, ?_, hF.removeChild hstep⟩, fun d ↦ ?_, fun d hout ↦ ?_⟩
  · show Function.update F.list f ((F.list f).erase c) = Function.update S.children f _
    rw [hlist]
  · rw [ntreeRemoveChild_parent hstep]
    exact hd.parent d
  · show _ = Function.update S.behind c _ d
    by_cases hdc : d = c
    · subst hdc
      -- the pointer that the removal leaves in the node
      rw [Function.update_self, ntreeRemoveChild_next hl hc hstep (.inl rfl)]
      obtain ⟨pre, post, hsplit, hpre⟩ := List.eq_append_cons_of_mem hc
      rw [hsplit] at hl ⊢
      rw [dropWhile_ne hpre, List.tail_cons]
      exact hl.next_eq
    · have hfree : ∀ g, d ∉ S.children g := by
        intro g hg
        apply hout g
        show d ∈ Function.update S.children f ((S.children f).erase c) g
        by_cases hgf : g = f
        · subst hgf
          rw [Function.update_self]
          exact (List.mem_erase_of_ne hdc).mpr hg
        · rwa [Function.update_of_ne hgf]
      rw [Function.update_of_ne hdc, ntreeRemoveChild_next hl hc hstep (.inr (hfree f))]
      exact hd.next d hfree

theorem remove (hd : Depicts h S) (hstep : ntreeRemoveChild bound h f c = some h') :
    Depicts h' (S.apply (.call (.remove f c))) := by
  show Depicts h' (if c ∈ S.children f then S.unlink f c else S)
  split
  next hc => exact hd.unlink hc hstep
  next hc =>
    obtain ⟨F, hlist, hF⟩ := hd.represents
    rw [hF.removeChild_absent (hlist ▸ hc) hstep]
    exact hd

theorem step (hd : Depicts h S) {op : TreeOp ι} (hpermits : S.Permits op)
    (hstep : treeStep h (bound, op) = some h') : Depicts h' (S.apply op) := by
  obtain ⟨F, hlist, hF⟩ := hd.represents
  have hfree : ∀ {c}, (∀ g, c ∉ S.children g) → ∀ g, c ∉ F.list g :=
    fun hc g ↦ hlist ▸ hc g
  cases op with
  | call op =>
      cases op with
      | prepend f c =>
          cases hstep
          obtain ⟨hF', hlinks⟩ := hF.prependChild (f := f) (hfree hpermits)
          have hlink := hd.link hlist hF' hlinks
          rw [List.nil_append, hlist] at hlink
          exact hlink
      | insert f c comparator =>
          obtain ⟨hc, hstale⟩ := hpermits
          have hnext : S.children f = [] → (h c).next = none :=
            fun hnil ↦ (hd.next c hc).trans (hstale hnil)
          obtain ⟨pre, post, hsplit, hF', hlinks⟩ := hF.insertChild (f := f) (hfree hc)
            (fun hnone ↦ hnext ((childList_nil_iff (hd.lists f)).mp hnone)) comparator hstep
          have hlink := hd.link hlist hF' hlinks
          -- the place is the one behind the children that do not compare greater
          have hplace := ntreeInsertChild_list (hd.lists f) (hc f) hnext hstep
          have hmine := hlink.lists f
          simp only [Siblings.link, Function.update_self] at hmine
          rw [childList_unique hmine hplace] at hlink
          exact hlink
      | remove f c => exact hd.remove hstep
  | removeIf f condition =>
      simp only [Siblings.apply]
      split
      next c hfind =>
        have hc : c ∈ S.children f := List.mem_of_find?_eq_some hfind
        have hremove : ntreeRemoveChild bound h f c = some h' := by
          rw [← ntreeRemoveChildIf_found (hd.lists f) hfind]
          exact hstep
        exact hd.unlink hc hremove
      next hfind =>
        rw [ntreeRemoveChildIf_absent (hd.lists f) hfind hstep]
        exact hd

theorem terminates (hd : Depicts h S) (op : TreeOp ι)
    (hbound : (S.children op.father).length < bound) :
    ∃ h', treeStep h (bound, op) = some h' := by
  cases op with
  | call op =>
      obtain ⟨F, hlist, hF⟩ := hd.represents
      apply hF.step_terminates
      rw [hlist]
      exact hbound
  | removeIf f condition =>
      have hlt : (S.children f).length < bound := hbound
      unfold treeStep ntreeRemoveChildIf
      dsimp only
      rw [foreachChildCond_eq _ bound (hd.lists f), if_pos (length_takeWhile_lt hlt)]
      exact ⟨_, rfl⟩

/-- Where the lists give every child one place, what was linked was in none. -/
theorem not_mem_of_link {l : List ι} (hd' : Depicts h' (S.link f c l))
    (hl : l.Perm (S.children f ++ [c])) (g : ι) : c ∉ S.children g := by
  obtain ⟨F', hlist, -⟩ := hd'.represents
  have hf : F'.list f = l := by rw [hlist, Siblings.link_children, Function.update_self]
  have hnodup := hl.nodup_iff.mp (hf ▸ F'.nodup f)
  have hself : c ∈ F'.list f := by
    rw [hf, hl.mem_iff]
    exact List.mem_append_right _ List.mem_cons_self
  by_cases hgf : g = f
  · subst hgf
    exact (List.nodup_middle.mp hnodup |> List.nodup_cons.mp).1 ∘ List.mem_append_left []
  · intro hmem
    apply hgf
    apply F'.unique _ hself
    rwa [hlist, Siblings.link_children, Function.update_of_ne hgf]

/-- A call that is not permitted leaves pointers that the lists do not depict. -/
theorem permits (hd : Depicts h S) {op : TreeOp ι} (hstep : treeStep h (bound, op) = some h')
    (hd' : Depicts h' (S.apply op)) : S.Permits op := by
  cases op with
  | call op =>
      cases op with
      | prepend f c => exact hd'.not_mem_of_link (List.perm_append_singleton c _).symm
      | insert f c comparator =>
          have hc : ∀ g, c ∉ S.children g := hd'.not_mem_of_link (insertBehind_perm c _)
          refine ⟨hc, fun hnil ↦ ?_⟩
          -- the list of `f` is `c` alone, and `next` is what it was
          have hempty : (h f).child = none := (childList_nil_iff (hd.lists f)).mpr hnil
          have hl := hd'.lists f
          simp only [Siblings.apply, Siblings.link, Function.update_self, hnil] at hl
          have hl' : ChildList h' f ([] ++ c :: []) := hl
          have hlast : (h' c).next = none := hl'.next_eq
          simp only [treeStep, ntreeStep, ntreeInsertChild, setParent_child, hempty] at hstep
          cases hstep
          rw [← hd.next c hc]
          exact hlast
      | remove f c => trivial
  | removeIf f condition => trivial

end Depicts

/-! ## Runs -/

variable [DecidableEq ι] {h : NtreeHeap ι} {S : Siblings ι}

/-- The same call on the heap and on the lists. -/
def siblingsStep (x : NtreeHeap ι × Siblings ι) (call : ℕ × TreeOp ι) :
    Option (NtreeHeap ι × Siblings ι) :=
  (treeStep x.1 call).map fun h ↦ (h, x.2.apply call.2)

/-- Along every run of permitted calls the lists say what each pointer is; a further call ends, and
leaves what the lists say exactly if it is permitted.  The loops over children and over ancestors
see what the lists and the fathers give. -/
theorem tree_run_depicts
    (hrun : Guarded siblingsStep (fun x call ↦ x.2.Permits call.2)
      (fun _ ↦ ntreeEltInit, Siblings.empty) (h, S)) :
    Depicts h S ∧
    (∀ op bound, (S.children op.father).length < bound →
      ∃ h', treeStep h (bound, op) = some h' ∧ (Depicts h' (S.apply op) ↔ S.Permits op)) ∧
    (∀ starter condition bound, (S.children starter).length < bound →
      ntreeForeachChildCond bound h starter condition =
        some ((S.children starter).takeWhile condition)) ∧
    ∀ starter bound l, ntreeForeachAncestor bound h starter = some l ↔
      Ancestors S.father starter l ∧ l.length < bound := by
  have hd : Depicts h S := by
    apply hrun.invariant (I := fun x : NtreeHeap ι × Siblings ι ↦ Depicts x.1 x.2) Depicts.init
    intro x call y hd hpermits hstep
    obtain ⟨h', hh', rfl⟩ := Option.map_eq_some_iff.mp hstep
    exact hd.step hpermits hh'
  refine ⟨hd, fun op bound hbound ↦ ?_, fun starter condition bound hbound ↦ ?_,
    fun starter bound l ↦ ?_⟩
  · obtain ⟨h', hstep⟩ := hd.terminates op hbound
    exact ⟨h', hstep, fun hd' ↦ hd.permits hstep hd', fun hpermits ↦ hd.step hpermits hstep⟩
  · exact (foreachChild_eq condition (hd.lists starter)).trans
      (if_pos (length_takeWhile_lt hbound))
  · have hup : up h = S.father := funext hd.parent
    rw [ntreeForeachAncestor, foreachAncestor_eq_some_iff, hup, hd.parent]
    rfl

/-- Node 2 is put under 0 in front of 1 and taken out again.  It cannot go under the childless 3:
its `next` pointer still names 1. -/
theorem tree_run_depicts_stale :
    ∃ (h : NtreeHeap (Fin 4)) (S : Siblings (Fin 4)), Depicts h S ∧ S.children 0 = [1] ∧
      ∃ h', treeStep h (1, .call (.insert 3 2 fun _ _ ↦ 0)) = some h' ∧
        ¬ Depicts h' (S.apply (.call (.insert 3 2 fun _ _ ↦ 0))) := by
  let h₀ : NtreeHeap (Fin 4) := fun _ ↦ ntreeEltInit
  let S₁ := (Siblings.empty : Siblings (Fin 4)).apply (.call (.prepend 0 1))
  let S₂ := S₁.apply (.call (.prepend 0 2))
  let S₃ := S₂.apply (.call (.remove 0 2))
  have hfree : ∀ g, 2 ∉ S₁.children g := by decide
  have hrun : Guarded siblingsStep
      (fun (x : NtreeHeap (Fin 4) × Siblings (Fin 4)) call ↦ x.2.Permits call.2)
      (h₀, Siblings.empty)
      (setChild (ntreePrependChild (ntreePrependChild h₀ 0 1) 0 2) 0 (some 1), S₃) :=
    ((Guarded.refl.next (1, .call (.prepend 0 1)) (fun _ ↦ List.not_mem_nil) rfl).next
      (1, .call (.prepend 0 2)) hfree rfl).next (1, .call (.remove 0 2)) trivial rfl
  obtain ⟨hd, hcalls, -⟩ := tree_run_depicts hrun
  obtain ⟨h', hstep, hiff⟩ := hcalls (.call (.insert 3 2 fun _ _ ↦ 0)) 1 (by decide)
  refine ⟨_, S₃, hd, rfl, h', hstep, fun hd' ↦ ?_⟩
  have hstale : S₃.children 3 = [] → S₃.behind 2 = none := (hiff.mp hd').2
  exact absurd (hstale rfl) (by decide)

end Divers.Tad
