import Divers.Tad.NTree
import Mathlib.Data.List.TakeWhile
import Mathlib.Data.Option.Basic

/-! The child lists of n_tree: an abstract forest of disjoint lists, and what each macro does to
it. -/

open Divers.Library

namespace Divers.Tad

variable {ι : Type*}

/-! ## The abstract forest -/

/-- Every father has a list of children, and no node is in two places. -/
structure Forest (ι : Type*) where
  list : ι → List ι
  nodup : ∀ f, (list f).Nodup
  unique : ∀ {f g c}, c ∈ list f → c ∈ list g → f = g

namespace Forest

def empty : Forest ι := ⟨fun _ ↦ [], fun _ ↦ List.nodup_nil, fun h ↦ absurd h List.not_mem_nil⟩

variable [DecidableEq ι]

/-- Put `c` between `pre` and `post` in the list of `f`. -/
def attach (F : Forest ι) (f c : ι) (pre post : List ι) (hsplit : F.list f = pre ++ post)
    (hc : ∀ g, c ∉ F.list g) : Forest ι where
  list := Function.update F.list f (pre ++ c :: post)
  nodup g := by
    by_cases hg : g = f
    · subst hg
      rw [Function.update_self, List.nodup_middle, ← hsplit]
      exact List.nodup_cons.mpr ⟨hc g, F.nodup g⟩
    · rw [Function.update_of_ne hg]
      exact F.nodup g
  unique {g₁ g₂ d} h₁ h₂ := by
    have hmem : ∀ g, d ∈ Function.update F.list f (pre ++ c :: post) g →
        (d = c ∧ g = f) ∨ d ∈ F.list g := by
      intro g hg
      by_cases hgf : g = f
      · subst hgf
        rw [Function.update_self, List.mem_append, List.mem_cons] at hg
        rw [hsplit, List.mem_append]
        tauto
      · rw [Function.update_of_ne hgf] at hg
        exact Or.inr hg
    rcases hmem g₁ h₁ with ⟨rfl, rfl⟩ | hd₁ <;> rcases hmem g₂ h₂ with ⟨hd, rfl⟩ | hd₂
    · rfl
    · exact absurd hd₂ (hc g₂)
    · exact absurd (hd ▸ hd₁) (hc g₁)
    · exact F.unique hd₁ hd₂

theorem mem_attach {F : Forest ι} {f g c d : ι} {pre post : List ι}
    {hsplit : F.list f = pre ++ post} {hc : ∀ g, c ∉ F.list g} :
    d ∈ (F.attach f c pre post hsplit hc).list g ↔ (d = c ∧ g = f) ∨ d ∈ F.list g := by
  show d ∈ Function.update F.list f (pre ++ c :: post) g ↔ _
  by_cases hg : g = f
  · subst hg
    rw [Function.update_self, hsplit, List.mem_append, List.mem_append, List.mem_cons]
    tauto
  · rw [Function.update_of_ne hg]
    tauto

/-- Take `c` out of the list of `f`. -/
def detach (F : Forest ι) (f c : ι) : Forest ι where
  list := Function.update F.list f ((F.list f).erase c)
  nodup g := by
    by_cases hg : g = f
    · subst hg
      rw [Function.update_self]
      exact (F.nodup g).erase c
    · rw [Function.update_of_ne hg]
      exact F.nodup g
  unique {g₁ g₂ d} h₁ h₂ := by
    have hmem : ∀ g, d ∈ Function.update F.list f ((F.list f).erase c) g → d ∈ F.list g := by
      intro g hg
      by_cases hgf : g = f
      · subst hgf
        rw [Function.update_self] at hg
        exact List.mem_of_mem_erase hg
      · rwa [Function.update_of_ne hgf] at hg
    exact F.unique (hmem g₁ h₁) (hmem g₂ h₂)

theorem mem_of_detach {F : Forest ι} {f g c d : ι} (hd : d ∈ (F.detach f c).list g) :
    d ∈ F.list g := by
  change d ∈ Function.update F.list f ((F.list f).erase c) g at hd
  by_cases hg : g = f
  · subst hg
    rw [Function.update_self] at hd
    exact List.mem_of_mem_erase hd
  · rwa [Function.update_of_ne hg] at hd

theorem not_mem_detach {F : Forest ι} {f c : ι} : c ∉ (F.detach f c).list f := by
  show c ∉ Function.update F.list f ((F.list f).erase c) f
  rw [Function.update_self]
  exact (F.nodup f).not_mem_erase

end Forest

/-! ## Child lists in the heap -/

instance {h : NtreeHeap ι} {f : ι} {l : List ι} [DecidableEq ι] : Decidable (ChildList h f l) :=
  inferInstanceAs (Decidable (Path some (fun i ↦ (h i).next) (h f).child l none))

theorem childList_unique {h : NtreeHeap ι} {f : ι} {l₁ l₂ : List ι} (h₁ : ChildList h f l₁)
    (h₂ : ChildList h f l₂) : l₁ = l₂ :=
  Path.unique (Option.some_injective ι) h₁ h₂ (fun _ _ ↦ Option.some_ne_none _)
    fun _ _ ↦ Option.some_ne_none _

theorem foreachChildCond_eq_walkWhile (h : NtreeHeap ι) (condition : ι → Bool) (bound : ℕ)
    (walk pwalk : Option ι) : foreachChildCond h condition bound walk pwalk =
      walkWhile (fun i ↦ (h i).next) condition bound walk pwalk := by
  induction bound generalizing walk pwalk with
  | zero => rfl
  | succ bound ih =>
      cases walk with
      | none => rfl
      | some walk =>
          unfold foreachChildCond walkWhile
          rw [ih]

/-- The loop stops at the first node that fails the condition, its predecessor in `pwalk`. -/
theorem foreachChildCond_eq {h : NtreeHeap ι} (condition : ι → Bool) {l : List ι} (bound : ℕ)
    {walk pwalk : Option ι} (hl : Path some (fun i ↦ (h i).next) walk l none) :
    foreachChildCond h condition bound walk pwalk =
      if (l.takeWhile condition).length < bound then
        some ((l.dropWhile condition).head?, (l.takeWhile condition).getLast?.or pwalk)
      else none := by
  rw [foreachChildCond_eq_walkWhile, walkWhile_eq condition bound hl]

/-! ## The heap represents a forest -/

structure Represents (h : NtreeHeap ι) (F : Forest ι) : Prop where
  lists : ∀ f, ChildList h f (F.list f)
  parents : ∀ {f c}, c ∈ F.list f → (h c).parent = some f

/-- The pointers that linking `c` under `f` leaves alone. -/
structure LinksUnder [DecidableEq ι] (h h' : NtreeHeap ι) (F : Forest ι) (f c : ι) : Prop where
  parent : ∀ i, (h' i).parent = if i = c then some f else (h i).parent
  next : ∀ i, i ≠ c → i ∉ F.list f → (h' i).next = (h i).next

namespace Represents

variable {h h' : NtreeHeap ι} {F : Forest ι} {f c : ι}

theorem init : Represents (fun _ ↦ ntreeEltInit : NtreeHeap ι) Forest.empty :=
  ⟨fun _ ↦ rfl, fun hc ↦ absurd hc List.not_mem_nil⟩

theorem isChild_iff (hF : Represents h F) : IsChild h f c ↔ c ∈ F.list f := by
  constructor
  · intro hexists
    obtain ⟨l, hl, hc⟩ := hexists
    rwa [childList_unique (hF.lists f) hl]
  · exact fun hc ↦ ⟨F.list f, hF.lists f, hc⟩

variable [DecidableEq ι]

/-- `c` is nowhere but in the list of `f`, and the other nodes keep their fathers. -/
theorem parent_attach {pre post : List ι} (hF : Represents h F) (hc : ∀ g, c ∉ F.list g)
    (hsplit : F.list f = pre ++ post)
    (hparent : ∀ i, (h' i).parent = if i = c then some f else (h i).parent) {g d : ι}
    (hd : d ∈ (F.attach f c pre post hsplit hc).list g) : (h' d).parent = some g := by
  rw [hparent]
  by_cases hg : g = f
  · subst hg
    simp only [Forest.attach, Function.update_self, List.mem_append, List.mem_cons] at hd
    split
    next => rfl
    next hdc =>
      apply hF.parents
      rw [hsplit, List.mem_append]
      exact hd.imp_right fun hd ↦ hd.resolve_left hdc
  · simp only [Forest.attach, Function.update_of_ne hg] at hd
    split
    next hdc => exact absurd (hdc ▸ hd) (hc g)
    next => exact hF.parents hd

/-- What linking `c` at the head of the list of `f` needs: prepending, and inserting before every
other child. -/
theorem attach_head (hF : Represents h F) (hc : ∀ g, c ∉ F.list g)
    (hnext : ∀ i, (h' i).next = if i = c then (h f).child else (h i).next)
    (hchild : ∀ i, (h' i).child = if i = f then some c else (h i).child)
    (hparent : ∀ i, (h' i).parent = if i = c then some f else (h i).parent) :
    Represents h' (F.attach f c [] (F.list f) rfl hc) ∧ LinksUnder h h' F f c := by
  have hsame : ∀ g, ∀ i ∈ F.list g, (h' i).next = (h i).next := by
    intro g i hi
    have hic : i ≠ c := by
      intro heq
      subst heq
      exact hc g hi
    rw [hnext, if_neg hic]
  refine ⟨⟨fun g ↦ ?_, hF.parent_attach hc rfl hparent⟩, hparent,
    fun i hic _ ↦ (hnext i).trans (if_neg hic)⟩
  unfold ChildList
  by_cases hg : g = f
  · subst hg
    rw [hchild, if_pos rfl]
    simp only [Forest.attach, Function.update_self, List.nil_append, path_cons, true_and]
    rw [hnext, if_pos rfl]
    exact (hF.lists g).congr (hsame g)
  · rw [hchild, if_neg hg]
    simp only [Forest.attach, Function.update_of_ne hg]
    exact (hF.lists g).congr (hsame g)

/-- What linking `c` behind the child `k` of `f` needs. -/
theorem attach_after {k : ι} {pre post : List ι} (hF : Represents h F)
    (hc : ∀ g, c ∉ F.list g) (hsplit : F.list f = (pre ++ [k]) ++ post)
    (hnext : ∀ i, (h' i).next =
      if i = k then some c else if i = c then (h k).next else (h i).next)
    (hchild : ∀ i, (h' i).child = (h i).child)
    (hparent : ∀ i, (h' i).parent = if i = c then some f else (h i).parent) :
    Represents h' (F.attach f c (pre ++ [k]) post hsplit hc) ∧ LinksUnder h h' F f c := by
  have hk : k ∈ F.list f := by rw [hsplit]; simp
  have hkc : c ≠ k := fun h ↦ hc f (h ▸ hk)
  have hother : ∀ i, i ≠ c → i ∉ F.list f → (h' i).next = (h i).next := by
    intro i hic hi
    have hik : i ≠ k := by
      intro heq
      subst heq
      exact hi hk
    rw [hnext, if_neg hik, if_neg hic]
  refine ⟨⟨fun g ↦ ?_, hF.parent_attach hc hsplit hparent⟩, hparent, hother⟩
  unfold ChildList
  rw [hchild]
  by_cases hg : g = f
  · subst hg
    have hl := hF.lists g
    have hnodup := F.nodup g
    have hcg := hc g
    rw [hsplit, List.append_assoc, List.singleton_append] at hl hnodup hcg
    simp only [Forest.attach, Function.update_self, List.append_assoc, List.singleton_append]
    -- the list of `f`: `k` links to `c`, and `c` to what came behind `k`
    apply hl.splice_after
    · rw [hnext, if_pos rfl]
    · rw [hnext, if_neg hkc, if_pos rfl]
    · intro i hi
      rw [List.nodup_middle, List.nodup_cons] at hnodup
      have hik : i ≠ k := fun h ↦ hnodup.1 (h ▸ hi)
      have hic : i ≠ c := by
        intro heq
        subst heq
        apply hcg
        rw [List.mem_append, List.mem_cons]
        rw [List.mem_append] at hi
        tauto
      rw [hnext, if_neg hik, if_neg hic]
  · simp only [Forest.attach, Function.update_of_ne hg]
    -- the other lists contain neither `k` nor `c`
    apply (hF.lists g).congr
    intro i hi
    have hik : i ≠ k := fun h ↦ hg (F.unique (h ▸ hi) hk)
    have hic : i ≠ c := fun h ↦ hc g (h ▸ hi)
    rw [hnext, if_neg hik, if_neg hic]

/-! ## The macros on the forest -/

theorem prependChild (hF : Represents h F) (hc : ∀ g, c ∉ F.list g) :
    Represents (ntreePrependChild h f c) (F.attach f c [] (F.list f) rfl hc) ∧
      LinksUnder h (ntreePrependChild h f c) F f c := by
  apply hF.attach_head hc <;> intro i <;> simp [ntreePrependChild]

/-- `ntree_insert_child` puts the node behind the children that do not compare greater, provided
that a node inserted into an empty list has no `next` pointer left. -/
theorem insertChild (hF : Represents h F) (hc : ∀ g, c ∉ F.list g)
    (hstale : (h f).child = none → (h c).next = none) (comparator : ι → ι → ℤ) {bound : ℕ}
    (hloop : ntreeInsertChild bound h f c comparator = some h') :
    ∃ pre post, ∃ hsplit : F.list f = pre ++ post,
      Represents h' (F.attach f c pre post hsplit hc) ∧ LinksUnder h h' F f c := by
  have hlist := hF.lists f
  unfold ntreeInsertChild at hloop
  simp only [setParent_child] at hloop
  cases hchild : (h f).child with
  | none =>
      -- an empty list: `next` keeps the value it had
      have hempty : F.list f = [] := by
        unfold ChildList at hlist
        rw [hchild] at hlist
        cases hl : F.list f with
        | nil => rfl
        | cons d l =>
            rw [hl] at hlist
            cases hlist.1
      rw [hchild] at hloop
      cases hloop
      refine ⟨[], F.list f, rfl, hF.attach_head hc ?_ ?_ ?_⟩ <;> intro i
      · show (h i).next = _
        split
        next hic =>
          rw [hic, hstale hchild, hchild]
        next => rfl
      · simp
      · simp
  | some first =>
      -- the walk does not see that `parent` has been set
      have hwalk : Path some (fun i ↦ (setParent h c (some f) i).next) (some first) (F.list f)
          none := by
        unfold ChildList at hlist
        rwa [hchild] at hlist
      rw [hchild] at hloop
      simp only [foreachChildCond_eq _ bound hwalk, Option.or_none] at hloop
      let condition : ι → Bool := fun walk ↦ decide (comparator walk c ≤ 0)
      change Option.map _ (if ((F.list f).takeWhile condition).length < bound then
        some (((F.list f).dropWhile condition).head?, ((F.list f).takeWhile condition).getLast?)
        else none) = some h' at hloop
      split at hloop
      next hbound =>
        -- the loop stops where the children begin to compare greater
        have hsplit : F.list f =
            (F.list f).takeWhile condition ++ (F.list f).dropWhile condition :=
          (List.takeWhile_append_dropWhile).symm
        rw [Option.map_some, Option.some.injEq] at hloop
        rcases List.eq_nil_or_concat' ((F.list f).takeWhile condition) with hnil | ⟨pre, k, hpre⟩
        · -- every child compares greater
          rw [hnil] at hloop
          simp only [List.getLast?_nil] at hloop
          subst hloop
          refine ⟨[], F.list f, rfl, hF.attach_head hc ?_ ?_ ?_⟩ <;> intro i <;> simp [hchild]
        · rw [hpre] at hloop hsplit
          simp only [List.getLast?_append, List.getLast?_singleton, Option.some_or] at hloop
          subst hloop
          refine ⟨pre ++ [k], _, hsplit, hF.attach_after hc hsplit ?_ ?_ ?_⟩ <;> intro i <;> simp
      next => cases hloop

/-- What taking `c` out of the list of `f` needs, wherever it stands there. -/
theorem detach_of_list (hF : Represents h F) (hlist : ChildList h' f ((F.list f).erase c))
    (hother : ∀ g, g ≠ f → ChildList h' g (F.list g))
    (hparent : ∀ i, (h' i).parent = (h i).parent) : Represents h' (F.detach f c) := by
  refine ⟨fun g ↦ ?_, fun {g d} hd ↦ ?_⟩
  · by_cases hg : g = f
    · subst hg
      simpa only [Forest.detach, Function.update_self] using hlist
    · simpa only [Forest.detach, Function.update_of_ne hg] using hother g hg
  · rw [hparent]
    exact hF.parents (Forest.mem_of_detach hd)

theorem detach_absent (hF : Represents h F) (hc : c ∉ F.list f) :
    Represents h (F.detach f c) := by
  apply hF.detach_of_list
  · rw [List.erase_of_not_mem hc]
    exact hF.lists f
  · exact fun g _ ↦ hF.lists g
  · exact fun i ↦ rfl

theorem detach_head (hF : Represents h F) {post : List ι} (hsplit : F.list f = c :: post) :
    Represents (setChild h f (h c).next) (F.detach f c) := by
  have hlist := hF.lists f
  rw [hsplit] at hlist
  apply hF.detach_of_list
  · rw [hsplit, List.erase_cons_head]
    unfold ChildList
    rw [setChild_child, if_pos rfl]
    exact hlist.2
  · intro g hg
    unfold ChildList
    rw [setChild_child, if_neg hg]
    exact hF.lists g
  · exact fun i ↦ rfl

theorem detach_after (hF : Represents h F) {k : ι} {pre post : List ι}
    (hsplit : F.list f = pre ++ k :: c :: post) :
    Represents (setNext h k (h c).next) (F.detach f c) := by
  have hlist := hF.lists f
  have hnodup := F.nodup f
  have hk : k ∈ F.list f := by rw [hsplit]; simp
  rw [hsplit] at hlist hnodup
  -- `k` is in front of `c` only
  have hrest := (List.nodup_cons.mp (List.nodup_middle.mp hnodup)).1
  have hpre : c ∉ pre ++ [k] := by
    rw [← List.singleton_append, ← List.append_assoc, List.nodup_middle, List.nodup_cons] at hnodup
    exact fun hc ↦ hnodup.1 (List.mem_append_left post hc)
  apply hF.detach_of_list
  · rw [hsplit, ← List.singleton_append, ← List.append_assoc, List.erase_append_right _ hpre,
      List.erase_cons_head, List.append_assoc, List.singleton_append]
    apply hlist.bypass
    · rw [setNext_next, if_pos rfl]
    · intro i hi
      have hik : i ≠ k := by
        intro heq
        subst heq
        apply hrest
        rw [List.mem_append] at hi ⊢
        exact hi.imp_right (List.mem_cons_of_mem c)
      rw [setNext_next, if_neg hik]
  · intro g hg
    apply (hF.lists g).congr
    intro i hi
    have hik : i ≠ k := by
      intro heq
      subst heq
      exact hg (F.unique hi hk)
    rw [setNext_next, if_neg hik]
  · exact fun i ↦ rfl

theorem removeChild_absent (hF : Represents h F) (hc : c ∉ F.list f) {bound : ℕ}
    (hloop : ntreeRemoveChild bound h f c = some h') : h' = h := by
  unfold ntreeRemoveChild at hloop
  rw [foreachChildCond_eq _ bound (hF.lists f), dropWhile_ne_absent hc] at hloop
  split at hloop
  next => exact (Option.some.inj hloop).symm
  next => cases hloop

/-- Removal takes the node out of the list of the father, if it is there. -/
theorem removeChild (hF : Represents h F) {bound : ℕ}
    (hloop : ntreeRemoveChild bound h f c = some h') : Represents h' (F.detach f c) := by
  by_cases hmem : c ∈ F.list f
  · unfold ntreeRemoveChild at hloop
    rcases List.eq_append_cons_of_mem hmem with ⟨pre, post, hsplit, hpre⟩
    rw [foreachChildCond_eq _ bound (hF.lists f), hsplit, takeWhile_ne hpre,
      dropWhile_ne hpre] at hloop
    split at hloop
    next =>
      rw [Option.map_some, Option.some.injEq, Option.or_none] at hloop
      rcases List.eq_nil_or_concat' pre with rfl | ⟨pre, k, rfl⟩
      · -- the first child
        simp only [List.head?_cons, List.getLast?_nil] at hloop
        subst hloop
        exact hF.detach_head hsplit
      · -- behind the child `k`
        simp only [List.head?_cons, List.getLast?_append, List.getLast?_singleton,
          Option.some_or] at hloop
        subst hloop
        rw [List.append_assoc, List.singleton_append] at hsplit
        exact hF.detach_after hsplit
    next => cases hloop
  · rw [hF.removeChild_absent hmem hloop]
    exact hF.detach_absent hmem

/-- Every loop ends at the latest behind the last child. -/
theorem step_terminates (hF : Represents h F) (op : NtreeOp ι) {bound : ℕ}
    (hbound : (F.list op.father).length < bound) : ∃ h', ntreeStep h (bound, op) = some h' := by
  have hlist := hF.lists op.father
  unfold ChildList at hlist
  cases op with
  | prepend father child => exact ⟨_, rfl⟩
  | insert father child comparator =>
      unfold ntreeStep ntreeInsertChild
      simp only [NtreeOp.father] at hlist hbound
      simp only [setParent_child]
      cases hchild : (h father).child with
      | none => exact ⟨_, rfl⟩
      | some first =>
          have hwalk : Path some (fun i ↦ (setParent h child (some father) i).next) (some first)
              (F.list father) none := by
            rw [← hchild]
            exact hlist
          simp only [foreachChildCond_eq _ bound hwalk]
          rw [if_pos (length_takeWhile_lt hbound)]
          exact ⟨_, rfl⟩
  | remove father child =>
      unfold ntreeStep ntreeRemoveChild
      simp only [NtreeOp.father] at hlist hbound
      simp only [foreachChildCond_eq _ bound hlist]
      rw [if_pos (length_takeWhile_lt hbound)]
      exact ⟨_, rfl⟩

/-- What a permitted call does: it links a free node under the father, or it removes. -/
theorem step_cases (hF : Represents h F) {bound : ℕ} {op : NtreeOp ι}
    (hpermitted : Permitted h (bound, op)) (hstale : NoStaleInsert h (bound, op))
    (hstep : ntreeStep h (bound, op) = some h') :
    (∃ c pre post, ∃ hsplit : F.list op.father = pre ++ post, ∃ hc : ∀ g, c ∉ F.list g,
      (∀ f d, op ≠ .remove f d) ∧ Attachable h op.father c ∧
        Represents h' (F.attach op.father c pre post hsplit hc) ∧
        LinksUnder h h' F op.father c) ∨
    ∃ f c, op = .remove f c ∧ Represents h' (F.detach f c) := by
  have hfree : ∀ {f c}, Attachable h f c → ∀ g, c ∉ F.list g :=
    fun hattach g hg ↦ hattach.1 g (hF.isChild_iff.mpr hg)
  cases op with
  | prepend father child =>
      cases hstep
      exact Or.inl ⟨child, [], _, rfl, hfree hpermitted, fun _ _ ↦ nofun,
        hpermitted, hF.prependChild (hfree hpermitted)⟩
  | insert father child comparator =>
      rcases hF.insertChild (hfree hpermitted) hstale comparator hstep with
        ⟨pre, post, hsplit, hinsert⟩
      exact Or.inl ⟨child, pre, post, hsplit, hfree hpermitted, fun _ _ ↦ nofun,
        hpermitted, hinsert⟩
  | remove father child => exact Or.inr ⟨father, child, rfl, hF.removeChild hstep⟩

/-- One permitted call leads from forest to forest, and changes the list of its own father only. -/
theorem step (hF : Represents h F) {bound : ℕ} {op : NtreeOp ι}
    (hpermitted : Permitted h (bound, op)) (hstale : NoStaleInsert h (bound, op))
    (hstep : ntreeStep h (bound, op) = some h') :
    ∃ F', Represents h' F' ∧ ∀ g, g ≠ op.father → F'.list g = F.list g := by
  rcases hF.step_cases hpermitted hstale hstep with
    ⟨c, pre, post, hsplit, hc, -, -, hF', -⟩ | ⟨f, c, rfl, hF'⟩
  · exact ⟨_, hF', fun g hg ↦ Function.update_of_ne hg _ _⟩
  · exact ⟨_, hF', fun g hg ↦ Function.update_of_ne hg _ _⟩

end Represents

/-! ## Runs -/

/-- The child lists are finite and without repetition, no two share a node, and every node in one
names its father. -/
structure Separated (h : NtreeHeap ι) : Prop where
  finite : ∀ f, ∃ l, ChildList h f l ∧ l.Nodup
  disjoint : ∀ {f g c}, IsChild h f c → IsChild h g c → f = g
  parent : ∀ {f c}, IsChild h f c → (h c).parent = some f

theorem Represents.separated {h : NtreeHeap ι} {F : Forest ι} (hF : Represents h F) :
    Separated h where
  finite f := ⟨F.list f, hF.lists f, F.nodup f⟩
  disjoint hf hg := F.unique (hF.isChild_iff.mp hf) (hF.isChild_iff.mp hg)
  parent hf := hF.parents (hF.isChild_iff.mp hf)

/-- A node outside every list and without children may be attached to any other node. -/
theorem attachable_of_lists {h : NtreeHeap ι} {f c : ι} (lists : ι → List ι)
    (hlists : ∀ g, ChildList h g (lists g)) (hc : ∀ g, c ∉ lists g) (hleaf : lists c = [])
    (hne : c ≠ f) : Attachable h f c := by
  -- the child lists are the given ones
  have hchild : ∀ {g d}, IsChild h g d → d ∈ lists g := by
    intro g d hexists
    obtain ⟨l, hl, hd⟩ := hexists
    rwa [childList_unique (hlists g) hl]
  constructor
  · intro g hg
    exact hc g (hchild hg)
  · intro hbelow
    rcases Relation.ReflTransGen.cases_head hbelow with heq | ⟨d, hd, -⟩
    · exact hne heq
    · have := hchild hd
      rw [hleaf] at this
      exact absurd this List.not_mem_nil

variable [DecidableEq ι]

theorem run_represents {h : NtreeHeap ι}
    (hrun : Guarded ntreeStep (fun h l ↦ Permitted h l ∧ NoStaleInsert h l)
      (fun _ ↦ ntreeEltInit) h) : ∃ F, Represents h F := by
  apply hrun.invariant (I := fun h ↦ ∃ F, Represents h F) ⟨_, Represents.init⟩
  intro h e h' hinv hallowed hstep
  obtain ⟨bound, op⟩ := e
  obtain ⟨F, hF⟩ := hinv
  obtain ⟨hpermitted, hstale⟩ := hallowed
  rcases hF.step hpermitted hstale hstep with ⟨F', hF', -⟩
  exact ⟨F', hF'⟩

/-- As long as no insertion into a childless father meets a stale `next` pointer, the child lists
stay separated, every call ends, and it leaves the lists of the other fathers alone. -/
theorem ntree_run_separated {h : NtreeHeap ι}
    (hrun : Guarded ntreeStep (fun h l ↦ Permitted h l ∧ NoStaleInsert h l)
      (fun _ ↦ ntreeEltInit) h) :
    Separated h ∧
    ∀ op, (∃ bound h', ntreeStep h (bound, op) = some h') ∧
      ∀ bound h', Permitted h (bound, op) → NoStaleInsert h (bound, op) →
        ntreeStep h (bound, op) = some h' →
        ∀ g, g ≠ op.father → ∀ l, ChildList h' g l ↔ ChildList h g l := by
  rcases run_represents hrun with ⟨F, hF⟩
  refine ⟨hF.separated, fun op ↦ ⟨⟨_, hF.step_terminates op (Nat.lt_succ_self _)⟩, ?_⟩⟩
  intro bound h' hpermitted hstale hstep g hg l
  rcases hF.step hpermitted hstale hstep with ⟨F', hF', hother⟩
  have hlist := hF.lists g
  have hlist' := hF'.lists g
  rw [hother g hg] at hlist'
  constructor
  · intro hl
    rwa [childList_unique hl hlist']
  · intro hl
    rwa [childList_unique hl hlist]

def byNumber (a b : Fin 4) : ℤ := (a.val : ℤ) - b.val

/-- 2 and 1 are inserted under the childless 0, and 1 is removed and inserted again: its `next`
pointer is stale, but its father has a child. -/
theorem ntree_run_separated_reinsert :
    ∃ h : NtreeHeap (Fin 4),
      Guarded ntreeStep (fun h l ↦ Permitted h l ∧ NoStaleInsert h l) (fun _ ↦ ntreeEltInit) h ∧
      ChildList h 0 [1, 2] ∧ Separated h := by
  let h₀ : NtreeHeap (Fin 4) := fun _ ↦ ntreeEltInit
  let h₁ := setChild (setParent h₀ 2 (some 0)) 0 (some 2)
  let h₂ := setChild (setNext (setParent h₁ 1 (some 0)) 1 (some 2)) 0 (some 1)
  let h₃ := setChild h₂ 0 (some 2)
  let h₄ := setChild (setNext (setParent h₃ 1 (some 0)) 1 (some 2)) 0 (some 1)
  have hone : Attachable h₀ 0 2 :=
    attachable_of_lists (fun _ ↦ []) (by decide) (by decide) rfl (by decide)
  have htwo : Attachable h₁ 0 1 :=
    attachable_of_lists (fun g ↦ if g = 0 then [2] else []) (by decide) (by decide) rfl (by decide)
  have hagain : Attachable h₃ 0 1 :=
    attachable_of_lists (fun g ↦ if g = 0 then [2] else []) (by decide) (by decide) rfl (by decide)
  have hrun : Guarded ntreeStep (fun h l ↦ Permitted h l ∧ NoStaleInsert h l) h₀ h₄ :=
    (((Guarded.refl.next (1, .insert 0 2 byNumber) ⟨hone, fun _ ↦ rfl⟩ rfl).next
      (2, .insert 0 1 byNumber) ⟨htwo, fun _ ↦ rfl⟩ rfl).next
      (3, .remove 0 1) ⟨trivial, trivial⟩ rfl).next
      (2, .insert 0 1 byNumber) ⟨hagain, fun hchildless ↦ by cases hchildless⟩ rfl
  exact ⟨h₄, hrun, by decide, (ntree_run_separated hrun).1⟩

/-- Nodes 2 and 3 become children of 0, then 3 moves to the childless 1: its `next` pointer still
names 2, which is now in both lists. -/
theorem ntree_run_not_separated :
    ¬ ∀ h : NtreeHeap (Fin 4),
      Guarded ntreeStep Permitted (fun _ ↦ ntreeEltInit) h → Separated h := by
  intro hclaim
  let h₀ : NtreeHeap (Fin 4) := fun _ ↦ ntreeEltInit
  let h₁ := ntreePrependChild h₀ 0 2
  let h₂ := ntreePrependChild h₁ 0 3
  let h₃ := setChild h₂ 0 (some 2)
  let h₄ := setChild (setParent h₃ 3 (some 1)) 1 (some 3)
  have hattach₀ : Attachable h₀ 0 2 :=
    attachable_of_lists (fun _ ↦ []) (fun _ ↦ rfl) (fun _ ↦ List.not_mem_nil) rfl (by decide)
  have hattach₁ : Attachable h₁ 0 3 :=
    attachable_of_lists (fun g ↦ if g = 0 then [2] else []) (by decide) (by decide) rfl
      (by decide)
  have hattach₃ : Attachable h₃ 1 3 :=
    attachable_of_lists (fun g ↦ if g = 0 then [2] else []) (by decide) (by decide) rfl
      (by decide)
  -- the node 3 keeps `next = some 2` from its time under 0
  have hrun : Guarded ntreeStep Permitted h₀ h₄ :=
    (((Guarded.refl.next (1, .prepend 0 2) hattach₀ rfl).next (1, .prepend 0 3) hattach₁ rfl).next
      (1, .remove 0 3) trivial rfl).next (1, .insert 1 3 fun _ _ ↦ 0) hattach₃ rfl
  have hfirst : IsChild h₄ 0 2 := ⟨[2], by decide, by decide⟩
  have hsecond : IsChild h₄ 1 2 := ⟨[3, 2], by decide, by decide⟩
  exact absurd ((hclaim h₄ hrun).disjoint hfirst hsecond) (by decide)

end Divers.Tad
