import Divers.GotModifier.ObjParser

/-! The loop over the program headers counts the segments that it keeps with one counter for both
kinds, and numbers the entries in a byte. -/

open Divers.Library Divers.Library.Elf32

namespace Divers.GotModifier

/-! ## The table -/

/-- PT_LOAD with PF_X. -/
def IsText (m : Bytes) (c : ℕ) : Prop := pType m c = ptLoad ∧ pFlags m c &&& pfX ≠ 0

/-- PT_LOAD with PF_W and without PF_X. -/
def IsData (m : Bytes) (c : ℕ) : Prop :=
  pType m c = ptLoad ∧ pFlags m c &&& pfX = 0 ∧ pFlags m c &&& pfW ≠ 0

instance {m : Bytes} {c : ℕ} : Decidable (IsText m c) := inferInstanceAs (Decidable (_ ∧ _))

instance {m : Bytes} {c : ℕ} : Decidable (IsData m c) := inferInstanceAs (Decidable (_ ∧ _ ∧ _))

theorem IsText.not_isData {m : Bytes} {c : ℕ} (h : IsText m c) : ¬ IsData m c :=
  fun h' ↦ h.2 h'.2.1

/-- The entries that the loop counts. -/
def counted (m : Bytes) (l : List ℕ) : List ℕ := l.filter fun c ↦ IsText m c ∨ IsData m c

/-- The program-header table. -/
def segments (m : Bytes) (ptr : LopInfo) : List ℕ :=
  records sizeofPhdr (ePhnum m ptr.lopEhdr) ptr.lopPhdr

variable {m : Bytes} {ptr : LopInfo} {c d k n : ℕ}

theorem mem_counted {l : List ℕ} : c ∈ counted m l ↔ c ∈ l ∧ (IsText m c ∨ IsData m c) := by
  simp [counted]

theorem counted_cons_of_pos {l : List ℕ} (h : IsText m c ∨ IsData m c) :
    counted m (c :: l) = c :: counted m l := List.filter_cons_of_pos (by simpa using h)

theorem counted_cons_of_neg {l : List ℕ} (h : ¬ (IsText m c ∨ IsData m c)) :
    counted m (c :: l) = counted m l := List.filter_cons_of_neg (by simpa using h)

/-! ## The loop -/

namespace SegmentLoop

variable {s : SegmentLoop} {l : List ℕ}

theorem affect_text (h : IsText m c) :
    affect m s c = { s with nbAffect := s.nbAffect + 1, lopTextvaddr := pVaddr m c } := by
  rw [affect, if_pos h.1, if_pos h.2]

theorem affect_data (h : IsData m c) :
    affect m s c = { s with nbAffect := s.nbAffect + 1, lopDatavaddr := pVaddr m c } := by
  rw [affect, if_pos h.1, if_neg (by simp [h.2.1]), if_pos h.2.2]

theorem affect_other (h : ¬ (IsText m c ∨ IsData m c)) : affect m s c = s := by
  unfold affect
  split
  next htype =>
    split
    next hx => exact absurd (Or.inl ⟨htype, hx⟩) h
    next hx =>
      split
      next hw => exact absurd (Or.inr ⟨htype, by simpa using hx, hw⟩) h
      next => rfl
  next => rfl

/-- The number of the round plays no part. -/
theorem affect_at (s : SegmentLoop) (i : UInt8) (current : ℕ) :
    affect m { s with i := i, current := current } c =
      { affect m s c with i := i, current := current } := by
  unfold affect
  split
  · split
    · rfl
    · split <;> rfl
  · rfl

theorem foldl_affect (s : SegmentLoop) (l : List ℕ) :
    l.foldl (affect m) s = (counted m l).foldl (affect m) s := by
  induction l generalizing s with
  | nil => rfl
  | cons c l ih =>
      rw [List.foldl_cons, ih]
      by_cases hc : IsText m c ∨ IsData m c
      · rw [counted_cons_of_pos hc, List.foldl_cons]
      · rw [counted_cons_of_neg hc, affect_other hc]

theorem nbAffect_foldl (s : SegmentLoop) (l : List ℕ) :
    (l.foldl (affect m) s).nbAffect = s.nbAffect + (counted m l).length := by
  induction l generalizing s with
  | nil => rfl
  | cons c l ih =>
      rw [List.foldl_cons, ih]
      by_cases hc : IsText m c ∨ IsData m c
      · have hstep : (affect m s c).nbAffect = s.nbAffect + 1 := by
          obtain ht | hd := hc
          · rw [affect_text ht]
          · rw [affect_data hd]
        rw [counted_cons_of_pos hc, List.length_cons, hstep]
        omega
      · rw [counted_cons_of_neg hc, affect_other hc]

/-- The state before round `k`: the first `k` entries have been looked at. -/
theorem body_iterate (m : Bytes) (ptr : LopInfo) (k : ℕ) :
    (body m)^[k] (start ptr) =
      { (records sizeofPhdr k ptr.lopPhdr).foldl (affect m) (start ptr) with
        i := UInt8.ofNat k
        current := ptr.lopPhdr + sizeofPhdr * k } := by
  induction k with
  | zero => rfl
  | succ k ih =>
      rw [Function.iterate_succ_apply', ih, body, affect_at, records_add, List.foldl_append]
      have hnext : records sizeofPhdr 1 (ptr.lopPhdr + sizeofPhdr * k) =
          [ptr.lopPhdr + sizeofPhdr * k] := rfl
      rw [hnext, List.foldl_cons, List.foldl_nil]
      have hi : UInt8.ofNat k + 1 = UInt8.ofNat (k + 1) := by simp
      simp only [hi, Nat.mul_add, Nat.add_assoc, Nat.mul_one]

theorem guard_iterate (m : Bytes) (ptr : LopInfo) (phnum k : ℕ) :
    guard phnum ((body m)^[k] (start ptr)) = true ↔
      k % 256 < phnum ∧ (counted m (records sizeofPhdr k ptr.lopPhdr)).length < 2 := by
  rw [body_iterate, guard, Bool.and_eq_true, decide_eq_true_eq, decide_eq_true_eq, nbAffect_foldl]
  simp [start]

theorem guard_iterate_eq_false (m : Bytes) (ptr : LopInfo) (phnum k : ℕ) :
    guard phnum ((body m)^[k] (start ptr)) = false ↔
      phnum ≤ k % 256 ∨ 2 ≤ (counted m (records sizeofPhdr k ptr.lopPhdr)).length := by
  rw [← Bool.not_eq_true, guard_iterate]
  omega

theorem counted_segments (hn : n ≤ ePhnum m ptr.lopEhdr) :
    counted m (segments m ptr) = counted m (records sizeofPhdr n ptr.lopPhdr) ++
      counted m (records sizeofPhdr (ePhnum m ptr.lopEhdr - n)
        (ptr.lopPhdr + sizeofPhdr * n)) := by
  unfold segments counted
  rw [← List.filter_append, ← records_add, Nat.add_sub_cancel' hn]

/-- A loop that ends within the table has counted its first two entries, or all if they are
fewer. -/
theorem counted_eq_take (hn : n ≤ ePhnum m ptr.lopEhdr)
    (hends : EndsAfter (guard (ePhnum m ptr.lopEhdr)) (body m) n (start ptr)) :
    counted m (records sizeofPhdr n ptr.lopPhdr) = (counted m (segments m ptr)).take 2 := by
  have hall := counted_segments hn
  have hstop := (guard_iterate_eq_false m ptr _ n).mp hends.ends
  have hle : (counted m (records sizeofPhdr n ptr.lopPhdr)).length ≤ 2 := by
    cases n with
    | zero => exact Nat.zero_le 2
    | succ n =>
        have hbefore := ((guard_iterate m ptr _ n).mp (hends.goesOn n (by omega))).2
        have hone : (counted m (records sizeofPhdr 1 (ptr.lopPhdr + sizeofPhdr * n))).length ≤ 1 :=
          List.length_filter_le _ _
        rw [records_add, counted, List.filter_append, List.length_append]
        unfold counted at hbefore hone
        omega
  by_cases htwo : (counted m (records sizeofPhdr n ptr.lopPhdr)).length = 2
  · rw [hall, List.take_append_of_le_length (by omega), List.take_of_length_le (by omega)]
  · -- fewer than two, so the loop has gone through the table
    have hmod := Nat.mod_le n 256
    have hend : n = ePhnum m ptr.lopEhdr := by omega
    have hsegments : segments m ptr = records sizeofPhdr n ptr.lopPhdr := by rw [segments, hend]
    rw [hsegments, List.take_of_length_le (by omega)]

/-- A table of up to 255 entries ends the loop, and so do two entries that count. -/
theorem exists_ends (h : ePhnum m ptr.lopEhdr ≤ 255 ∨ 2 ≤ (counted m (segments m ptr)).length) :
    ∃ n ≤ ePhnum m ptr.lopEhdr,
      EndsAfter (guard (ePhnum m ptr.lopEhdr)) (body m) n (start ptr) := by
  apply exists_endsAfter
  rw [guard_iterate_eq_false]
  obtain h | h := h
  · left
    rw [Nat.mod_eq_of_lt (by omega)]
  · right
    exact h

/-- The loop ends in the table exactly if its index can reach the end of it or two of the entries
count. -/
theorem segmentLoop_ends_iff (m : Bytes) (ptr : LopInfo) :
    (∃ n ≤ ePhnum m ptr.lopEhdr,
      EndsAfter (guard (ePhnum m ptr.lopEhdr)) (body m) n (start ptr) ∧
        ∀ k < n, ((body m)^[k] (start ptr)).current ∈ segments m ptr) ↔
      ePhnum m ptr.lopEhdr ≤ 255 ∨ 2 ≤ (counted m (segments m ptr)).length := by
  constructor
  · intro h
    obtain ⟨n, hn, hends, -⟩ := h
    have hstop := (guard_iterate_eq_false m ptr _ n).mp hends.ends
    have hmod := Nat.mod_lt n (show 0 < 256 by decide)
    rw [counted_segments hn, List.length_append]
    omega
  · intro h
    obtain ⟨n, hn, hends⟩ := exists_ends h
    refine ⟨n, hn, hends, fun k hk ↦ ?_⟩
    rw [body_iterate]
    exact List.mem_map_of_mem (List.mem_range.mpr (by omega))

/-- A program header table of 256 entries without a loaded segment is run through for ever. -/
theorem segmentLoop_not_ends :
    ¬ ∀ (m : Bytes) (ptr : LopInfo),
      ∃ n ≤ ePhnum m ptr.lopEhdr,
        EndsAfter (guard (ePhnum m ptr.lopEhdr)) (body m) n (start ptr) ∧
          ∀ k < n, ((body m)^[k] (start ptr)).current ∈ segments m ptr := by
  intro hclaim
  have hphnum : ePhnum (placed 0 [(44, bytesLE 2 256)]) 0 = 256 := by decide +kernel
  have hnone : (counted (placed 0 [(44, bytesLE 2 256)])
      (segments (placed 0 [(44, bytesLE 2 256)]) ⟨0, 52, 0, 0, 0, [], 0⟩)).length = 0 := by
    decide +kernel
  obtain ⟨n, hn, hends, -⟩ := hclaim (placed 0 [(44, bytesLE 2 256)]) ⟨0, 52, 0, 0, 0, [], 0⟩
  have hstop := (guard_iterate_eq_false _ _ _ n).mp hends.ends
  have hmod := Nat.mod_lt n (show 0 < 256 by decide)
  rw [counted_segments hn, List.length_append] at hnone
  dsimp only at hstop hnone
  omega

end SegmentLoop

/-! ## The result -/

/-- The result is 0 exactly if there are segments of both kinds, and then the two addresses are
those of one of each. -/
structure ReadsSegments (m : Bytes) (ptr : LopInfo) (ret : ℕ) (info : LopInfo) : Prop where
  ret_eq_zero : ret = 0 ↔ (∃ c ∈ segments m ptr, IsText m c) ∧ ∃ c ∈ segments m ptr, IsData m c
  text : ret = 0 → ∃ c ∈ segments m ptr, IsText m c ∧ info.lopTextvaddr = pVaddr m c
  data : ret = 0 → ∃ c ∈ segments m ptr, IsData m c ∧ info.lopDatavaddr = pVaddr m c

/-- The first two entries that count are one of each kind.  If they are not, the address of the
other kind stays what it was. -/
def FirstTwoApart (m : Bytes) (ptr : LopInfo) : List ℕ → Prop
  | c :: d :: rest =>
      (IsText m c ↔ IsData m d) ∨
        (IsText m c ∧ ∃ e ∈ rest, IsData m e ∧ ptr.lopDatavaddr = pVaddr m e) ∨
        (IsData m c ∧ ∃ e ∈ rest, IsText m e ∧ ptr.lopTextvaddr = pVaddr m e)
  | _ => True

theorem exists_segment {P : ℕ → Prop} (hP : ∀ c, P c → IsText m c ∨ IsData m c) :
    (∃ c ∈ segments m ptr, P c) ↔ ∃ c ∈ counted m (segments m ptr), P c := by
  constructor
  · intro h
    obtain ⟨c, hc, hPc⟩ := h
    exact ⟨c, mem_counted.mpr ⟨hc, hP c hPc⟩, hPc⟩
  · intro h
    obtain ⟨c, hc, hPc⟩ := h
    exact ⟨c, (mem_counted.mp hc).1, hPc⟩

/-- The property, over the entries that count. -/
theorem readsSegments_iff {ret : ℕ} {info : LopInfo} :
    ReadsSegments m ptr ret info ↔
      (ret = 0 ↔ (∃ c ∈ counted m (segments m ptr), IsText m c) ∧
        ∃ c ∈ counted m (segments m ptr), IsData m c) ∧
      (ret = 0 → ∃ c ∈ counted m (segments m ptr), IsText m c ∧ info.lopTextvaddr = pVaddr m c) ∧
      (ret = 0 → ∃ c ∈ counted m (segments m ptr),
        IsData m c ∧ info.lopDatavaddr = pVaddr m c) := by
  rw [← exists_segment fun c ↦ Or.inl, ← exists_segment fun c ↦ Or.inr,
    ← exists_segment fun c h ↦ Or.inl h.1, ← exists_segment fun c h ↦ Or.inr h.1]
  exact ⟨fun h ↦ ⟨h.ret_eq_zero, h.text, h.data⟩, fun h ↦ ⟨h.1, h.2.1, h.2.2⟩⟩

/-- The result from the first two entries that count. -/
theorem result_iff (m : Bytes) (ptr : LopInfo) :
    ReadsSegments m ptr
        (SegmentLoop.result ptr (((counted m (segments m ptr)).take 2).foldl
          (SegmentLoop.affect m) (SegmentLoop.start ptr))).1
        (SegmentLoop.result ptr (((counted m (segments m ptr)).take 2).foldl
          (SegmentLoop.affect m) (SegmentLoop.start ptr))).2 ↔
      FirstTwoApart m ptr (counted m (segments m ptr)) := by
  have hmem : ∀ c ∈ counted m (segments m ptr), IsText m c ∨ IsData m c :=
    fun c hc ↦ (mem_counted.mp hc).2
  rw [readsSegments_iff]
  generalize counted m (segments m ptr) = l at hmem
  match l with
  | [] => simp [FirstTwoApart, SegmentLoop.result, SegmentLoop.start]
  | [c] =>
      obtain hc | hc := hmem c (by simp)
      · have hnot := hc.not_isData
        simp [FirstTwoApart, SegmentLoop.result, SegmentLoop.start, SegmentLoop.affect_text hc,
          hnot]
      · have hnot : ¬ IsText m c := fun h ↦ h.not_isData hc
        simp [FirstTwoApart, SegmentLoop.result, SegmentLoop.start, SegmentLoop.affect_data hc,
          hnot]
  | c :: d :: rest =>
      have hc := hmem c (by simp)
      have hd := hmem d (by simp)
      rw [List.take_succ_cons, List.take_succ_cons, List.take_zero, List.foldl_cons,
        List.foldl_cons, List.foldl_nil]
      obtain hc | hc := hc
      · have hnc := hc.not_isData
        obtain hd | hd := hd
        · rw [SegmentLoop.affect_text hd, SegmentLoop.affect_text hc]
          have hnd := hd.not_isData
          -- the address of the data segment is not written
          have hdata : ∀ e ∈ rest, IsData m e → ptr.lopDatavaddr = pVaddr m e →
              ∃ e ∈ rest, IsData m e := fun e he hdata _ ↦ ⟨e, he, hdata⟩
          simpa [FirstTwoApart, SegmentLoop.result, SegmentLoop.start, hc, hd, hnc, hnd] using hdata
        · rw [SegmentLoop.affect_data hd, SegmentLoop.affect_text hc]
          simp [FirstTwoApart, SegmentLoop.result, SegmentLoop.start, hc, hd]
      · have hnc : ¬ IsText m c := fun h ↦ h.not_isData hc
        obtain hd | hd := hd
        · rw [SegmentLoop.affect_text hd, SegmentLoop.affect_data hc]
          have hnd := hd.not_isData
          simp [FirstTwoApart, SegmentLoop.result, SegmentLoop.start, hc, hd, hnc, hnd]
        · rw [SegmentLoop.affect_data hd, SegmentLoop.affect_data hc]
          have hnd : ¬ IsText m d := fun h ↦ h.not_isData hd
          -- the address of the text segment is not written
          have htext : ∀ e ∈ rest, IsText m e → ptr.lopTextvaddr = pVaddr m e →
              ∃ e ∈ rest, IsText m e := fun e he htext _ ↦ ⟨e, he, htext⟩
          simpa [FirstTwoApart, SegmentLoop.result, SegmentLoop.start, hc, hd, hnc, hnd] using htext

/-- With at most 255 entries the function returns, and what it returns is right exactly if the first
two entries that count are apart. -/
theorem lopReadSegmentInfo_iff (hphnum : ePhnum m ptr.lopEhdr ≤ 255) :
    ∃ ret info, (∀ fuel, ePhnum m ptr.lopEhdr ≤ fuel →
        lopReadSegmentInfo m fuel ptr = some (ret, info)) ∧
      (ReadsSegments m ptr ret info ↔ FirstTwoApart m ptr (counted m (segments m ptr))) := by
  obtain ⟨n, hn, hends⟩ := SegmentLoop.exists_ends (Or.inl hphnum)
  refine ⟨_, _, fun fuel hfuel ↦ ?_, result_iff m ptr⟩
  rw [lopReadSegmentInfo, hends.whileLoop (by omega), Option.map_some, SegmentLoop.body_iterate,
    SegmentLoop.foldl_affect, SegmentLoop.counted_eq_take hn hends]
  rfl

/-- The program headers of two loaded segments with these flags, behind the number of them. -/
def twoSegments (flags flags' : ℕ) : Bytes :=
  placed 0 [(44, bytesLE 2 2),
    (52, bytesLE 4 ptLoad), (60, bytesLE 4 0x8000), (76, bytesLE 4 flags),
    (84, bytesLE 4 ptLoad), (92, bytesLE 4 0x9000), (108, bytesLE 4 flags')]

def twoSegmentsInfo : LopInfo := ⟨0, 52, 0, 0, 0, [], 0⟩

-- `r-x` and `rw-`.
theorem lopReadSegmentInfo_iff_apart :
    ePhnum (twoSegments 5 6) 0 ≤ 255 ∧
      ∃ ret info, lopReadSegmentInfo (twoSegments 5 6) 2 twoSegmentsInfo = some (ret, info) ∧
        ReadsSegments (twoSegments 5 6) twoSegmentsInfo ret info := by
  have hphnum : ePhnum (twoSegments 5 6) 0 = 2 := by decide +kernel
  have hle : ePhnum (twoSegments 5 6) twoSegmentsInfo.lopEhdr ≤ 255 := by
    show ePhnum (twoSegments 5 6) 0 ≤ 255
    omega
  obtain ⟨ret, info, hret, hiff⟩ := lopReadSegmentInfo_iff hle
  refine ⟨hle, ret, info, hret 2 (Nat.le_of_eq hphnum), hiff.mpr ?_⟩
  have hcounted : counted (twoSegments 5 6) (segments (twoSegments 5 6) twoSegmentsInfo) =
      [52, 84] := by decide +kernel
  rw [hcounted]
  exact Or.inl (by decide +kernel)

/-- Two executable segments end the loop with result 0, and no data segment is there. -/
theorem lopReadSegmentInfo_not_reads :
    ¬ ∀ (m : Bytes) (ptr : LopInfo), ePhnum m ptr.lopEhdr ≤ 255 →
      ∃ ret info, (∀ fuel, ePhnum m ptr.lopEhdr ≤ fuel →
        lopReadSegmentInfo m fuel ptr = some (ret, info)) ∧ ReadsSegments m ptr ret info := by
  intro hclaim
  have hphnum : ePhnum (twoSegments 5 5) 0 = 2 := by decide +kernel
  obtain ⟨ret, info, hret, hreads⟩ := hclaim (twoSegments 5 5) twoSegmentsInfo (by
    show ePhnum (twoSegments 5 5) 0 ≤ 255
    omega)
  have hrun : lopReadSegmentInfo (twoSegments 5 5) 2 twoSegmentsInfo =
      some (0, { twoSegmentsInfo with lopTextvaddr := 0x9000 }) := by decide +kernel
  have hnone : ¬ ∃ c ∈ segments (twoSegments 5 5) twoSegmentsInfo, IsData (twoSegments 5 5) c := by
    decide +kernel
  rw [hret 2 (Nat.le_of_eq hphnum)] at hrun
  cases hrun
  exact hnone (hreads.ret_eq_zero.mp rfl).2

end Divers.GotModifier
