import Divers.Library.ByteMemory

/-!
# C strings in memory

A string of C is the bytes from an address on up to the first NUL; the lists are without the NUL.
-/

namespace Divers.Library

/-- The bytes from `a` on begin with those of `s`. -/
def hasPrefix (m : Bytes) (a : ℕ) : List UInt8 → Bool
  | [] => true
  | c :: s => m a == c && hasPrefix m (a + 1) s

/-- The string at `a` is `s`: `strcmp` answers 0. -/
def holdsString (m : Bytes) (a : ℕ) : List UInt8 → Bool
  | [] => m a == 0
  | c :: s => m a == c && holdsString m (a + 1) s

/-- The first place of `needle` in the string at `a`, of which at most `n` bytes are looked at. -/
def strstr (m : Bytes) (needle : List UInt8) : ℕ → ℕ → Option ℕ
  | 0, _ => none
  | n + 1, a =>
      if hasPrefix m a needle then some a
      else if m a = 0 then none
      else strstr m needle n (a + 1)

/-- The `n` bytes that `strncpy` writes: the string at `a`, then zeros, and no NUL where the string
has `n` bytes or more. -/
def strncpy (m : Bytes) : ℕ → ℕ → List UInt8
  | 0, _ => []
  | n + 1, a => if m a = 0 then List.replicate (n + 1) 0 else m a :: strncpy m n (a + 1)

/-- `s` is the whole string at `a`. -/
def IsString (m : Bytes) (a : ℕ) (s : List UInt8) : Prop := 0 ∉ s ∧ holdsString m a s = true

theorem holdsString_of_bytes {m : Bytes} {a : ℕ} {s : List UInt8}
    (h : ∀ k ≤ s.length, (s ++ [0])[k]? = some (m (a + k))) : holdsString m a s = true := by
  induction s generalizing a with
  | nil =>
      have hzero := h 0 (Nat.le_refl 0)
      rw [holdsString, beq_iff_eq]
      exact (Option.some.inj hzero).symm
  | cons c s ih =>
      have hhead := h 0 (Nat.zero_le _)
      rw [holdsString, Bool.and_eq_true, beq_iff_eq]
      refine ⟨(Option.some.inj hhead).symm, ih fun k hk ↦ ?_⟩
      have hnext := h (k + 1) (Nat.succ_le_succ hk)
      rw [List.cons_append, List.getElem?_cons_succ] at hnext
      rw [hnext, Nat.add_assoc, Nat.add_comm 1]

theorem byte_ne_zero {m : Bytes} {a : ℕ} {s : List UInt8} (hs : 0 ∉ s)
    (h : holdsString m a s = true) {k : ℕ} (hk : k < s.length) : m (a + k) ≠ 0 := by
  induction s generalizing a k with
  | nil => exact absurd hk (Nat.not_lt_zero k)
  | cons c s ih =>
      rw [holdsString, Bool.and_eq_true, beq_iff_eq] at h
      cases k with
      | zero =>
          intro hzero
          exact hs (List.mem_cons.mpr (.inl (hzero.symm.trans h.1)))
      | succ k =>
          rw [show a + (k + 1) = a + 1 + k by omega]
          exact ih (fun hmem ↦ hs (List.mem_cons_of_mem c hmem)) h.2 (Nat.lt_of_succ_lt_succ hk)

/-! ### Searches -/

theorem hasPrefix_iff {m : Bytes} {a : ℕ} {s : List UInt8} :
    hasPrefix m a s = true ↔ ∀ k (hk : k < s.length), m (a + k) = s[k] := by
  induction s generalizing a with
  | nil => exact iff_of_true rfl nofun
  | cons c s ih =>
      rw [hasPrefix, Bool.and_eq_true, beq_iff_eq, ih]
      constructor
      · intro h k hk
        cases k with
        | zero => exact h.1
        | succ k =>
            rw [show a + (k + 1) = a + 1 + k by omega]
            exact h.2 k (Nat.lt_of_succ_lt_succ hk)
      · intro h
        refine ⟨h 0 (Nat.succ_pos _), fun k hk ↦ ?_⟩
        rw [show a + 1 + k = a + (k + 1) by omega]
        exact h (k + 1) (Nat.succ_lt_succ hk)

theorem strstr_isSome_iff {m : Bytes} {needle : List UInt8} {n a : ℕ} :
    (strstr m needle n a).isSome = true ↔
      ∃ k < n, hasPrefix m (a + k) needle = true ∧ ∀ j < k, m (a + j) ≠ 0 := by
  induction n generalizing a with
  | zero => exact iff_of_false nofun fun h ↦ Nat.not_lt_zero _ h.choose_spec.1
  | succ n ih =>
      have hshift : ∀ k, a + 1 + k = a + (k + 1) := fun k ↦ by omega
      rw [strstr, Nat.exists_lt_succ_left]
      split
      next h => exact iff_of_true rfl (.inl ⟨h, fun j hj ↦ absurd hj (Nat.not_lt_zero j)⟩)
      next h =>
        rw [Nat.add_zero, or_iff_right fun hfirst ↦ h hfirst.1]
        split
        next hzero =>
          refine iff_of_false nofun fun hlater ↦ ?_
          obtain ⟨k, -, -, hbefore⟩ := hlater
          exact hbefore 0 (Nat.succ_pos k) hzero
        next hzero =>
          simp only [ih, hshift, Nat.forall_lt_succ_left, Nat.add_zero]
          simp only [ne_eq, hzero, not_false_eq_true, true_and]

/-- The bytes from `a` up to `hi` decide the search: they hold the text, or a NUL. -/
def Decided (m : Bytes) (needle : List UInt8) (a hi : ℕ) : Prop :=
  (∃ k, a + k + needle.length ≤ hi ∧ hasPrefix m (a + k) needle = true) ∨
    ∃ k, a + k < hi ∧ m (a + k) = 0

section Search

variable {m m' : Bytes} {needle : List UInt8} {a hi n : ℕ}

theorem Decided.agree (h : Decided m needle a hi)
    (hagree : ∀ x, a ≤ x → x < hi → m' x = m x) : Decided m' needle a hi := by
  refine h.imp ?_ ?_
  · intro hfound
    obtain ⟨k, hk, hprefix⟩ := hfound
    refine ⟨k, hk, hasPrefix_iff.mpr fun j hj ↦ ?_⟩
    rw [hagree _ (by omega) (by omega)]
    exact hasPrefix_iff.mp hprefix j hj
  · intro hend
    obtain ⟨k, hk, hzero⟩ := hend
    exact ⟨k, hk, (hagree _ (by omega) hk).trans hzero⟩

theorem Decided.found_of_agree (h : Decided m needle a hi) (hneedle : 0 ∉ needle)
    (hagree : ∀ x, a ≤ x → x < hi → m' x = m x)
    (hfound : (strstr m needle n a).isSome = true) : (strstr m' needle n a).isSome = true := by
  obtain ⟨k, hk, hprefix, hbefore⟩ := strstr_isSome_iff.mp hfound
  -- an occurrence that ends by `hi`, and in front of which there is no NUL, is in both
  have hboth : ∀ i, i ≤ k → a + i + needle.length ≤ hi → hasPrefix m (a + i) needle = true →
      (strstr m' needle n a).isSome = true := by
    intro i hik hi' hfound'
    refine strstr_isSome_iff.mpr ⟨i, by omega, hasPrefix_iff.mpr fun j hj ↦ ?_, fun j hj ↦ ?_⟩
    · rw [hagree _ (by omega) (by omega)]
      exact hasPrefix_iff.mp hfound' j hj
    · rw [hagree _ (by omega) (by omega)]
      exact hbefore j (by omega)
  by_cases hin : a + k + needle.length ≤ hi
  · exact hboth k (Nat.le_refl k) hin hprefix
  · obtain ⟨i, hi', hfirst⟩ | ⟨z, hz, hzero⟩ := h
    · exact hboth i (by omega) hi' hfirst
    · -- the NUL is neither in front of the occurrence nor in it
      by_cases hzk : z < k
      · exact absurd hzero (hbefore z hzk)
      · exfalso
        have hbyte := hasPrefix_iff.mp hprefix (z - k) (by omega)
        rw [show a + k + (z - k) = a + z by omega, hzero] at hbyte
        apply hneedle
        rw [hbyte]
        exact List.getElem_mem _

/-- The search looks no further than it has to. -/
theorem Decided.strstr_eq (h : Decided m needle a hi) (hneedle : 0 ∉ needle)
    (hagree : ∀ x, a ≤ x → x < hi → m' x = m x) :
    (strstr m' needle n a).isSome = (strstr m needle n a).isSome := by
  rw [Bool.eq_iff_iff]
  exact ⟨(h.agree hagree).found_of_agree hneedle fun x hlo hhi ↦ (hagree x hlo hhi).symm,
    h.found_of_agree hneedle hagree⟩

/-- The bytes below `hi`, and `s` behind them, from `b` on. -/
def continued (m : Bytes) (hi b : ℕ) (s : List UInt8) : Bytes :=
  fun x ↦ if x < hi then m x else s.getD (x - b) 0

theorem continued_of_lt {b x : ℕ} {s : List UInt8} (hx : x < hi) : continued m hi b s x = m x :=
  if_pos hx

/-- With nothing but NULs from `hi` on, what is found is found in front of it. -/
theorem exists_of_found_continued {b : ℕ} (hneedle : 0 ∉ needle) (hne : needle ≠ [])
    (hfound : (strstr (continued m hi b []) needle n a).isSome = true) :
    ∃ k, a + k + needle.length ≤ hi ∧ hasPrefix m (a + k) needle = true ∧
      ∀ j < k, m (a + j) ≠ 0 := by
  obtain ⟨k, -, hprefix, hbefore⟩ := strstr_isSome_iff.mp hfound
  have hbytes := hasPrefix_iff.mp hprefix
  have hin : ∀ j (hj : j < needle.length), a + k + j < hi := by
    intro j hj
    by_contra hout
    have hbyte := hbytes j hj
    rw [continued, if_neg hout, List.getD_nil] at hbyte
    apply hneedle
    rw [hbyte]
    exact List.getElem_mem hj
  have hpos : 0 < needle.length := List.length_pos_iff.mpr hne
  have hlast := hin (needle.length - 1) (by omega)
  refine ⟨k, by omega, hasPrefix_iff.mpr fun j hj ↦ ?_, fun j hj ↦ ?_⟩
  · rw [← hbytes j hj, continued_of_lt (hin j hj)]
  · have hbyte := hbefore j hj
    rwa [continued_of_lt (by omega)] at hbyte

/-- Where the bytes decide, the text is found if they hold it in front of every NUL. -/
theorem Decided.found_iff (h : Decided m needle a hi) (hneedle : 0 ∉ needle) (hne : needle ≠ [])
    (hroom : hi ≤ a + n) :
    (strstr m needle n a).isSome = true ↔
      ∃ k, a + k + needle.length ≤ hi ∧ hasPrefix m (a + k) needle = true ∧
        ∀ j < k, m (a + j) ≠ 0 := by
  have hpos : 0 < needle.length := List.length_pos_iff.mpr hne
  constructor
  · intro hfound
    rw [← h.strstr_eq hneedle fun x _ hhi ↦ continued_of_lt (b := hi) (s := []) hhi] at hfound
    exact exists_of_found_continued hneedle hne hfound
  · intro hfound
    obtain ⟨k, hk, hprefix, hbefore⟩ := hfound
    exact strstr_isSome_iff.mpr ⟨k, by omega, hprefix, hbefore⟩

/-- Where the bytes do not decide the search, what follows them does. -/
theorem strstr_continued (h : ¬ Decided m needle a hi) (hneedle : 0 ∉ needle)
    (hne : needle ≠ []) (hroom : max a hi < a + n) :
    (strstr (continued m hi (max a hi) []) needle n a).isSome = false ∧
      (strstr (continued m hi (max a hi) needle) needle n a).isSome = true := by
  constructor
  · rw [← Bool.not_eq_true]
    intro hfound
    obtain ⟨k, hk, hprefix, -⟩ := exists_of_found_continued hneedle hne hfound
    exact h (.inl ⟨k, hk, hprefix⟩)
  · refine strstr_isSome_iff.mpr ⟨max a hi - a, by omega, hasPrefix_iff.mpr fun j hj ↦ ?_,
      fun j hj hzero ↦ ?_⟩
    · have hat : a + (max a hi - a) + j = max a hi + j := by omega
      rw [hat, continued, if_neg (by omega), Nat.add_sub_cancel_left,
        List.getD_eq_getElem?_getD, List.getElem?_eq_getElem hj, Option.getD_some]
    · rw [continued_of_lt (by omega)] at hzero
      exact h (.inr ⟨j, by omega, hzero⟩)

end Search

theorem strncpy_length (m : Bytes) (n a : ℕ) : (strncpy m n a).length = n := by
  induction n generalizing a with
  | zero => rfl
  | succ n ih =>
      rw [strncpy]
      split
      next => exact List.length_replicate
      next => rw [List.length_cons, ih]

/-- A copy has a NUL exactly if it comes to the end of the string. -/
theorem zero_mem_strncpy {m : Bytes} {n a : ℕ} :
    0 ∈ strncpy m n a ↔ ∃ k < n, m (a + k) = 0 := by
  induction n generalizing a with
  | zero => exact iff_of_false List.not_mem_nil fun h ↦ Nat.not_lt_zero _ h.choose_spec.1
  | succ n ih =>
      rw [strncpy, Nat.exists_lt_succ_left]
      split
      next h => exact iff_of_true List.mem_cons_self (.inl h)
      next h =>
        have hshift : ∀ k, a + 1 + k = a + (k + 1) := fun k ↦ by omega
        rw [List.mem_cons, ih]
        simp only [hshift, Nat.add_zero, h, Ne.symm h, false_or]

/-- A copy holds a string with its NUL exactly if it was made of that string and is long enough. -/
theorem prefix_strncpy {m : Bytes} {s : List UInt8} (hs : 0 ∉ s) {n a : ℕ} :
    s ++ [0] <+: strncpy m n a ↔ holdsString m a s = true ∧ s.length < n := by
  induction s generalizing n a with
  | nil =>
      cases n with
      | zero => exact iff_of_false (fun h ↦ absurd h.length_le (by simp [strncpy])) (by simp)
      | succ n =>
          rw [strncpy, holdsString, List.nil_append, beq_iff_eq]
          split
          next h =>
            rw [List.replicate_succ, List.cons_prefix_cons]
            exact iff_of_true ⟨rfl, List.nil_prefix⟩ ⟨h, Nat.succ_pos n⟩
          next h =>
            rw [List.cons_prefix_cons]
            exact iff_of_false (fun hp ↦ h hp.1.symm) fun hm ↦ h hm.1
  | cons c s ih =>
      have hc : c ≠ 0 := fun h ↦ hs (h ▸ List.mem_cons_self)
      have htail : 0 ∉ s := fun h ↦ hs (List.mem_cons_of_mem c h)
      cases n with
      | zero => exact iff_of_false (fun h ↦ absurd h.length_le (by simp [strncpy])) (by simp)
      | succ n =>
          rw [strncpy, holdsString, List.cons_append, Bool.and_eq_true, beq_iff_eq,
            List.length_cons, Nat.add_lt_add_iff_right]
          split
          next h =>
            rw [List.replicate_succ, List.cons_prefix_cons]
            exact iff_of_false (fun hp ↦ hc hp.1) fun hm ↦ hc (hm.1.1.symm.trans h)
          next h => rw [List.cons_prefix_cons, ih htail, eq_comm, and_assoc]

def ascii (s : List Char) : List UInt8 := s.map fun c ↦ UInt8.ofNat c.toNat

/-- `snprintf` of a text: the length of the whole text, and the string that the buffer holds. -/
def snprintf (size : ℕ) (text : List UInt8) : ℕ × List UInt8 := (text.length, text.take (size - 1))

/-- `%u`. -/
def decimal (n : ℕ) : List UInt8 := ascii (Nat.toDigits 10 n)

theorem ascii_inj {s t : List Char} (hs : ∀ c ∈ s, c.toNat < 256) (ht : ∀ c ∈ t, c.toNat < 256)
    (h : ascii s = ascii t) : s = t := by
  have hback : ∀ l : List Char, (∀ c ∈ l, c.toNat < 256) →
      (ascii l).map (fun b ↦ Char.ofNat b.toNat) = l := by
    intro l hl
    have hchar : ∀ c ∈ l, Char.ofNat (UInt8.ofNat c.toNat).toNat = id c := by
      intro c hc
      rw [UInt8.toNat_ofNat_of_lt' (hl c hc), Char.ofNat_toNat, id]
    unfold ascii
    rw [List.map_map]
    exact (List.map_congr_left hchar).trans (List.map_id l)
  rw [← hback s hs, h, hback t ht]

theorem decimal_inj {n k : ℕ} : decimal n = decimal k ↔ n = k := by
  have hdigits : ∀ n, ∀ c ∈ Nat.toDigits 10 n, c.toNat < 256 := by
    intro n c hc
    have hdigit := Nat.isDigit_of_mem_toDigits (by decide) (by decide) hc
    rw [Char.isDigit, Bool.and_eq_true, decide_eq_true_eq, decide_eq_true_eq,
      UInt32.le_iff_toNat_le] at hdigit
    have hnine : c.toNat ≤ 57 := hdigit.2
    omega
  constructor
  · intro h
    rw [← Nat.ofDigitChars_ten_toDigits (n := n), ascii_inj (hdigits n) (hdigits k) h,
      Nat.ofDigitChars_ten_toDigits]
  · intro h
    rw [h]

theorem decimal_length_le {n k : ℕ} (hk : 0 < k) (h : n < 10 ^ k) : (decimal n).length ≤ k := by
  unfold decimal ascii
  rw [List.length_map]
  exact (Nat.length_toDigits_le_iff (by decide) hk).mpr h

end Divers.Library
