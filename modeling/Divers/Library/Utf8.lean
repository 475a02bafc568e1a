import Mathlib.Data.List.Forall2
import Mathlib.Data.Nat.Notation
import Mathlib.Tactic.Common

/-!
# UTF-8 with errors

A byte string read as UTF-8, where whatever is no character is shown as U+FFFD.  What is shown is at
least as long as the string, and is the string itself exactly if that is the UTF-8 of some text.
-/

namespace Divers.Library.Utf8

/-! ## Sequences -/

/-- A byte between two bounds. -/
def InRange (range : ℕ × ℕ) (b : UInt8) : Prop := range.1 ≤ b.toNat ∧ b.toNat ≤ range.2

instance {range : ℕ × ℕ} : DecidablePred (InRange range) :=
  fun _ ↦ inferInstanceAs (Decidable (_ ∧ _))

def cont : ℕ × ℕ := (0x80, 0xBF)

/-- The ranges of the bytes behind `lead` in a character, `none` if no character begins with it. -/
def tails (lead : UInt8) : Option (List (ℕ × ℕ)) :=
  let b := lead.toNat
  if b < 0x80 then some []
  else if b < 0xC2 then none
  else if b < 0xE0 then some [cont]
  else if b = 0xE0 then some [(0xA0, 0xBF), cont]
  else if b = 0xED then some [(0x80, 0x9F), cont]    -- no surrogates
  else if b < 0xF0 then some [cont, cont]
  else if b = 0xF0 then some [(0x90, 0xBF), cont, cont]
  else if b < 0xF4 then some [cont, cont, cont]
  else if b = 0xF4 then some [(0x80, 0x8F), cont, cont]
  else none

/-- The bytes that lie in the ranges, one in each, up to the first that does not. -/
def within : List (ℕ × ℕ) → List UInt8 → List UInt8
  | range :: ranges, b :: s => if InRange range b then b :: within ranges s else []
  | _, _ => []

/-- U+FFFD. -/
def replacement : List UInt8 := [0xEF, 0xBF, 0xBD]

/-- What is shown for the sequence that begins with `b`, and how many bytes of `s` are in it. -/
def sequence (b : UInt8) (s : List UInt8) : List UInt8 × ℕ :=
  match tails b with
  | none => (replacement, 0)
  | some ranges =>
      let tail := within ranges s
      (if tail.length = ranges.length then b :: tail else replacement, tail.length)

/-- What is shown behind the first bytes, of which there are `skip`. -/
def lossyFrom : ℕ → List UInt8 → List UInt8
  | _, [] => []
  | skip + 1, _ :: s => lossyFrom skip s
  | 0, b :: s => (sequence b s).1 ++ lossyFrom (sequence b s).2 s

/-- `String::from_utf8_lossy`, as bytes. -/
def fromUtf8Lossy (s : List UInt8) : List UInt8 := lossyFrom 0 s

/-- `s` is the UTF-8 of some text. -/
def IsText (s : List UInt8) : Prop := ∃ text : List Char, text.flatMap String.utf8EncodeChar = s

/-- `b :: tail` is a character. -/
def WellFormed (b : UInt8) (tail : List UInt8) : Prop :=
  ∃ ranges, tails b = some ranges ∧ List.Forall₂ InRange ranges tail

variable {b : UInt8} {s tail : List UInt8} {ranges : List (ℕ × ℕ)}

/-! ## Characters -/

theorem toNat_ofNat {n : ℕ} (hn : n < 256) : (UInt8.ofNat n).toNat = n :=
  UInt8.toNat_ofNat_of_lt' hn

theorem inRange_ofNat {lo hi n : ℕ} (hn : n < 256) (hlo : lo ≤ n) (hhi : n ≤ hi) :
    InRange (lo, hi) (UInt8.ofNat n) := by
  rw [InRange, toNat_ofNat hn]
  exact ⟨hlo, hhi⟩

theorem inRange_cont (n : ℕ) : InRange cont (UInt8.ofNat (n % 0x40 + 0x80)) := by
  have := Nat.mod_lt n (show 0 < 0x40 by decide)
  exact inRange_ofNat (by omega) (by omega) (by omega)

theorem wellFormed_two {v : ℕ} (hlo : 0x7F < v) (hhi : v ≤ 0x7FF) :
    WellFormed (UInt8.ofNat (v / 64 % 0x20 + 0xC0)) [UInt8.ofNat (v % 0x40 + 0x80)] := by
  refine ⟨[cont], ?_, .cons (inRange_cont _) .nil⟩
  unfold tails
  rw [toNat_ofNat (by omega), if_neg (by omega), if_neg (by omega),
    if_pos (by omega)]

theorem wellFormed_three {v : ℕ} (hlo : 0x7FF < v) (hhi : v ≤ 0xFFFF)
    (hvalid : v < 0xD800 ∨ 0xDFFF < v) :
    WellFormed (UInt8.ofNat (v / 4096 % 0x10 + 0xE0))
      [UInt8.ofNat (v / 64 % 0x40 + 0x80), UInt8.ofNat (v % 0x40 + 0x80)] := by
  have hsecond := Nat.mod_lt (v / 64) (show 0 < 0x40 by decide)
  unfold WellFormed tails
  rw [toNat_ofNat (by omega), if_neg (by omega), if_neg (by omega),
    if_neg (by omega)]
  split_ifs
  · exact ⟨_, rfl, .cons (inRange_ofNat (by omega) (by omega) (by omega))
      (.cons (inRange_cont _) .nil)⟩
  · exact ⟨_, rfl, .cons (inRange_ofNat (by omega) (by omega) (by omega))
      (.cons (inRange_cont _) .nil)⟩
  · exact ⟨_, rfl, .cons (inRange_cont _) (.cons (inRange_cont _) .nil)⟩
  all_goals omega

theorem wellFormed_four {v : ℕ} (hlo : 0xFFFF < v) (hhi : v < 0x110000) :
    WellFormed (UInt8.ofNat (v / 262144 % 0x08 + 0xF0))
      [UInt8.ofNat (v / 4096 % 0x40 + 0x80), UInt8.ofNat (v / 64 % 0x40 + 0x80),
        UInt8.ofNat (v % 0x40 + 0x80)] := by
  have hsecond := Nat.mod_lt (v / 4096) (show 0 < 0x40 by decide)
  unfold WellFormed tails
  rw [toNat_ofNat (by omega), if_neg (by omega), if_neg (by omega),
    if_neg (by omega), if_neg (by omega), if_neg (by omega), if_neg (by omega)]
  split_ifs
  · exact ⟨_, rfl, .cons (inRange_ofNat (by omega) (by omega) (by omega))
      (.cons (inRange_cont _) (.cons (inRange_cont _) .nil))⟩
  · exact ⟨_, rfl, .cons (inRange_cont _) (.cons (inRange_cont _) (.cons (inRange_cont _) .nil))⟩
  · exact ⟨_, rfl, .cons (inRange_ofNat (by omega) (by omega) (by omega))
      (.cons (inRange_cont _) (.cons (inRange_cont _) .nil))⟩
  · omega

/-- The characters are encoded as these sequences. -/
theorem encode_wellFormed (c : Char) :
    ∃ b tail, String.utf8EncodeChar c = b :: tail ∧ WellFormed b tail := by
  have hvalid : c.val.toNat < 0xD800 ∨ 0xDFFF < c.val.toNat ∧ c.val.toNat < 0x110000 := c.valid
  unfold String.utf8EncodeChar
  dsimp only
  generalize c.val.toNat = v at hvalid ⊢
  split_ifs with hone htwo hthree
  · refine ⟨_, _, rfl, [], ?_, .nil⟩
    unfold tails
    rw [toNat_ofNat (by omega), if_pos (by omega)]
  · exact ⟨_, _, rfl, wellFormed_two (by omega) htwo⟩
  · exact ⟨_, _, rfl, wellFormed_three (by omega) hthree (by omega)⟩
  · exact ⟨_, _, rfl, wellFormed_four (by omega) (by omega)⟩

theorem exists_char {v : ℕ} (hvalid : v < 0xD800 ∨ 0xDFFF < v ∧ v < 0x110000) :
    ∃ c : Char, c.val.toNat = v :=
  ⟨Char.ofNatAux v hvalid, rfl⟩

theorem ofNat_eq {n : ℕ} {b : UInt8} (h : n = b.toNat) : UInt8.ofNat n = b := by
  rw [h, UInt8.ofNat_toNat]

theorem exists_two {b c : UInt8} (hlo : 0xC2 ≤ b.toNat) (hhi : b.toNat < 0xE0)
    (hc : InRange cont c) : ∃ ch, String.utf8EncodeChar ch = [b, c] := by
  have hcont : 0x80 ≤ c.toNat ∧ c.toNat ≤ 0xBF := hc
  obtain ⟨ch, hch⟩ := exists_char (v := (b.toNat - 0xC0) * 64 + (c.toNat - 0x80)) (by omega)
  refine ⟨ch, ?_⟩
  unfold String.utf8EncodeChar
  rw [hch, if_neg (by omega), if_pos (by omega), ofNat_eq (b := b) (by omega),
    ofNat_eq (b := c) (by omega)]

theorem exists_three {b c d : UInt8} (hlo : 0xE0 ≤ b.toNat) (hhi : b.toNat < 0xF0)
    (hc : InRange cont c) (hfirst : b.toNat = 0xE0 → 0xA0 ≤ c.toNat)
    (hsurrogate : b.toNat = 0xED → c.toNat ≤ 0x9F) (hd : InRange cont d) :
    ∃ ch, String.utf8EncodeChar ch = [b, c, d] := by
  have hcont : 0x80 ≤ c.toNat ∧ c.toNat ≤ 0xBF := hc
  have hcont' : 0x80 ≤ d.toNat ∧ d.toNat ≤ 0xBF := hd
  obtain ⟨ch, hch⟩ := exists_char
    (v := (b.toNat - 0xE0) * 4096 + (c.toNat - 0x80) * 64 + (d.toNat - 0x80)) (by omega)
  refine ⟨ch, ?_⟩
  unfold String.utf8EncodeChar
  rw [hch, if_neg (by omega), if_neg (by omega), if_pos (by omega), ofNat_eq (b := b) (by omega),
    ofNat_eq (b := c) (by omega), ofNat_eq (b := d) (by omega)]

theorem exists_four {b c d e : UInt8} (hlo : 0xF0 ≤ b.toNat) (hhi : b.toNat ≤ 0xF4)
    (hc : InRange cont c) (hfirst : b.toNat = 0xF0 → 0x90 ≤ c.toNat)
    (hlast : b.toNat = 0xF4 → c.toNat ≤ 0x8F) (hd : InRange cont d) (he : InRange cont e) :
    ∃ ch, String.utf8EncodeChar ch = [b, c, d, e] := by
  have hcont : 0x80 ≤ c.toNat ∧ c.toNat ≤ 0xBF := hc
  have hcont' : 0x80 ≤ d.toNat ∧ d.toNat ≤ 0xBF := hd
  have hcont'' : 0x80 ≤ e.toNat ∧ e.toNat ≤ 0xBF := he
  obtain ⟨ch, hch⟩ := exists_char (v := (b.toNat - 0xF0) * 262144 + (c.toNat - 0x80) * 4096 +
    (d.toNat - 0x80) * 64 + (e.toNat - 0x80)) (by omega)
  refine ⟨ch, ?_⟩
  unfold String.utf8EncodeChar
  rw [hch, if_neg (by omega), if_neg (by omega), if_neg (by omega), ofNat_eq (b := b) (by omega),
    ofNat_eq (b := c) (by omega), ofNat_eq (b := d) (by omega), ofNat_eq (b := e) (by omega)]

/-- And nothing else is one. -/
theorem WellFormed.exists_char (h : WellFormed b tail) :
    ∃ c, String.utf8EncodeChar c = b :: tail := by
  obtain ⟨ranges, hranges, hall⟩ := h
  unfold tails at hranges
  dsimp only at hranges
  split_ifs at hranges
  · cases hranges
    cases hall
    obtain ⟨c, hc⟩ := Utf8.exists_char (v := b.toNat) (by omega)
    refine ⟨c, ?_⟩
    unfold String.utf8EncodeChar
    rw [hc, if_pos (by omega), UInt8.ofNat_toNat]
  all_goals cases hranges
  · obtain - | ⟨hc, - | -⟩ := hall
    exact exists_two (by omega) (by omega) hc
  · obtain - | ⟨hc, - | ⟨hd, - | -⟩⟩ := hall
    exact exists_three (by omega) (by omega) ⟨Nat.le_trans (by decide) hc.1, hc.2⟩
      (fun _ ↦ hc.1) (by omega) hd
  · obtain - | ⟨hc, - | ⟨hd, - | -⟩⟩ := hall
    exact exists_three (by omega) (by omega) ⟨hc.1, Nat.le_trans hc.2 (by decide)⟩ (by omega)
      (fun _ ↦ hc.2) hd
  · obtain - | ⟨hc, - | ⟨hd, - | -⟩⟩ := hall
    exact exists_three (by omega) (by omega) hc (by omega) (by omega) hd
  · obtain - | ⟨hc, - | ⟨hd, - | ⟨he, - | -⟩⟩⟩ := hall
    exact exists_four (by omega) (by omega) ⟨Nat.le_trans (by decide) hc.1, hc.2⟩
      (fun _ ↦ hc.1) (by omega) hd he
  · obtain - | ⟨hc, - | ⟨hd, - | ⟨he, - | -⟩⟩⟩ := hall
    exact exists_four (by omega) (by omega) hc (by omega) (by omega) hd he
  · obtain - | ⟨hc, - | ⟨hd, - | ⟨he, - | -⟩⟩⟩ := hall
    exact exists_four (by omega) (by omega) ⟨hc.1, Nat.le_trans hc.2 (by decide)⟩ (by omega)
      (fun _ ↦ hc.2) hd he

/-! ## What is shown -/

theorem within_append (h : List.Forall₂ InRange ranges tail) (s : List UInt8) :
    within ranges (tail ++ s) = tail := by
  induction h with
  | nil => cases s <;> rfl
  | cons hb _ ih => rw [List.cons_append, within, if_pos hb, ih]

/-- The bytes are the beginning of `s`, and if there is one for each range they fill these. -/
theorem within_spec (ranges : List (ℕ × ℕ)) (s : List UInt8) :
    within ranges s <+: s ∧ (within ranges s).length ≤ ranges.length ∧
      ((within ranges s).length = ranges.length →
        List.Forall₂ InRange ranges (within ranges s)) := by
  induction ranges generalizing s with
  | nil =>
      have hnil : within [] s = [] := by cases s <;> rfl
      rw [hnil]
      exact ⟨List.nil_prefix, Nat.le_refl _, fun _ ↦ .nil⟩
  | cons range ranges ih =>
      cases s with
      | nil =>
          refine ⟨List.nil_prefix, Nat.zero_le _, fun hlength ↦ absurd hlength ?_⟩
          simp [within]
      | cons b s =>
          rw [within]
          obtain ⟨hbegins, hle, hfull⟩ := ih s
          split_ifs with hb
          · exact ⟨(List.prefix_cons_inj b).mpr hbegins, Nat.succ_le_succ hle,
              fun hlength ↦ .cons hb (hfull (Nat.succ.inj hlength))⟩
          · exact ⟨List.nil_prefix, Nat.zero_le _, fun hlength ↦ absurd hlength (by simp)⟩

theorem tails_length (h : tails b = some ranges) : ranges.length ≤ 3 := by
  unfold tails at h
  dsimp only at h
  split_ifs at h
  all_goals
    cases h
    decide

theorem sequence_wellFormed (h : WellFormed b tail) (s : List UInt8) :
    sequence b (tail ++ s) = (b :: tail, tail.length) := by
  obtain ⟨ranges, hranges, hall⟩ := h
  rw [sequence, hranges]
  simp only [within_append hall, hall.length_eq, if_true]

/-- Where no character begins, the error has up to three bytes. -/
theorem sequence_error (h : ∀ tail, tail <+: s → ¬ WellFormed b tail) :
    ∃ n ≤ 2, n ≤ s.length ∧ sequence b s = (replacement, n) := by
  cases hranges : tails b with
  | none => exact ⟨0, by omega, Nat.zero_le _, by rw [sequence, hranges]⟩
  | some ranges =>
      obtain ⟨hbegins, hle, hfull⟩ := within_spec ranges s
      have hlength : (within ranges s).length ≠ ranges.length := fun hlength ↦
        h _ hbegins ⟨ranges, hranges, hfull hlength⟩
      have hthree := tails_length hranges
      refine ⟨_, by omega, hbegins.length_le, ?_⟩
      rw [sequence, hranges]
      simp only [if_neg hlength]

theorem lossyFrom_eq (skip : ℕ) (s : List UInt8) :
    lossyFrom skip s = fromUtf8Lossy (s.drop skip) := by
  induction skip generalizing s with
  | zero => rfl
  | succ skip ih =>
      cases s with
      | nil => rfl
      | cons b s => exact ih s

/-- A character is shown as it is. -/
theorem fromUtf8Lossy_char (h : WellFormed b tail) (s : List UInt8) :
    fromUtf8Lossy (b :: tail ++ s) = b :: tail ++ fromUtf8Lossy s := by
  rw [List.cons_append, fromUtf8Lossy, lossyFrom, sequence_wellFormed h, lossyFrom_eq,
    List.drop_left]

theorem fromUtf8Lossy_error {n : ℕ} (h : sequence b s = (replacement, n)) :
    fromUtf8Lossy (b :: s) = replacement ++ fromUtf8Lossy (s.drop n) := by
  rw [fromUtf8Lossy, lossyFrom, h, lossyFrom_eq]

-- a character that is cut off is one error
example : fromUtf8Lossy [0x41, 0xF0, 0x9F, 0x98, 0x42] = [0x41, 0xEF, 0xBF, 0xBD, 0x42] := by
  decide

/-- Induction over the sequences. -/
theorem sequence_induction {P : List UInt8 → Prop} (hnil : P [])
    (hchar : ∀ b tail s, WellFormed b tail → P s → P (b :: tail ++ s))
    (herror : ∀ b s n, (∀ tail, tail <+: s → ¬ WellFormed b tail) → n ≤ 2 → n ≤ s.length →
      sequence b s = (replacement, n) → P (s.drop n) → P (b :: s)) (s : List UInt8) : P s := by
  induction hlength : s.length using Nat.strongRecOn generalizing s with
  | ind k ih =>
      cases s with
      | nil => exact hnil
      | cons b s =>
          have hk : s.length < k := by rw [← hlength, List.length_cons]; exact Nat.lt_succ_self _
          by_cases hwell : ∃ tail, tail <+: s ∧ WellFormed b tail
          · obtain ⟨tail, ⟨rest, rfl⟩, hwell⟩ := hwell
            rw [List.length_append] at hk
            exact hchar b tail rest hwell (ih rest.length (by omega) rest rfl)
          · have hnone : ∀ tail, tail <+: s → ¬ WellFormed b tail := fun tail hbegins htail ↦
              hwell ⟨tail, hbegins, htail⟩
            obtain ⟨n, hn, hle, herr⟩ := sequence_error hnone
            have hdrop : (s.drop n).length < k := by rw [List.length_drop]; omega
            exact herror b s n hnone hn hle herr (ih _ hdrop _ rfl)

theorem length_le_fromUtf8Lossy (s : List UInt8) : s.length ≤ (fromUtf8Lossy s).length := by
  induction s using sequence_induction with
  | hnil => exact Nat.le_refl 0
  | hchar b tail s hwell ih =>
      rw [fromUtf8Lossy_char hwell, List.length_append, List.length_append]
      omega
  | herror b s n _ hn hle herr ih =>
      rw [fromUtf8Lossy_error herr, List.length_append, List.length_cons]
      rw [List.length_drop] at ih
      have hthree : replacement.length = 3 := rfl
      omega

/-! ## Texts -/

theorem IsText.fromUtf8Lossy_eq (h : IsText s) : fromUtf8Lossy s = s := by
  obtain ⟨text, rfl⟩ := h
  induction text with
  | nil => rfl
  | cons c text ih =>
      obtain ⟨b, tail, hencode, hwell⟩ := encode_wellFormed c
      rw [List.flatMap_cons, hencode, fromUtf8Lossy_char hwell, ih]

/-- What is shown is the string itself exactly if there is no error in it. -/
theorem fromUtf8Lossy_eq_self_iff (s : List UInt8) : fromUtf8Lossy s = s ↔ IsText s := by
  refine ⟨fun h ↦ ?_, IsText.fromUtf8Lossy_eq⟩
  induction s using sequence_induction with
  | hnil => exact ⟨[], rfl⟩
  | hchar b tail s hwell ih =>
      rw [fromUtf8Lossy_char hwell, List.append_cancel_left_eq] at h
      obtain ⟨c, hencode⟩ := hwell.exists_char
      obtain ⟨text, htext⟩ := ih h
      exact ⟨c :: text, by rw [List.flatMap_cons, hencode, htext]⟩
  | herror b s n hnone hn hle herr ih =>
      -- U+FFFD would be there itself, and that is a character
      rw [fromUtf8Lossy_error herr, replacement, List.cons_append, List.cons.injEq] at h
      have hwell : WellFormed 0xEF [0xBF, 0xBD] :=
        ⟨[cont, cont], rfl, .cons (by decide) (.cons (by decide) .nil)⟩
      exact absurd (h.1 ▸ hwell) (hnone _ ⟨_, h.2⟩)

/-- `s` is shown as a string it begins with exactly if it has no more than that: what is shown is
never shorter than `s`. -/
theorem fromUtf8Lossy_eq_prefix_iff {t : List UInt8} (h : t <+: s) :
    fromUtf8Lossy s = t ↔ s.length ≤ t.length ∧ IsText t := by
  constructor
  · intro heq
    have hle := length_le_fromUtf8Lossy s
    rw [heq] at hle
    have hfull : t = s := h.eq_of_length_le hle
    rw [← hfull] at heq
    exact ⟨hle, (fromUtf8Lossy_eq_self_iff t).mp heq⟩
  · intro ht
    rw [← h.eq_of_length_le ht.1]
    exact ht.2.fromUtf8Lossy_eq

instance : DecidablePred IsText := fun s ↦ decidable_of_iff _ (fromUtf8Lossy_eq_self_iff s)

end Divers.Library.Utf8
