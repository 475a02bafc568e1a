import Mathlib.Algebra.Order.Group.Nat
import Mathlib.Data.List.DropRight
import Mathlib.Tactic.Common

/-!
# Text input of C

`fgets` takes a line from what is left of a stream, and `scanf` runs a format over a string: it
hands out the conversions up to the first directive that fails.  A string is the list of its bytes,
without the NUL.
-/

namespace Divers.Library

def isSpace (c : UInt8) : Bool := c == 32 || (9 ≤ c && c ≤ 13)

/-! ## Lines -/

/-- At most `n` bytes, up to the first newline. -/
def takeLine : ℕ → List UInt8 → List UInt8
  | 0, _ => []
  | _ + 1, [] => []
  | n + 1, c :: s => if c = 10 then [c] else c :: takeLine n s

/-- `fgets` with a buffer of `size` bytes: the line and what it leaves of the stream. -/
def fgets (size : ℕ) (s : List UInt8) : Option (List UInt8 × List UInt8) :=
  if s = [] then none
  else some (takeLine (size - 1) s, s.drop (takeLine (size - 1) s).length)

/-- What the string functions see of an array. -/
def cString (s : List UInt8) : List UInt8 := s.takeWhile (· != 0)

/-! ## Numbers -/

def hexValue (c : UInt8) : Option ℕ :=
  if 48 ≤ c ∧ c ≤ 57 then some (c.toNat - 48)
  else if 97 ≤ c ∧ c ≤ 102 then some (c.toNat - 87)
  else if 65 ≤ c ∧ c ≤ 70 then some (c.toNat - 55)
  else none

def isHexDigit (c : UInt8) : Bool := (hexValue c).isSome

def hexNumber (digits : List UInt8) : ℕ :=
  digits.foldl (fun n c ↦ 16 * n + (hexValue c).getD 0) 0

/-- The `0x` before a number. -/
def withoutPrefix : List UInt8 → List UInt8
  | 48 :: c :: s => if c = 120 ∨ c = 88 then s else 48 :: c :: s
  | s => s

/-- `strtoul` of 64 bits. -/
def toUnsigned (negative : Bool) (digits : List UInt8) : ℕ :=
  if 2 ^ 64 ≤ hexNumber digits then 2 ^ 64 - 1
  else if negative then (2 ^ 64 - hexNumber digits) % 2 ^ 64
  else hexNumber digits

/-! ## Formats -/

inductive Directive
  | blank
  | lit (c : UInt8)
  | hex                   -- `%x` and `%p`
  | noneOf (c : UInt8)    -- `%[^c]`
  | word                  -- `%s`

inductive Conversion
  | number (n : ℕ)
  | text (s : List UInt8)

namespace Conversion

def toNat : Conversion → ℕ
  | number n => n
  | text _ => 0

def chars : Conversion → List UInt8
  | number _ => []
  | text s => s

end Conversion

/-- The longest prefix of bytes with `p`, if there is one. -/
def scanText (p : UInt8 → Bool) (s : List UInt8) : Option (List Conversion × List UInt8) :=
  if s.takeWhile p = [] then none else some ([.text (s.takeWhile p)], s.dropWhile p)

def scanHex (s : List UInt8) : Option (List Conversion × List UInt8) :=
  let unsigned := if s.head? = some 45 ∨ s.head? = some 43 then s.tail else s
  let body := withoutPrefix unsigned
  let digits := body.takeWhile isHexDigit
  if digits = [] then none
  else some ([.number (toUnsigned (s.head? == some 45) digits)], body.dropWhile isHexDigit)

def Directive.step : Directive → List UInt8 → Option (List Conversion × List UInt8)
  | blank, s => some ([], s.dropWhile isSpace)
  | lit c, s => if s.head? = some c then some ([], s.tail) else none
  | hex, s => scanHex (s.dropWhile isSpace)
  | noneOf c, s => scanText (· != c) s
  | word, s => scanText (fun c ↦ !isSpace c) (s.dropWhile isSpace)

def scanf : List Directive → List UInt8 → List Conversion
  | [], _ => []
  | d :: fmt, s =>
      match d.step s with
      | none => []
      | some (conversions, s) => conversions ++ scanf fmt s

/-! ## What a text makes a directive do -/

variable {p : UInt8 → Bool} {s t rest digits : List UInt8} {c : UInt8} {fmt : List Directive}

theorem takeWhile_stop (h : ∀ a ∈ t, p a) (hstop : p c = false) :
    (t ++ c :: rest).takeWhile p = t := by
  rw [List.takeWhile_append_of_pos h, List.takeWhile_cons_of_neg (by simp [hstop]), List.append_nil]

theorem dropWhile_stop (h : ∀ a ∈ t, p a) (hstop : p c = false) :
    (t ++ c :: rest).dropWhile p = c :: rest := by
  rw [List.dropWhile_append_of_pos h, List.dropWhile_cons_of_neg (by simp [hstop])]

theorem all_ne (h : c ∉ t) : ∀ a ∈ t, (a != c) = true := by
  intro a ha
  simp only [bne_iff_ne]
  intro hac
  exact h (hac ▸ ha)

theorem fgets_line {size : ℕ} (hline : ∀ a ∈ s, a ≠ 10) (hsize : s.length + 1 < size) :
    fgets size (s ++ 10 :: rest) = some (s ++ [10], rest) := by
  have htake : ∀ n, s.length < n → takeLine n (s ++ 10 :: rest) = s ++ [10] := by
    clear hsize
    induction s with
    | nil =>
        intro n hn
        cases n with
        | zero => exact absurd hn (Nat.lt_irrefl 0)
        | succ n => rfl
    | cons a s ih =>
        intro n hn
        cases n with
        | zero => exact absurd hn (Nat.not_lt_zero _)
        | succ n =>
            rw [List.cons_append, takeLine, if_neg (hline a List.mem_cons_self),
              ih (fun b hb ↦ hline b (List.mem_cons_of_mem a hb)) n (by simpa using hn),
              List.cons_append]
  rw [fgets, if_neg (by simp), htake (size - 1) (by omega)]
  simp

/-- Letters and digits, and nothing that a number could start or go on with. -/
theorem isHexDigit_toNat (h : isHexDigit c) :
    (48 ≤ c.toNat ∧ c.toNat ≤ 57) ∨ (65 ≤ c.toNat ∧ c.toNat ≤ 70) ∨
      (97 ≤ c.toNat ∧ c.toNat ≤ 102) := by
  unfold isHexDigit hexValue at h
  simp only [UInt8.le_iff_toNat_le] at h
  split at h
  next hdigit => exact Or.inl hdigit
  next =>
    split at h
    next hlower => exact Or.inr (Or.inr hlower)
    next =>
      split at h
      next hupper => exact Or.inr (Or.inl hupper)
      next => cases h

theorem isSpace_toNat (h : isSpace c) : c.toNat ≤ 32 := by
  simp only [isSpace, Bool.or_eq_true, beq_iff_eq, Bool.and_eq_true, decide_eq_true_eq,
    UInt8.le_iff_toNat_le] at h
  obtain rfl | h := h
  · decide
  · exact Nat.le_trans h.2 (by decide)

theorem isSpace_eq_false (h : 32 < c.toNat) : isSpace c = false := by
  by_contra hc
  have := isSpace_toNat (by simpa using hc)
  omega

theorem scanf_cons {d : Directive} {conversions : List Conversion}
    (h : d.step s = some (conversions, rest)) :
    scanf (d :: fmt) s = conversions ++ scanf fmt rest := by
  rw [scanf, h]

theorem scanf_cons_none {d : Directive} (h : d.step s = none) : scanf (d :: fmt) s = [] := by
  rw [scanf, h]

theorem step_blank (h : ∀ a ∈ t, isSpace a) (hstop : isSpace c = false) :
    Directive.blank.step (t ++ c :: rest) = some ([], c :: rest) := by
  rw [Directive.step, dropWhile_stop h hstop]

theorem step_lit : (Directive.lit c).step (c :: rest) = some ([], rest) := by
  simp [Directive.step]

theorem isHexDigit_ne (h : isHexDigit c) {d : UInt8} (hd : isHexDigit d = false) : c ≠ d := by
  intro heq
  rw [heq, hd] at h
  cases h

/-- Digits do not begin with `0x`, nor does a digit with what ends them. -/
theorem withoutPrefix_digits (hne : digits ≠ []) (h : ∀ a ∈ digits, isHexDigit a)
    (hx : c ≠ 120 ∧ c ≠ 88) (rest : List UInt8) :
    withoutPrefix (digits ++ c :: rest) = digits ++ c :: rest := by
  unfold withoutPrefix
  split
  next e s heq =>
    rw [if_neg, heq]
    intro hletter
    obtain _ | ⟨d, _ | ⟨d', digits⟩⟩ := digits
    · exact hne rfl
    · obtain ⟨-, heq⟩ := List.cons.inj heq
      obtain ⟨rfl, -⟩ := List.cons.inj heq
      exact hletter.elim hx.1 hx.2
    · obtain ⟨-, heq⟩ := List.cons.inj heq
      obtain ⟨rfl, -⟩ := List.cons.inj heq
      have hd' : isHexDigit d' := h d' (by simp)
      exact hletter.elim (isHexDigit_ne hd' (by decide)) (isHexDigit_ne hd' (by decide))
  next => rfl

/-- Digits up to something that is neither a digit nor the letter of `0x`. -/
theorem step_hex (hne : digits ≠ []) (h : ∀ a ∈ digits, isHexDigit a)
    (hsize : hexNumber digits < 2 ^ 64) (hstop : isHexDigit c = false) (hx : c ≠ 120 ∧ c ≠ 88) :
    Directive.hex.step (digits ++ c :: rest) =
      some ([.number (hexNumber digits)], c :: rest) := by
  have hbody := withoutPrefix_digits hne h hx rest
  obtain ⟨d, digits, rfl⟩ := List.exists_cons_of_ne_nil hne
  have hd : isHexDigit d := h d List.mem_cons_self
  have hspace : isSpace d = false := by
    have := isHexDigit_toNat hd
    exact isSpace_eq_false (by omega)
  -- no sign in front of the digits
  have hminus : d ≠ 45 := isHexDigit_ne hd (by decide)
  have hplus : d ≠ 43 := isHexDigit_ne hd (by decide)
  have hsign : ¬ ((d :: digits ++ c :: rest).head? = some 45 ∨
      (d :: digits ++ c :: rest).head? = some 43) := by
    simp [hminus, hplus]
  have hneg : ((d :: digits ++ c :: rest).head? == some 45) = false := by simp [hminus]
  have hblank : (d :: digits ++ c :: rest).dropWhile isSpace = d :: digits ++ c :: rest :=
    List.dropWhile_cons_of_neg (by simp [hspace])
  rw [Directive.step, hblank, scanHex]
  simp only [if_neg hsign, hbody, takeWhile_stop h hstop, dropWhile_stop h hstop, hneg]
  rw [if_neg (by simp), toUnsigned, if_neg (by omega), if_neg (by simp)]

theorem step_noneOf (hne : t ≠ []) (h : c ∉ t) :
    (Directive.noneOf c).step (t ++ c :: rest) = some ([.text t], c :: rest) := by
  rw [Directive.step, scanText, takeWhile_stop (all_ne h) (by simp),
    dropWhile_stop (all_ne h) (by simp), if_neg hne]

theorem step_noneOf_end (hne : t ≠ []) (h : c ∉ t) :
    (Directive.noneOf c).step t = some ([.text t], []) := by
  rw [Directive.step, scanText, List.takeWhile_eq_self_iff.mpr (all_ne h),
    List.dropWhile_eq_nil_iff.mpr (all_ne h), if_neg hne]

theorem step_word_nil : Directive.word.step [] = none := rfl

theorem step_word (hc : isSpace c = false) :
    Directive.word.step (c :: rest) = some ([.text (c :: rest.takeWhile fun a ↦ !isSpace a)],
      rest.dropWhile fun a ↦ !isSpace a) := by
  rw [Directive.step, List.dropWhile_cons_of_neg (by simp [hc]), scanText,
    List.takeWhile_cons_of_pos (by simp [hc]), List.dropWhile_cons_of_pos (by simp [hc]),
    if_neg (by simp)]

end Divers.Library
