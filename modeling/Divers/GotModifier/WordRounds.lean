import Divers.GotModifier.Injector
import Divers.Library.RoundUp

/-! Both loops go by whole words under a bound in bytes.  The words that are written are the words
that were read, so the text comes back; but a last word that is not used up sticks out of an array
that was measured in bytes. -/

open Divers.Library

namespace Divers.GotModifier

namespace WordLoop

variable {abi : Abi} {body : WordLoop abi → WordLoop abi} {l : BitVec abi.bits} {baseAddr k : ℕ}
  {mem : Bytes}

/-- All that the two loops have in common. -/
def Advances (body : WordLoop abi → WordLoop abi) : Prop := ∀ s, ∃ mem, body s = s.next mem

theorem readRound_advances (text : Bytes) :
    Advances (readRound text : WordLoop abi → WordLoop abi) := fun _ ↦ ⟨_, rfl⟩

theorem writeRound_advances (buffer : Bytes) :
    Advances (writeRound buffer : WordLoop abi → WordLoop abi) := fun _ ↦ ⟨_, rfl⟩

/-! ## Counters -/

theorem Advances.counters (h : Advances body) (s : WordLoop abi) (k : ℕ) :
    (body^[k] s).i = s.i + BitVec.ofNat abi.bits (k * abi.word) ∧
      (body^[k] s).ptr = s.ptr + k * abi.word ∧ (body^[k] s).addr = s.addr + k * abi.word := by
  induction k with
  | zero => simp
  | succ k ih =>
      obtain ⟨mem, hnext⟩ := h (body^[k] s)
      obtain ⟨hi, hptr, haddr⟩ := ih
      rw [Function.iterate_succ_apply', hnext, Nat.succ_mul]
      refine ⟨?_, ?_, ?_⟩
      · rw [next, hi, BitVec.ofNat_add, BitVec.add_assoc]
      · rw [next, hptr, Nat.add_assoc]
      · rw [next, haddr, Nat.add_assoc]

/-- The guard before round `k`, as long as the counter has not wrapped. -/
theorem Advances.goesOn (h : Advances body) (hk : k * abi.word < 2 ^ abi.bits) :
    goesOn l (body^[k] (start baseAddr mem)) = decide (k * abi.word < l.toNat) := by
  have hi : (body^[k] (start baseAddr mem)).i = BitVec.ofNat abi.bits (k * abi.word) :=
    (h.counters (start baseAddr mem) k).1.trans (BitVec.zero_add _)
  rw [WordLoop.goesOn, hi]
  congr 1
  rw [BitVec.lt_def, BitVec.toNat_ofNat, Nat.mod_eq_of_lt hk]

/-! ## The number of rounds -/

/-- One round for each word that the bytes touch. -/
def rounds (abi : Abi) (l : BitVec abi.bits) : ℕ := roundUp l.toNat abi.word / abi.word

theorem rounds_mul (l : BitVec abi.bits) : rounds abi l * abi.word = roundUp l.toNat abi.word :=
  Nat.div_mul_cancel (dvd_roundUp _ abi.word_pos)

theorem rounds_le (l : BitVec abi.bits) : rounds abi l ≤ l.toNat := by
  have hpos := abi.word_pos
  have hmul := rounds_mul l
  have hlt := roundUp_lt l.toNat hpos
  by_contra hgt
  have hle : (l.toNat + 1) * abi.word ≤ rounds abi l * abi.word :=
    Nat.mul_le_mul_right _ (by omega)
  have hone : l.toNat * 1 ≤ l.toNat * abi.word := Nat.mul_le_mul_left _ hpos
  rw [Nat.succ_mul] at hle
  omega

/-- Where the words fit into the address space, the loop ends behind the last of them. -/
theorem Advances.ends (h : Advances body) (hfits : roundUp l.toNat abi.word < 2 ^ abi.bits) :
    EndsAfter (WordLoop.goesOn l) body (rounds abi l) (start baseAddr mem) := by
  have hmul := rounds_mul l
  constructor
  · intro k hk
    have hlt : k * abi.word < rounds abi l * abi.word := Nat.mul_lt_mul_of_pos_right hk abi.word_pos
    rw [h.goesOn (by omega), decide_eq_true_eq]
    by_contra hge
    have := roundUp_le_of_dvd abi.word_pos (Nat.not_lt.mp hge) (Dvd.intro_left k rfl)
    omega
  · have := le_roundUp l.toNat abi.word
    rw [h.goesOn (by omega), decide_eq_false_iff_not]
    omega

theorem Advances.whileLoop_mem {fuel : ℕ} (h : Advances body)
    (hfits : roundUp l.toNat abi.word < 2 ^ abi.bits) (hfuel : l.toNat ≤ fuel) :
    (whileLoop (WordLoop.goesOn l) body fuel (start baseAddr mem)).map WordLoop.mem =
      some (body^[rounds abi l] (start baseAddr mem)).mem := by
  rw [(h.ends hfits).whileLoop (Nat.le_trans (rounds_le l) hfuel), Option.map_some]

/-! ## What is copied -/

/-- Rounds that copy a word each, from and to where the pointers stand, copy one window. -/
theorem copies_iterate (src : Bytes) (dstAt srcAt : WordLoop abi → ℕ) {s : WordLoop abi}
    (hround : ∀ t, (body t).mem = copied t.mem (dstAt t) src (srcAt t) abi.word)
    (hdst : ∀ k, dstAt (body^[k] s) = dstAt s + k * abi.word)
    (hsrc : ∀ k, srcAt (body^[k] s) = srcAt s + k * abi.word) (k : ℕ) :
    (body^[k] s).mem = copied s.mem (dstAt s) src (srcAt s) (k * abi.word) := by
  induction k with
  | zero =>
      rw [Nat.zero_mul, copied_zero]
      rfl
  | succ k ih =>
      rw [Function.iterate_succ_apply', hround, ih, hdst, hsrc, Nat.succ_mul, copied_copied]

theorem readRound_iterate (text buff : Bytes) (baseAddr k : ℕ) :
    ((readRound text)^[k] (start baseAddr buff : WordLoop abi)).mem =
      copied buff 0 text baseAddr (k * abi.word) :=
  copies_iterate text ptr addr (fun _ ↦ storeLE_loadLE _ _ _ _ _)
    (fun k ↦ ((readRound_advances text).counters _ k).2.1)
    (fun k ↦ ((readRound_advances text).counters _ k).2.2) k

theorem writeRound_iterate (buffer text : Bytes) (baseAddr k : ℕ) :
    ((writeRound buffer)^[k] (start baseAddr text : WordLoop abi)).mem =
      copied text baseAddr buffer 0 (k * abi.word) :=
  copies_iterate buffer addr ptr (fun _ ↦ storeLE_loadLE _ _ _ _ _)
    (fun k ↦ ((writeRound_advances buffer).counters _ k).2.2)
    (fun k ↦ ((writeRound_advances buffer).counters _ k).2.1) k

end WordLoop

open WordLoop

/-! ## The text comes back -/

section Restore

variable {abi : Abi} {fuel baseAddr : ℕ} {l : BitVec abi.bits}

theorem processInjectorReadAt_eq (text buff : Bytes)
    (hfits : roundUp l.toNat abi.word < 2 ^ abi.bits) (hfuel : l.toNat ≤ fuel) :
    processInjectorReadAt abi fuel text buff l baseAddr =
      some (copied buff 0 text baseAddr (roundUp l.toNat abi.word)) := by
  rw [processInjectorReadAt, (readRound_advances text).whileLoop_mem hfits hfuel,
    readRound_iterate, rounds_mul]

theorem processInjectorWriteAt_eq (text buffer : Bytes)
    (hfits : roundUp l.toNat abi.word < 2 ^ abi.bits) (hfuel : l.toNat ≤ fuel) :
    processInjectorWriteAt abi fuel text buffer l baseAddr =
      some (copied text baseAddr buffer 0 (roundUp l.toNat abi.word)) := by
  rw [processInjectorWriteAt, (writeRound_advances buffer).whileLoop_mem hfits hfuel,
    writeRound_iterate, rounds_mul]

end Restore

/-- The process runs the shell code, and is put back as it was.  Only the words that the shell code
touches are written, before it runs and after. -/
structure Restored {ρ : Type} (abi : Abi) (target : Target ρ) (text : ℕ) (sh : Bytes)
    (shlen : BitVec abi.bits) (injection : Injection ρ) : Prop where
  shellcode : ∀ k < shlen.toNat, injection.resumed.mem (text + k) = sh k
  before : ∀ x, x < text ∨ text + roundUp shlen.toNat abi.word ≤ x →
    injection.resumed.mem x = target.mem x
  after : ∀ x, x < text ∨ text + roundUp shlen.toNat abi.word ≤ x →
    injection.final.mem x = injection.stopped.mem x
  restored : ∀ x, text ≤ x → x < text + roundUp shlen.toNat abi.word →
    injection.final.mem x = target.mem x
  regs : injection.final.regs = target.regs

theorem processInjectorLoadDso_restores {ρ : Type} (abi : Abi) (fuel : ℕ)
    (run : Target ρ → Target ρ) (target : Target ρ) (text : ℕ) (sh : Bytes)
    (shlen : BitVec abi.bits) (stack : Bytes)
    (hfits : roundUp shlen.toNat abi.word < 2 ^ abi.bits) (hfuel : shlen.toNat ≤ fuel) :
    ∃ injection, processInjectorLoadDso abi fuel run target text sh shlen stack = some injection ∧
      injection.stopped = run injection.resumed ∧
      Restored abi target text sh shlen injection := by
  have hle := le_roundUp shlen.toNat abi.word
  simp only [processInjectorLoadDso, processInjectorReadAt_eq _ _ hfits hfuel,
    processInjectorWriteAt_eq _ _ hfits hfuel, Option.bind_eq_bind, Option.bind_some]
  refine ⟨_, rfl, rfl, ?_⟩
  exact {
    shellcode := fun k hk ↦ by
      show copied target.mem text sh 0 _ (text + k) = sh k
      rw [copied, if_pos (by omega), Nat.add_sub_cancel_left, Nat.zero_add]
    before := fun x hx ↦ by
      show copied target.mem text sh 0 _ x = target.mem x
      rw [copied, if_neg (by omega)]
    after := fun x hx ↦ by
      show copied _ text _ 0 _ x = _
      rw [copied, if_neg (by omega)]
    -- a byte goes to the place in the array from which it comes back
    restored := fun x hlo hhi ↦ by
      show copied _ text (copied stack 0 target.mem text _) 0 _ x = target.mem x
      rw [copied, if_pos (by omega), copied, if_pos (by omega)]
      congr 1
      omega
    regs := rfl }

def i386 : Abi := { bits := 32, word := 4, word_pos := by decide }

/-- Ninety bytes at the start of the text, and a run that answers in `eax`. -/
theorem processInjectorLoadDso_restores_ninety :
    ∃ injection, processInjectorLoadDso i386 90
        (fun t : Target Unit ↦ { t with regs := { t.regs with eax := 7 } })
        { mem := UInt8.ofNat, regs := { eip := 0, eax := 0, others := () } } 0x8048000
        (fun k ↦ UInt8.ofNat (k * k)) 90 (fun _ ↦ 0) = some injection ∧
      injection.stopped =
        { injection.resumed with regs := { injection.resumed.regs with eax := 7 } } ∧
      Restored i386 { mem := UInt8.ofNat, regs := { eip := 0, eax := 0, others := () } } 0x8048000
        (fun k ↦ UInt8.ofNat (k * k)) 90 injection :=
  processInjectorLoadDso_restores i386 90 _ _ _ _ 90 _ (by decide) (by decide)

/-! ## The arrays -/

/-- The bytes of the local array that the rounds move are below `size`. -/
def StaysBelow (abi : Abi) (body : WordLoop abi → WordLoop abi) (l : BitVec abi.bits)
    (s : WordLoop abi) (size : ℕ) : Prop :=
  ∀ t, RoundAt (goesOn l) body s t → t.ptr + abi.word ≤ size

section Arrays

variable {abi : Abi} {body : WordLoop abi → WordLoop abi} {l : BitVec abi.bits}
  {baseAddr size k : ℕ} {mem : Bytes}

/-- In a length of whole words, a word that begins before the end ends before it. -/
theorem succ_mul_le_of_dvd (hdvd : abi.word ∣ l.toNat) (hlt : k * abi.word < l.toNat) :
    (k + 1) * abi.word ≤ l.toNat := by
  obtain ⟨q, hq⟩ := hdvd
  rw [hq, Nat.mul_comm] at hlt ⊢
  exact Nat.mul_le_mul_left _ (Nat.lt_of_mul_lt_mul_left hlt)

theorem staysBelow_of_dvd (h : Advances body) (hdvd : abi.word ∣ l.toNat)
    (hsize : l.toNat ≤ size) : StaysBelow abi body l (start baseAddr mem) size := by
  intro t ht
  obtain ⟨k, hrounds, rfl⟩ := ht
  have hlt : k * abi.word < l.toNat := by
    induction k with
    | zero =>
        have hzero := hrounds 0 (Nat.le_refl 0)
        rw [h.goesOn (by simp), decide_eq_true_eq] at hzero
        exact hzero
    | succ k ih =>
        -- the counter cannot wrap: it does not pass the length
        have hprev := succ_mul_le_of_dvd hdvd (ih fun j hj ↦ hrounds j (by omega))
        have hguard := hrounds (k + 1) (Nat.le_refl _)
        rwa [h.goesOn (by have := l.isLt; omega), decide_eq_true_eq] at hguard
  have hend := succ_mul_le_of_dvd hdvd hlt
  rw [Nat.succ_mul] at hend
  rw [(h.counters _ k).2.1, start, Nat.zero_add]
  omega

/-- Otherwise the last round moves a word that begins before the end and ends behind it. -/
theorem not_staysBelow_of_not_dvd (h : Advances body) (hdvd : ¬ abi.word ∣ l.toNat) :
    ¬ StaysBelow abi body l (start baseAddr mem) l.toNat := by
  intro hbelow
  have hdiv := Nat.div_add_mod l.toNat abi.word
  have hmod := Nat.mod_lt l.toNat abi.word_pos
  have hrem : l.toNat % abi.word ≠ 0 := fun hz ↦ hdvd (Nat.dvd_of_mod_eq_zero hz)
  have hround := hbelow _ ⟨l.toNat / abi.word, fun j hj ↦ ?_, rfl⟩
  · rw [(h.counters _ _).2.1, start, Nat.zero_add, Nat.mul_comm] at hround
    omega
  · have hle := Nat.mul_le_mul_right abi.word hj
    rw [Nat.mul_comm (l.toNat / abi.word)] at hle
    have hlt := l.isLt
    rw [h.goesOn (by omega), decide_eq_true_eq]
    omega

end Arrays

/-- The three calls of `process_injector_load_dso`: `buffer` has `shlen + 1` bytes and `sh` has
`shlen`. -/
structure AccessesFit (abi : Abi) (text : ℕ) (sh : Bytes) (shlen : BitVec abi.bits)
    (stack original buffer stopped : Bytes) : Prop where
  backup : StaysBelow abi (readRound original) shlen (start text stack) (shlen.toNat + 1)
  shellcode : StaysBelow abi (writeRound sh) shlen (start text original) shlen.toNat
  restore : StaysBelow abi (writeRound buffer) shlen (start text stopped) (shlen.toNat + 1)

theorem accessesFit_iff (abi : Abi) (text : ℕ) (sh : Bytes) (shlen : BitVec abi.bits)
    (stack original buffer stopped : Bytes) :
    AccessesFit abi text sh shlen stack original buffer stopped ↔ abi.word ∣ shlen.toNat := by
  constructor
  · intro h
    by_contra hdvd
    exact not_staysBelow_of_not_dvd (writeRound_advances sh) hdvd h.shellcode
  · intro hdvd
    exact {
      backup := staysBelow_of_dvd (readRound_advances _) hdvd (Nat.le_succ _)
      shellcode := staysBelow_of_dvd (writeRound_advances _) hdvd (Nat.le_refl _)
      restore := staysBelow_of_dvd (writeRound_advances _) hdvd (Nat.le_succ _) }

/-- The length is that of the shell code of `map_parser.c`. -/
theorem accessesFit_overruns :
    ¬ AccessesFit i386 0x8048000 (fun _ ↦ 0) 90 (fun _ ↦ 0) (fun _ ↦ 0) (fun _ ↦ 0) (fun _ ↦ 0) :=
  fun h ↦ absurd (h.backup _ ⟨22, by decide, rfl⟩) (by decide)

end Divers.GotModifier
