import Divers.NfqueueExample.CorruptPacket

/-! `process_packet` looks for the text with `strstr`, which knows nothing of `tlen`: without a NUL
in the payload it goes on behind the packet, in what earlier packets left in the buffer. -/

open Divers.Library

namespace Divers.NfqueueExample

variable {m m' : Bytes} {buff tlen : ℕ}

/-- A TCP packet of which both headers were captured. -/
structure Captured (m : Bytes) (buff tlen : ℕ) : Prop where
  tcp : ipP m buff = ipprotoTcp
  header : 20 ≤ 4 * ipHl m buff
  tcpHeader : tcphdrOf m buff + 20 ≤ buff + tlen
  room : buff + tlen + 64 ≤ 2 ^ 64

/-- The bytes of the packet are the same. -/
def SamePacket (m m' : Bytes) (buff tlen : ℕ) : Prop :=
  ∀ x, buff ≤ x → x < buff + tlen → m' x = m x

theorem privms_nonzero : 0 ∉ privms := by decide

theorem privms_ne_nil : privms ≠ [] := by decide

namespace Captured

theorem payload_le (h : Captured m buff tlen) : payloadOf m buff ≤ buff + tlen + 40 := by
  have hdoff := doff_lt m (tcphdrOf m buff)
  have htcp := h.tcpHeader
  unfold payloadOf
  omega

/-- The headers say where the payload is. -/
theorem goesOn_eq (h : Captured m buff tlen) (hsame : SamePacket m m' buff tlen) :
    goesOn m' buff tlen =
      (strstr m' privms (2 ^ 64 - payloadOf m buff) (payloadOf m buff)).isSome := by
  have htcp := h.tcpHeader
  have hheader := h.header
  have htcpAt : tcphdrOf m buff = buff + 4 * ipHl m buff := rfl
  have hfirst : m' buff = m buff := hsame buff (Nat.le_refl _) (by omega)
  have hproto : ipP m' buff = ipprotoTcp := by
    rw [ipP, hsame _ (by omega) (by omega)]
    exact h.tcp
  have htcphdr : tcphdrOf m' buff = tcphdrOf m buff := by
    rw [tcphdrOf, ipHl, hfirst]
    rfl
  have hpayload : payloadOf m' buff = payloadOf m buff := by
    rw [payloadOf, htcphdr, doff, hsame _ (by omega) (by omega)]
    rfl
  rw [goesOn, hproto, hpayload]
  simp

end Captured

/-- What `process_packet` does with a packet follows from the packet exactly if the payload that was
captured holds the text or a NUL; then it goes on exactly for a text in front of every NUL. -/
theorem goesOn_captured_iff (h : Captured m buff tlen) :
    ((∀ m', SamePacket m m' buff tlen → goesOn m' buff tlen = goesOn m buff tlen) ↔
      Decided m privms (payloadOf m buff) (buff + tlen)) ∧
    (Decided m privms (payloadOf m buff) (buff + tlen) →
      (goesOn m buff tlen = true ↔
        ∃ k, payloadOf m buff + k + privms.length ≤ buff + tlen ∧
          hasPrefix m (payloadOf m buff + k) privms = true ∧
          ∀ j < k, m (payloadOf m buff + j) ≠ 0)) := by
  have hroom := h.room
  have hpayload := h.payload_le
  have hmine := h.goesOn_eq fun _ _ _ ↦ rfl
  refine ⟨⟨fun hsame ↦ ?_, fun hdecided m' hm' ↦ ?_⟩, fun hdecided ↦ ?_⟩
  · -- a packet that does not decide can be followed by zeros or by the text
    by_contra hopen
    have hcontinued : ∀ b s, SamePacket m (continued m (buff + tlen) b s) buff tlen :=
      fun b s x _ hx ↦ continued_of_lt hx
    obtain ⟨hnot, hfound⟩ := strstr_continued (n := 2 ^ 64 - payloadOf m buff) hopen
      privms_nonzero privms_ne_nil (by omega)
    rw [← h.goesOn_eq (hcontinued _ _), hsame _ (hcontinued _ _)] at hnot hfound
    rw [hnot] at hfound
    cases hfound
  · rw [hmine, h.goesOn_eq hm']
    apply hdecided.strstr_eq privms_nonzero
    intro x hlo hhi
    apply hm' x _ hhi
    unfold payloadOf tcphdrOf at hlo
    omega
  · rw [hmine]
    exact hdecided.found_iff privms_nonzero privms_ne_nil (by omega)

/-- A packet of forty bytes has no payload: the bytes behind it decide. -/
theorem goesOn_captured_iff_empty :
    ∃ m m' : Bytes, SamePacket m m' 64 40 ∧ goesOn m 64 40 = false ∧ goesOn m' 64 40 = true := by
  let m : Bytes := placed 64 [(0, [0x45, 0, 0, 40]), (9, [6]), (32, [0x50])]
  have h : Captured m 64 40 := ⟨by decide, by decide, by decide, by decide⟩
  have hopen : ¬ Decided m privms (payloadOf m 64) (64 + 40) := by
    have hat : payloadOf m 64 = 64 + 40 := by decide
    have hlength : privms.length = 6 := by decide
    rintro (⟨k, hk, -⟩ | ⟨k, hk, -⟩) <;> omega
  have hdiffer := mt (goesOn_captured_iff h).1.mp hopen
  push Not at hdiffer
  obtain ⟨m', hm', hne⟩ := hdiffer
  have hfalse : goesOn m 64 40 = false := by decide +kernel
  exact ⟨m, m', hm', hfalse, by rw [← Bool.not_eq_false, ← hfalse]; exact hne⟩

end Divers.NfqueueExample
