import Divers.NfqueueExample.Model

/-! `corrupt_packet` takes the length of the data from header fields of which nobody has checked the
TCP one.  Where the headers fit into `ip_len` it replaces the data and nothing else. -/

open Divers.Library

namespace Divers.NfqueueExample

/-! ## Lengths -/

section Lengths

variable (m : Bytes) (iphdr tcphdr : ℕ)

theorem ipHl_lt : ipHl m iphdr < 16 := Nat.mod_lt _ (by decide)

theorem ipLen_lt : ipLen m iphdr < 65536 := by
  have hhigh := (m (iphdr + 2)).toNat_lt
  have hlow := (m (iphdr + 3)).toNat_lt
  unfold ipLen
  omega

theorem doff_lt : doff m tcphdr < 16 := by
  have h := (m (tcphdr + 12)).toNat_lt
  unfold doff
  omega

theorem iphdrLen_toNat : (iphdrLen m iphdr).toNat = 4 * ipHl m iphdr := by
  have h := ipHl_lt m iphdr
  rw [iphdrLen, UInt64.toNat_ofNat']
  omega

theorem tcphdrLen_toNat : (tcphdrLen m tcphdr).toNat = 4 * doff m tcphdr := by
  have h := doff_lt m tcphdr
  rw [tcphdrLen, UInt64.toNat_ofNat']
  omega

end Lengths

variable {m : Bytes} {iphdr tcphdr buff x : ℕ} {tlen : ℤ} {libnetDoChecksum : Checksum}

/-- The two subtractions, from the other side: what is left over is a length modulo 2^64. -/
theorem dataLen_toNat :
    (dataLen m iphdr tcphdr).toNat =
      (2 ^ 64 + ipLen m iphdr - 4 * ipHl m iphdr - 4 * doff m tcphdr) % 2 ^ 64 := by
  have hlen := ipLen_lt m iphdr
  have hhl := ipHl_lt m iphdr
  have hdoff := doff_lt m tcphdr
  rw [dataLen, UInt64.toNat_sub, UInt64.toNat_sub, iphdrLen_toNat, tcphdrLen_toNat,
    UInt64.toNat_ofNat']
  omega

theorem dataLen_exact_iff :
    ((dataLen m iphdr tcphdr).toNat : ℤ) = ipLen m iphdr - 4 * ipHl m iphdr - 4 * doff m tcphdr ↔
      4 * ipHl m iphdr + 4 * doff m tcphdr ≤ ipLen m iphdr := by
  have hlen := ipLen_lt m iphdr
  have hhl := ipHl_lt m iphdr
  have hdoff := doff_lt m tcphdr
  rw [dataLen_toNat]
  omega

/-! ## Writes -/

/-- Both calls write from the end of the TCP header on, and neither more than `data_len` bytes. -/
theorem mem_writes {w : ℕ × ℕ}
    (hw : w ∈ (corruptPacket libnetDoChecksum m iphdr tcphdr).writes) :
    w.1 = tcphdr + 4 * doff m tcphdr ∧ w.2 ≤ (dataLen m iphdr tcphdr).toNat := by
  rw [← tcphdrLen_toNat]
  simp only [corruptPacket] at hw
  split at hw
  next =>
    rw [List.mem_singleton] at hw
    subst hw
    exact ⟨rfl, Nat.le_refl _⟩
  next hroom =>
    have hfits : (UInt64.ofNat httpPayload.length).toNat ≤ (dataLen m iphdr tcphdr).toNat :=
      UInt64.le_iff_toNat_le.mp (UInt64.not_lt.mp hroom)
    have hw' : w ∈ [(tcphdr + (tcphdrLen m tcphdr).toNat, (dataLen m iphdr tcphdr).toNat),
        (tcphdr + (tcphdrLen m tcphdr).toNat, (UInt64.ofNat httpPayload.length).toNat)] := by
      split at hw <;> exact hw
    obtain rfl | hw' := List.mem_cons.mp hw'
    · exact ⟨rfl, Nat.le_refl _⟩
    · rw [List.mem_singleton] at hw'
      subst hw'
      exact ⟨rfl, hfits⟩

/-! ## A captured packet -/

/-- What the kernel has checked before it queues a packet. -/
structure Validated (m : Bytes) (buff : ℕ) (tlen : ℤ) : Prop where
  header : 20 ≤ 4 * ipHl m buff
  total : 4 * ipHl m buff ≤ ipLen m buff
  captured : (ipLen m buff : ℤ) ≤ tlen

instance : Decidable (Validated m buff tlen) :=
  decidable_of_iff (20 ≤ 4 * ipHl m buff ∧ 4 * ipHl m buff ≤ ipLen m buff ∧
    (ipLen m buff : ℤ) ≤ tlen) ⟨fun h ↦ ⟨h.1, h.2.1, h.2.2⟩, fun h ↦ ⟨h.1, h.2, h.3⟩⟩

/-- Where `process_packet` goes on, `data_len` is what the header fields say and the bytes that
`memset` and `memcpy` write were captured. -/
def StaysInside (libnetDoChecksum : Checksum) (m : Bytes) (buff : ℕ) (tlen : ℤ) : Prop :=
  ∀ c, (processPacket libnetDoChecksum m buff tlen).1 = some c →
    ((dataLen m buff (tcphdrOf m buff)).toNat : ℤ) =
      ipLen m buff - 4 * ipHl m buff - 4 * doff m (tcphdrOf m buff) ∧
    ∀ w ∈ c.writes, ∀ x, w.1 ≤ x → x < w.1 + w.2 → buff ≤ x ∧ (x : ℤ) < buff + tlen

theorem processPacket_fst :
    (processPacket libnetDoChecksum m buff tlen).1 =
      if goesOn m buff tlen then some (corruptPacket libnetDoChecksum m buff (tcphdrOf m buff))
      else none := by
  unfold processPacket
  split <;> rfl

theorem processPacket_inside_iff (h : Validated m buff tlen) :
    StaysInside libnetDoChecksum m buff tlen ↔
      (goesOn m buff tlen → 4 * ipHl m buff + 4 * doff m (tcphdrOf m buff) ≤ ipLen m buff) := by
  constructor
  · intro hinside hgoes
    exact dataLen_exact_iff.mp
      (hinside _ (by rw [processPacket_fst, if_pos hgoes])).1
  · intro hfits c hc
    rw [processPacket_fst] at hc
    split at hc
    next hgoes =>
      have hfit := hfits hgoes
      have hexact := dataLen_exact_iff.mpr hfit
      refine ⟨hexact, fun w hw x hlo hhi ↦ ?_⟩
      rw [← Option.some.inj hc] at hw
      obtain ⟨hat, hlen⟩ := mem_writes hw
      have hcaptured := h.captured
      have htcp : tcphdrOf m buff = buff + 4 * ipHl m buff := rfl
      omega
    next => cases hc

/-- Forty bytes by `ip_len`, a TCP header of sixty by `doff`, and the text behind it. -/
def overlongPacket : Bytes :=
  placed 64 [(0, [0x45, 0, 0, 40]), (9, [6]), (32, [0xf0]), (80, privms)]

theorem processPacket_wraps :
    Validated overlongPacket 64 100 ∧
      (dataLen overlongPacket 64 (tcphdrOf overlongPacket 64)).toNat = 2 ^ 64 - 40 ∧
      ¬ StaysInside (fun m _ _ _ ↦ (0, m)) overlongPacket 64 100 := by
  refine ⟨by decide, by decide +kernel, fun hinside ↦ ?_⟩
  have hgoes : goesOn overlongPacket 64 100 = true := by decide +kernel
  have hexact := (hinside _ (by rw [processPacket_fst, if_pos hgoes])).1
  revert hexact
  decide

/-- Twenty bytes of data behind two headers without options. -/
def plainPacket : Bytes :=
  placed 64 [(0, [0x45, 0, 0, 60]), (9, [6]), (32, [0x50]), (40, privms)]

theorem processPacket_inside_iff_plain :
    goesOn plainPacket 64 60 ∧ StaysInside (fun m _ _ _ ↦ (0, m)) plainPacket 64 60 :=
  ⟨by decide +kernel, (processPacket_inside_iff (by decide)).mpr fun _ ↦ by decide⟩

end Divers.NfqueueExample
