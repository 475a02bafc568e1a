import Divers.NfqueueExample.CorruptPacket

/-! The packet that `corrupt_packet` leaves where there is room for the text: new data behind the
old headers, with the length and the two checksums to match. -/

open Divers.Library

namespace Divers.NfqueueExample

/-- The first byte of the TCP checksum. -/
def tcpSum (m : Bytes) (buf : ℕ) : ℕ := tcphdrOf m buf + 16

/-- The first byte of the checksum of a protocol. -/
def sumAt (m : Bytes) (buf proto : ℕ) : ℕ := if proto = ipprotoTcp then tcpSum m buf else buf + 10

/-- This call of `libnet_do_checksum` writes the checksum that it is asked for, and has nothing to
complain about. -/
structure ChecksumOnly (libnetDoChecksum : Checksum) (m : Bytes) (buf proto : ℕ) (len : SizeT) :
    Prop where
  writes : ∀ x, x ≠ sumAt m buf proto → x ≠ sumAt m buf proto + 1 →
    (libnetDoChecksum m buf proto len).2 x = m x
  succeeds : 0 ≤ (libnetDoChecksum m buf proto len).1

/-- Room for the text behind headers of at least twenty bytes each. -/
structure Room (m : Bytes) (iphdr : ℕ) : Prop where
  ipHl : 5 ≤ ipHl m iphdr
  doff : 5 ≤ doff m (tcphdrOf m iphdr)
  data : 4 * NfqueueExample.ipHl m iphdr + 4 * NfqueueExample.doff m (tcphdrOf m iphdr) +
    httpPayload.length ≤ ipLen m iphdr

/-- The length of the packet with the text for its data. -/
def newLen (m : Bytes) (iphdr : ℕ) : ℕ :=
  4 * ipHl m iphdr + 4 * doff m (tcphdrOf m iphdr) + httpPayload.length

/-- The bytes of the headers that change. -/
def lengthAndSums (m : Bytes) (iphdr : ℕ) : List ℕ :=
  [iphdr + 2, iphdr + 3, iphdr + 10, iphdr + 11, tcpSum m iphdr, tcpSum m iphdr + 1]

structure Replaced (m : Bytes) (iphdr : ℕ) (c : Corrupted) : Prop where
  ret : c.ret.map Int32.toInt = some (newLen m iphdr : ℤ)
  ipLen : ipLen c.mem iphdr = newLen m iphdr
  data : ∀ k, k < httpPayload.length → c.mem (payloadOf m iphdr + k) = httpPayload.getD k 0
  checksums : c.checksums.map (fun call ↦ (call.1, call.2.toNat)) =
    [(ipprotoTcp, newLen m iphdr - 4 * ipHl m iphdr), (ipprotoIp, 4 * ipHl m iphdr)]
  headers : ∀ x, iphdr ≤ x → x < payloadOf m iphdr → x ∉ lengthAndSums m iphdr → c.mem x = m x
  outside : ∀ x, x < iphdr ∨ iphdr + NfqueueExample.ipLen m iphdr ≤ x → c.mem x = m x
  agrees : 4 * ipHl c.mem iphdr + 4 * doff c.mem (tcphdrOf c.mem iphdr) + httpPayload.length =
    NfqueueExample.ipLen c.mem iphdr

/-! ## The lengths -/

section Lengths

variable {m : Bytes} {iphdr : ℕ}

/-- `new_ip_len`, as it is computed. -/
def newIpLen (m : Bytes) (iphdr : ℕ) : SizeT :=
  UInt64.ofNat (ipLen m iphdr) -
    (dataLen m iphdr (tcphdrOf m iphdr) - UInt64.ofNat httpPayload.length)

theorem payload_length : httpPayload.length = 20 := by decide

theorem newIpLen_toNat : (newIpLen m iphdr).toNat = newLen m iphdr := by
  have hlen := ipLen_lt m iphdr
  have hhl := ipHl_lt m iphdr
  have hdoff := doff_lt m (tcphdrOf m iphdr)
  rw [newIpLen, newLen, UInt64.toNat_sub, UInt64.toNat_sub, dataLen_toNat, UInt64.toNat_ofNat',
    UInt64.toNat_ofNat', payload_length]
  omega

theorem newTcpLen_toNat :
    (newIpLen m iphdr - iphdrLen m iphdr).toNat = newLen m iphdr - 4 * ipHl m iphdr := by
  have hhl := ipHl_lt m iphdr
  have hdoff := doff_lt m (tcphdrOf m iphdr)
  rw [UInt64.toNat_sub, newIpLen_toNat, iphdrLen_toNat, newLen, payload_length]
  omega

theorem newLen_lt : newLen m iphdr < 141 := by
  have hhl := ipHl_lt m iphdr
  have hdoff := doff_lt m (tcphdrOf m iphdr)
  rw [newLen, payload_length]
  omega

theorem newIpLen_toInt : (newIpLen m iphdr).toUInt32.toInt32.toInt = newLen m iphdr := by
  have hlt : newLen m iphdr < 141 := newLen_lt
  have hnat : (newIpLen m iphdr).toUInt32.toNat = newLen m iphdr := by
    rw [UInt64.toNat_toUInt32, newIpLen_toNat]
    omega
  rw [Int32.toInt, UInt32.toBitVec_toInt32, BitVec.toInt_eq_toNat_of_lt] <;>
    rw [UInt32.toNat_toBitVec, hnat]
  omega

end Lengths

/-! ## The memory on the way -/

section Memory

variable {m : Bytes} {iphdr x k : ℕ} {libnetDoChecksum : Checksum}

/-- The text in place of the data. -/
def textCopied (m : Bytes) (iphdr : ℕ) : Bytes :=
  memcpy (memset m (payloadOf m iphdr) 0 (dataLen m iphdr (tcphdrOf m iphdr)).toNat)
    (payloadOf m iphdr) httpPayload

/-- The memory of the first checksum, with the new `ip_len`. -/
def lengthSet (m : Bytes) (iphdr : ℕ) : Bytes :=
  setIpLen (textCopied m iphdr) iphdr (newIpLen m iphdr)

/-- The memory of the second checksum. -/
def tcpSummed (libnetDoChecksum : Checksum) (m : Bytes) (iphdr : ℕ) : Bytes :=
  clearIpSum (libnetDoChecksum (lengthSet m iphdr) iphdr ipprotoTcp
    (newIpLen m iphdr - iphdrLen m iphdr)).2 iphdr

def ipSummed (libnetDoChecksum : Checksum) (m : Bytes) (iphdr : ℕ) : Bytes :=
  (libnetDoChecksum (tcpSummed libnetDoChecksum m iphdr) iphdr ipprotoIp (iphdrLen m iphdr)).2

/-- The two calls that `corrupt_packet` makes. -/
structure Checksums (libnetDoChecksum : Checksum) (m : Bytes) (iphdr : ℕ) : Prop where
  tcp : ChecksumOnly libnetDoChecksum (lengthSet m iphdr) iphdr ipprotoTcp
    (newIpLen m iphdr - iphdrLen m iphdr)
  ip : ChecksumOnly libnetDoChecksum (tcpSummed libnetDoChecksum m iphdr) iphdr ipprotoIp
    (iphdrLen m iphdr)

theorem payloadOf_eq :
    payloadOf m iphdr = iphdr + 4 * ipHl m iphdr + 4 * doff m (tcphdrOf m iphdr) := by
  unfold payloadOf tcphdrOf
  omega

theorem putWord_of_ne {a v : ℕ} (h : x ≠ a) (h' : x ≠ a + 1) : putWord m a v x = m x := by
  rw [putWord, Function.update_of_ne h', Function.update_of_ne h]

theorem ipLen_setIpLen {v : SizeT} (hv : v.toNat < 65536) :
    ipLen (setIpLen m iphdr v) iphdr = v.toNat := by
  have hhigh : setIpLen m iphdr v (iphdr + 2) = UInt8.ofNat (v.toNat / 256) := by
    rw [setIpLen, putWord, Function.update_of_ne (by omega), Function.update_self]
  have hlow : setIpLen m iphdr v (iphdr + 3) = UInt8.ofNat v.toNat := by
    rw [setIpLen, putWord, Function.update_self]
  rw [ipLen, hhigh, hlow, UInt8.toNat_ofNat', UInt8.toNat_ofNat']
  omega

/-- The two calls leave everything outside of the old data alone. -/
theorem textCopied_outside (h : Room m iphdr)
    (hx : x < payloadOf m iphdr ∨ iphdr + ipLen m iphdr ≤ x) : textCopied m iphdr x = m x := by
  have hroom := h.data
  have hlen : ((dataLen m iphdr (tcphdrOf m iphdr)).toNat : ℤ) = _ :=
    dataLen_exact_iff.mpr (by omega)
  rw [payloadOf_eq] at hx
  rw [textCopied, memcpy, if_neg (by rw [payloadOf_eq]; omega), memset,
    if_neg (by rw [payloadOf_eq]; omega)]

theorem textCopied_data (hk : k < httpPayload.length) :
    textCopied m iphdr (payloadOf m iphdr + k) = httpPayload.getD k 0 := by
  rw [textCopied, memcpy, if_pos (by omega), Nat.add_sub_cancel_left]

/-- Where the header length stays, so does the place of the TCP checksum. -/
theorem tcpSum_lengthSet (h : Room m iphdr) :
    tcpSum (lengthSet m iphdr) iphdr = tcpSum m iphdr := by
  have hhl : lengthSet m iphdr iphdr = m iphdr := by
    rw [lengthSet, setIpLen, putWord_of_ne (by omega) (by omega),
      textCopied_outside h (Or.inl (by rw [payloadOf_eq]; have := h.ipHl; omega))]
  rw [tcpSum, tcphdrOf, ipHl, hhl]
  rfl

theorem Checksums.ipSummed_eq (hsum : Checksums libnetDoChecksum m iphdr)
    (hx : x ≠ iphdr + 10) (hx' : x ≠ iphdr + 11) :
    ipSummed libnetDoChecksum m iphdr x = tcpSummed libnetDoChecksum m iphdr x :=
  hsum.ip.writes x hx hx'

theorem Checksums.tcpSummed_eq (hsum : Checksums libnetDoChecksum m iphdr) (h : Room m iphdr)
    (hx : x ≠ iphdr + 10) (hx' : x ≠ iphdr + 11) (htcp : x ≠ tcpSum m iphdr)
    (htcp' : x ≠ tcpSum m iphdr + 1) :
    tcpSummed libnetDoChecksum m iphdr x = lengthSet m iphdr x := by
  have hat : sumAt (lengthSet m iphdr) iphdr ipprotoTcp = tcpSum m iphdr :=
    (if_pos rfl).trans (tcpSum_lengthSet h)
  rw [tcpSummed, clearIpSum, putWord_of_ne hx hx',
    hsum.tcp.writes x (by rw [hat]; exact htcp) (by rw [hat]; exact htcp')]

theorem ipSummed_of_notMem (hsum : Checksums libnetDoChecksum m iphdr) (h : Room m iphdr)
    (hx : x ∉ lengthAndSums m iphdr) :
    ipSummed libnetDoChecksum m iphdr x = textCopied m iphdr x := by
  simp only [lengthAndSums, List.mem_cons, List.not_mem_nil, or_false, not_or] at hx
  obtain ⟨hhigh, hlow, hip, hip', htcp, htcp'⟩ := hx
  rw [hsum.ipSummed_eq hip hip', hsum.tcpSummed_eq h hip hip' htcp htcp', lengthSet, setIpLen,
    putWord_of_ne hhigh hlow]

theorem ipLen_ipSummed (hsum : Checksums libnetDoChecksum m iphdr) (h : Room m iphdr) :
    ipLen (ipSummed libnetDoChecksum m iphdr) iphdr = newLen m iphdr := by
  have hlt : newLen m iphdr < 141 := newLen_lt
  have hset : ∀ x, x = iphdr + 2 ∨ x = iphdr + 3 →
      ipSummed libnetDoChecksum m iphdr x = lengthSet m iphdr x := by
    intro x hx
    have htcp : tcpSum m iphdr = iphdr + 4 * ipHl m iphdr + 16 := rfl
    rw [hsum.ipSummed_eq (by omega) (by omega),
      hsum.tcpSummed_eq h (by omega) (by omega) (by omega) (by omega)]
  rw [ipLen, hset _ (Or.inl rfl), hset _ (Or.inr rfl), ← ipLen, lengthSet,
    ipLen_setIpLen (by rw [newIpLen_toNat]; omega), newIpLen_toNat]

theorem corruptPacket_eq (hsum : Checksums libnetDoChecksum m iphdr) (h : Room m iphdr) :
    corruptPacket libnetDoChecksum m iphdr (tcphdrOf m iphdr) =
      { ret := some (newIpLen m iphdr).toUInt32.toInt32
        mem := ipSummed libnetDoChecksum m iphdr
        writes := [(payloadOf m iphdr, (dataLen m iphdr (tcphdrOf m iphdr)).toNat),
          (payloadOf m iphdr, httpPayload.length)]
        checksums := [(ipprotoTcp, newIpLen m iphdr - iphdrLen m iphdr),
          (ipprotoIp, iphdrLen m iphdr)] } := by
  have hroom := h.data
  have hdata : tcphdrOf m iphdr + (tcphdrLen m (tcphdrOf m iphdr)).toNat = payloadOf m iphdr := by
    rw [tcphdrLen_toNat, payloadOf_eq, tcphdrOf]
  have htext : (UInt64.ofNat httpPayload.length).toNat = httpPayload.length := by decide
  have hfits : ¬ UInt64.ofNat httpPayload.length > dataLen m iphdr (tcphdrOf m iphdr) := by
    have hlen : ((dataLen m iphdr (tcphdrOf m iphdr)).toNat : ℤ) = _ :=
      dataLen_exact_iff.mpr (by omega)
    rw [gt_iff_lt, UInt64.lt_iff_toNat_lt, htext]
    omega
  have htcp := Int.not_lt.mpr hsum.tcp.succeeds
  have hip := Int.not_lt.mpr hsum.ip.succeeds
  -- the text fits, and both checksums are made
  simp only [corruptPacket]
  rw [if_neg hfits, hdata, htext]
  rw [show setIpLen (memcpy (memset m (payloadOf m iphdr) 0
      (dataLen m iphdr (tcphdrOf m iphdr)).toNat) (payloadOf m iphdr) httpPayload) iphdr
      (UInt64.ofNat (ipLen m iphdr) -
        (dataLen m iphdr (tcphdrOf m iphdr) - UInt64.ofNat httpPayload.length)) =
    lengthSet m iphdr from rfl,
    show UInt64.ofNat (ipLen m iphdr) -
        (dataLen m iphdr (tcphdrOf m iphdr) - UInt64.ofNat httpPayload.length) =
    newIpLen m iphdr from rfl, if_neg htcp,
    show clearIpSum (libnetDoChecksum (lengthSet m iphdr) iphdr ipprotoTcp
      (newIpLen m iphdr - iphdrLen m iphdr)).2 iphdr =
    tcpSummed libnetDoChecksum m iphdr from rfl, if_neg hip]
  rfl

end Memory

theorem corruptPacket_replaces {libnetDoChecksum : Checksum} {m : Bytes} {iphdr : ℕ}
    (hsum : Checksums libnetDoChecksum m iphdr) (h : Room m iphdr) :
    Replaced m iphdr (corruptPacket libnetDoChecksum m iphdr (tcphdrOf m iphdr)) := by
  have hroom := h.data
  have hhl := h.ipHl
  have hdoff := h.doff
  have hpayload : payloadOf m iphdr = _ := payloadOf_eq
  have hsumAt : tcpSum m iphdr = iphdr + 4 * ipHl m iphdr + 16 := rfl
  have hnew := payload_length
  -- outside of the old data, `ip_len` and the checksums stand for themselves
  have hframe : ∀ x, x < payloadOf m iphdr ∨ iphdr + ipLen m iphdr ≤ x →
      x ∉ lengthAndSums m iphdr → ipSummed libnetDoChecksum m iphdr x = m x := fun x hx hne ↦ by
    rw [ipSummed_of_notMem hsum h hne, textCopied_outside h hx]
  have hne : ∀ x, x < iphdr + 2 ∨ payloadOf m iphdr ≤ x ∨ x = tcphdrOf m iphdr + 12 →
      x ∉ lengthAndSums m iphdr := by
    intro x hx hmem
    simp only [lengthAndSums, List.mem_cons, List.not_mem_nil, or_false] at hmem
    have htcp : tcphdrOf m iphdr = iphdr + 4 * ipHl m iphdr := rfl
    omega
  have hipHl : ipHl (ipSummed libnetDoChecksum m iphdr) iphdr = ipHl m iphdr := by
    rw [ipHl, hframe iphdr (Or.inl (by omega)) (hne _ (Or.inl (by omega))), ← ipHl]
  have htcphdr : tcphdrOf (ipSummed libnetDoChecksum m iphdr) iphdr = tcphdrOf m iphdr := by
    rw [tcphdrOf, hipHl, ← tcphdrOf]
  have hdoffs : doff (ipSummed libnetDoChecksum m iphdr) (tcphdrOf m iphdr) =
      doff m (tcphdrOf m iphdr) := by
    have htcp : tcphdrOf m iphdr = iphdr + 4 * ipHl m iphdr := rfl
    rw [doff, hframe _ (Or.inl (by omega)) (hne _ (Or.inr (Or.inr rfl))), ← doff]
  rw [corruptPacket_eq hsum h]
  exact {
    ret := congrArg some newIpLen_toInt
    ipLen := ipLen_ipSummed hsum h
    data := fun k hk ↦
      (ipSummed_of_notMem hsum h (hne _ (Or.inr (Or.inl (by omega))))).trans (textCopied_data hk)
    checksums := by
      rw [List.map_cons, List.map_cons, List.map_nil, newTcpLen_toNat, iphdrLen_toNat]
    headers := fun x _ hhi hx ↦ hframe x (Or.inl hhi) hx
    outside := fun x hx ↦ hframe x (by omega) (hne x (by omega))
    agrees := by rw [hipHl, htcphdr, hdoffs, ipLen_ipSummed hsum h, newLen] }

/-! ## A checksum -/

/-- The 16-bit words of `n` bytes, in network order, a last odd byte with a zero behind it. -/
def wordSum (m : Bytes) (a n : ℕ) : ℕ :=
  ((List.range n).map fun i ↦ (if i % 2 = 0 then 256 else 1) * (m (a + i)).toNat).sum

/-- `LIBNET_CKSUM_CARRY`. -/
def carried (sum : ℕ) : ℕ :=
  let folded := sum / 65536 + sum % 65536
  65535 - (folded + folded / 65536) % 65536

/-- The checksum of libnet: the TCP one is over the addresses, the protocol and the length too. -/
def inetChecksum : Checksum := fun m buf proto len ↦
  if proto = ipprotoTcp then
    let m' := putWord m (tcpSum m buf) 0
    (1, putWord m' (tcpSum m buf) (carried (wordSum m' (buf + 12) 8 + (ipprotoTcp + len.toNat) +
      wordSum m' (tcphdrOf m buf) len.toNat)))
  else if proto = ipprotoIp then
    let m' := putWord m (buf + 10) 0
    (1, putWord m' (buf + 10) (carried (wordSum m' buf (4 * ipHl m buf))))
  else (-1, m)

/-- It does what is relied on for every packet. -/
theorem inetChecksum_only (m : Bytes) (buf : ℕ) {proto : ℕ} (len : SizeT)
    (hproto : proto = ipprotoTcp ∨ proto = ipprotoIp) :
    ChecksumOnly inetChecksum m buf proto len := by
  obtain rfl | rfl := hproto
  · refine ⟨fun x h h' ↦ ?_, ?_⟩
    · rw [sumAt, if_pos rfl] at h h'
      rw [inetChecksum, if_pos rfl]
      exact (putWord_of_ne h h').trans (putWord_of_ne h h')
    · rw [inetChecksum, if_pos rfl]
      exact Int.one_nonneg
  · refine ⟨fun x h h' ↦ ?_, ?_⟩
    · rw [sumAt, if_neg (by decide)] at h h'
      rw [inetChecksum, if_neg (by decide), if_pos rfl]
      exact (putWord_of_ne h h').trans (putWord_of_ne h h')
    · rw [inetChecksum, if_neg (by decide), if_pos rfl]
      exact Int.one_nonneg

theorem corruptPacket_replaces_plain :
    Replaced plainPacket 64
      (corruptPacket inetChecksum plainPacket 64 (tcphdrOf plainPacket 64)) := by
  have hsum : Checksums inetChecksum plainPacket 64 :=
    ⟨inetChecksum_only _ _ _ (Or.inl rfl), inetChecksum_only _ _ _ (Or.inr rfl)⟩
  exact corruptPacket_replaces hsum ⟨by decide, by decide, by decide⟩

end Divers.NfqueueExample
