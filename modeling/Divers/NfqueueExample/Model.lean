import Divers.Library.CString

/-!
# squash_packet

The packet handler of `squash_packet.c` on an LP64 target.  `m` is the memory and a pointer an
address; the fields of the headers are read from the bytes that a little-endian machine has them in.
`libnet_do_checksum` is a parameter: what it returns, and the memory it leaves.
-/

open Divers.Library

namespace Divers.NfqueueExample

abbrev SizeT := UInt64

def ipprotoIp : ℕ := 0
def ipprotoTcp : ℕ := 6

/-! ## Headers -/

def ipHl (m : Bytes) (iphdr : ℕ) : ℕ := (m iphdr).toNat % 16

/-- `ntohs(iphdr->ip_len)`. -/
def ipLen (m : Bytes) (iphdr : ℕ) : ℕ := 256 * (m (iphdr + 2)).toNat + (m (iphdr + 3)).toNat

def ipP (m : Bytes) (iphdr : ℕ) : ℕ := (m (iphdr + 9)).toNat

def doff (m : Bytes) (tcphdr : ℕ) : ℕ := (m (tcphdr + 12)).toNat / 16

/-- The low 16 bits of `v` in network order. -/
def putWord (m : Bytes) (a v : ℕ) : Bytes :=
  Function.update (Function.update m a (UInt8.ofNat (v / 256))) (a + 1) (UInt8.ofNat v)

/-- `iphdr->ip_len = htons(v)`. -/
def setIpLen (m : Bytes) (iphdr : ℕ) (v : SizeT) : Bytes := putWord m (iphdr + 2) v.toNat

/-- `iphdr->ip_sum = 0`. -/
def clearIpSum (m : Bytes) (iphdr : ℕ) : Bytes := putWord m (iphdr + 10) 0

/-! ## corrupt_packet -/

def memset (m : Bytes) (a : ℕ) (c : UInt8) (n : ℕ) : Bytes :=
  fun x ↦ if a ≤ x ∧ x < a + n then c else m x

def memcpy (m : Bytes) (a : ℕ) (src : List UInt8) : Bytes :=
  fun x ↦ if a ≤ x ∧ x < a + src.length then src.getD (x - a) 0 else m x

def httpPayload : List UInt8 :=
  [10] ++ ascii ['j', 'e', ' ', 's', 'u', 'i', 's', ' ', 'u', 'n', 'e', ' ',
    'f', 'i', 'o', 't', 't', 'e'] ++ [10]

def iphdrLen (m : Bytes) (iphdr : ℕ) : SizeT := UInt64.ofNat (ipHl m iphdr * 4)

def tcphdrLen (m : Bytes) (tcphdr : ℕ) : SizeT := UInt64.ofNat (doff m tcphdr * 4)

def dataLen (m : Bytes) (iphdr tcphdr : ℕ) : SizeT :=
  UInt64.ofNat (ipLen m iphdr) - iphdrLen m iphdr - tcphdrLen m tcphdr

/-- `libnet_do_checksum`, by the memory, the packet, the protocol and the length. -/
abbrev Checksum := Bytes → ℕ → ℕ → SizeT → ℤ × Bytes

structure Corrupted where
  ret : Option Int32              -- `none` where the process exits
  mem : Bytes
  writes : List (ℕ × ℕ)           -- address and length of `memset` and `memcpy`
  checksums : List (ℕ × SizeT)    -- protocol and length of `libnet_do_checksum`

def corruptPacket (libnetDoChecksum : Checksum) (m : Bytes) (iphdr tcphdr : ℕ) : Corrupted :=
  let httpPayloadLen : SizeT := UInt64.ofNat httpPayload.length
  let dataLen := dataLen m iphdr tcphdr
  let newIpLen := UInt64.ofNat (ipLen m iphdr) - (dataLen - httpPayloadLen)
  let newTcpLen := newIpLen - iphdrLen m iphdr
  let iphdrLen := iphdrLen m iphdr
  let data := tcphdr + (tcphdrLen m tcphdr).toNat
  let set := (data, dataLen.toNat)
  let m := memset m data 0 dataLen.toNat
  if httpPayloadLen > dataLen then
    { ret := some 0, mem := m, writes := [set], checksums := [] }
  else
    let writes := [set, (data, httpPayloadLen.toNat)]
    let m := memcpy m data httpPayload
    let m := setIpLen m iphdr newIpLen
    let tcp := libnetDoChecksum m iphdr ipprotoTcp newTcpLen
    if tcp.1 < 0 then
      { ret := none, mem := tcp.2, writes, checksums := [(ipprotoTcp, newTcpLen)] }
    else
      let m := clearIpSum tcp.2 iphdr
      let ip := libnetDoChecksum m iphdr ipprotoIp iphdrLen
      { ret := if ip.1 < 0 then none else some newIpLen.toUInt32.toInt32
        mem := ip.2
        writes
        checksums := [(ipprotoTcp, newTcpLen), (ipprotoIp, iphdrLen)] }

/-! ## process_packet -/

def privms : List UInt8 := ascii ['P', 'R', 'I', 'V', 'M', 'S']

def tcphdrOf (m : Bytes) (buff : ℕ) : ℕ := buff + 4 * ipHl m buff

def payloadOf (m : Bytes) (buff : ℕ) : ℕ :=
  tcphdrOf m buff + doff m (tcphdrOf m buff) * 4

/-- The packet is handed to `corrupt_packet`.  `tlen` is what `nfq_get_payload` returned, and the
string at the payload goes on until its NUL, at most to the end of the address space. -/
def goesOn (m : Bytes) (buff : ℕ) (tlen : ℤ) : Bool :=
  decide (0 ≤ tlen) && ipP m buff == ipprotoTcp &&
    (strstr m privms (2 ^ 64 - payloadOf m buff) (payloadOf m buff)).isSome

/-- What `corrupt_packet` does to the packet, if it is called, and the length of the verdict. -/
def processPacket (libnetDoChecksum : Checksum) (m : Bytes) (buff : ℕ) (tlen : ℤ) :
    Option Corrupted × Option ℤ :=
  if goesOn m buff tlen then
    let corrupted := corruptPacket libnetDoChecksum m buff (tcphdrOf m buff)
    (some corrupted, corrupted.ret.map Int32.toInt)
  else (none, some tlen)

end Divers.NfqueueExample
