import MpOlsr.Lib.Moves
import MpOlsr.Routing.Packet

/-!
# Socket buffers of the kernel module

The functions of `skb_tools.c` on a linear `sk_buff`: the memory from `skb->data` to the end of the allocation, and
`skb->len`.  What follows the datagram in the memory is not known.  The path stands between the IP header and the UDP
datagram.  The checksum routines of the kernel are parameters.
-/

namespace MpOlsr.Kernel

open Buffer Bytes IpPacket

/-- A linear `sk_buff`. -/
structure SkBuff where
  mem : List Byte
  len : ℕ
  len_le : len ≤ mem.length

namespace SkBuff

/-- The datagram. -/
def datagram (skb : SkBuff) : List Byte := skb.mem.take skb.len

/-- Replace the contents of the memory. -/
def withMem (skb : SkBuff) (mem : List Byte) : Option SkBuff :=
  if h : skb.len ≤ mem.length then some ⟨mem, skb.len, h⟩ else none

end SkBuff

/-- The pointer to `len` bytes of the datagram from `offset` on, or NULL. -/
def skb_header_pointer (skb : SkBuff) (offset len : ℤ) : Option ℤ :=
  if len ≤ skb.len - offset then some offset else none

def skb_trim (skb : SkBuff) (len : ℕ) : SkBuff :=
  if h : len < skb.len then ⟨skb.mem, len, (Nat.le_of_lt h).trans skb.len_le⟩ else skb

/-- A datagram that would leave the allocation is a fault. -/
def skb_put (skb : SkBuff) (len : ℕ) : Option SkBuff :=
  if h : skb.len + len ≤ skb.mem.length then some ⟨skb.mem, skb.len + len, h⟩ else none

/-- The checksum routines of the kernel. -/
structure Checksums where
  ip_fast_csum : List Byte → ℕ
  csum_partial : List Byte → BitVec 32 → BitVec 32
  csum_tcpudp_magic : BitVec 32 → BitVec 32 → ℕ → Byte → BitVec 32 → ℕ

section Checksum

variable (sums : Checksums)

def skb_updateChecksumIP (skb : SkBuff) : Option SkBuff := do
  let n ← ihl skb.mem
  let mem ← storeBe16 skb.mem 10 0
  let iph ← read mem 0 (n * 4 : ℕ)
  let mem ← storeBe16 mem 10 (sums.ip_fast_csum iph)
  skb.withMem mem

def skb_updateChecksumIP_UDP (skb : SkBuff) : Option SkBuff := do
  let n ← ihl skb.mem
  let skb ← skb_updateChecksumIP sums skb
  let uh : ℤ := (n * 4 : ℕ)
  let len : ℤ := skb.len - uh
  let payload ← read skb.mem (uh + 8) (len - 8).toNat
  let csum := sums.csum_partial payload 0
  let mem ← storeBe16 skb.mem (uh + 6) 0
  let saddr ← load32 mem 12
  let daddr ← load32 mem 16
  let udphdr ← read mem uh 8
  let mem ← storeBe16 mem (uh + 6)
    (sums.csum_tcpudp_magic saddr daddr len.toNat IPPROTO_UDP (sums.csum_partial udphdr csum))
  skb.withMem mem

end Checksum

variable (ws : WordSize)

/-- The results of `skb_getPath`: its return value and its output parameters. -/
structure PathData (ws : WordSize) where
  ret : ℤ
  sData : List Byte
  size : ℕ
  pheader : SerHeader ws

/-- Copy the path that the header announces.  Its length is not compared with the length of the datagram. -/
def skb_getPath (skb : SkBuff) (sData : List Byte) (size : ℕ) (pheader : SerHeader ws) : Option (PathData ws) := do
  let n ← ihl skb.mem
  let payload_offset : ℤ := (n * 4 : ℕ)
  let payload_size : ℤ := skb.len - (n * 4 : ℕ)
  if payload_offset + payload_size > skb.len ∨ payload_size < 0 then return ⟨-1, sData, size, pheader⟩
  else
    let some payload := skb_header_pointer skb payload_offset payload_size | return ⟨-1, sData, size, pheader⟩
    let pheader ← loadSerHeader ws skb.mem payload
    let size := pheader.hops * ip_v4_size + sizeof_ser_header ws
    let sData ← memcpy sData 0 skb.mem payload size
    return ⟨0, sData, size, pheader⟩

def skb_updatePath (skb : SkBuff) (sData : List Byte) (size : ℕ) : Option (ℤ × SkBuff) := do
  let n ← ihl skb.mem
  let payload_offset : ℤ := (n * 4 : ℕ)
  let payload_size : ℤ := skb.len - (n * 4 : ℕ)
  if payload_offset + payload_size > skb.len ∨ payload_size < 0 then return (-1, skb)
  else
    let some payload := skb_header_pointer skb payload_offset payload_size | return (-1, skb)
    let mem ← memcpy skb.mem payload sData 0 size
    let skb ← skb.withMem mem
    return (0, skb)

def skb_removePath (skb : SkBuff) (size : ℕ) : Option (ℤ × SkBuff) := do
  let n ← ihl skb.mem
  let ser_payload_offset : ℤ := (n * 4 : ℕ)
  let udp_payload_offset : ℤ := ser_payload_offset + size
  let ser_payload_size : ℤ := skb.len - (n * 4 : ℕ)
  let udp_payload_size : ℤ := ser_payload_size - size
  if ser_payload_offset + ser_payload_size > skb.len ∨ udp_payload_offset > skb.len ∨ udp_payload_size < 0 ∨
      ser_payload_size < 0 then return (-1, skb)
  else
    let some ser_payload := skb_header_pointer skb ser_payload_offset ser_payload_size | return (-1, skb)
    let mem ← moveUp skb.mem ser_payload (ser_payload + size) udp_payload_size.toNat
    let tot_len ← loadBe16 mem 2
    let mem ← storeBe16 mem 2 (((tot_len : ℤ) - size) % 65536).toNat
    let skb ← skb.withMem mem
    return (0, skb_trim skb (skb.len - size))

/-- Replace a path of `initSize` bytes by one of `size` bytes.  The old path is looked for after a `ser_header`, the new
one is written there with its header. -/
def skb_replacePath (skb : SkBuff) (sData : List Byte) (size initSize : ℕ) : Option (ℤ × SkBuff) := do
  let n ← ihl skb.mem
  let tot_len ← loadBe16 skb.mem 2
  let old_path_offset : ℤ := (n * 4 : ℕ) + sizeof_ser_header ws
  let request_buf_size : ℤ := tot_len - (n * 4 : ℕ) - sizeof_ser_header ws
  let some old_path := skb_header_pointer skb old_path_offset request_buf_size | return (-1, skb)
  let mem ←
    if size > initSize then
      moveDown skb.mem (old_path + request_buf_size + (size - initSize) - 1) (old_path + request_buf_size - 1)
        request_buf_size.toNat
    else if size < initSize then
      moveUp skb.mem old_path (old_path + (initSize - size)) (request_buf_size + size - initSize).toNat
    else some skb.mem
  let mem ← memcpy mem old_path sData 0 size
  let tot_len ← loadBe16 mem 2
  let mem ← storeBe16 mem 2 (((tot_len : ℤ) + ((size : ℤ) - initSize)) % 65536).toNat
  let skb ← skb.withMem mem
  return (0, skb)

end MpOlsr.Kernel
