import MpOlsr.CTypes
import MpOlsr.Lib.Bytes

/-!
# IP packets with an MP-OLSR header

The classes `IpPacket` and `MpOlsrPacket` on the bytes of a packet.  An MP-OLSR packet is an IP header, a
`ser_header`, the addresses of the hops, and the payload of the original packet.  `cur` counts the hops from 1 on.
Every access outside a buffer and every copy of a negative length is a fault (`none`).
-/

namespace MpOlsr

open Buffer Bytes

/-- The number of bytes of an `unsigned long`. -/
def WordSize.bytes : WordSize → ℕ
  | .ilp32 => 4
  | .lp64 => 8

/-- An address: `ip_v4_addr` is an `unsigned long`. -/
abbrev ip_v4_addr (ws : WordSize) := ULong ws

def ip_v4_size : ℕ := 4
def MPOLSR_VERSION : Byte := 1
def IPPROTO_MPOLSR : Byte := 99
def IPPROTO_UDP : Byte := 17
def BUFFER_SIZE : ℕ := 4096
def MAX_MPOLSR_PATH : ℕ := 2048

/-! ### Fields of a header -/

/-- `ntohs` of the two bytes at `i`. -/
def loadBe16 (xs : List Byte) (i : ℤ) : Option ℕ := do
  let hi ← load xs i
  let lo ← load xs (i + 1)
  return ofBe16 hi lo

def storeBe16 (xs : List Byte) (i : ℤ) (n : ℕ) : Option (List Byte) := write xs i (be16 n)

/-- The four bytes of an address at `i`. -/
def load32 (xs : List Byte) (i : ℤ) : Option (BitVec 32) :=
  (read xs i 4).map fun bs => BitVec.ofNat 32 (ofLe bs)

def store32 (xs : List Byte) (i : ℤ) (a : BitVec 32) : Option (List Byte) := write xs i (leBytes 4 a.toNat)

/-- The `unsigned long` at `i`. -/
def loadLong (ws : WordSize) (xs : List Byte) (i : ℤ) : Option (ULong ws) :=
  (read xs i ws.bytes).map fun bs => BitVec.ofNat ws.bits (ofLe bs)

/-- `struct ser_header`, with `empty`, `hops` and `cur` in host byte order. -/
structure SerHeader (ws : WordSize) where
  version : Byte
  protocol : Byte
  empty : ℕ
  hops : ℕ
  cur : ℕ
  first_node : ULong ws
  deriving DecidableEq

/-- `sizeof(struct ser_header)` -/
def sizeof_ser_header (ws : WordSize) : ℕ := 8 + ws.bytes

def SerHeader.bytes {ws : WordSize} (h : SerHeader ws) : List Byte :=
  [h.version, h.protocol] ++ be16 h.empty ++ be16 h.hops ++ be16 h.cur ++ leBytes ws.bytes h.first_node.toNat

def loadSerHeader (ws : WordSize) (xs : List Byte) (i : ℤ) : Option (SerHeader ws) := do
  let version ← load xs i
  let protocol ← load xs (i + 1)
  let empty ← loadBe16 xs (i + 2)
  let hops ← loadBe16 xs (i + 4)
  let cur ← loadBe16 xs (i + 6)
  let first_node ← loadLong ws xs (i + 8)
  return { version := version, protocol := protocol, empty := empty, hops := hops, cur := cur, first_node := first_node }

namespace IpPacket

/-- `iph->ihl` -/
def ihl (iph : List Byte) : Option ℕ := (load iph 0).map fun b => b.toNat % 16

def getIpHeaderSize (iph : List Byte) : Option ℤ := (ihl iph).map fun (n : ℕ) => (n : ℤ) * 4

def getIpTotalSize (iph : List Byte) : Option ℤ := (loadBe16 iph 2).map fun (n : ℕ) => (n : ℤ)

def getIpPayloadSize (iph : List Byte) : Option ℤ := do
  let total ← getIpTotalSize iph
  let header ← getIpHeaderSize iph
  return total - header

/-- The sum of `nwords` words from `i` on. -/
def SumWords (mem : List Byte) (i : ℤ) (nwords : ℕ) : Option (BitVec 32) :=
  (List.range nwords).foldlM (fun sum (j : ℕ) => do
    let w ← loadBe16 mem (i + 2 * j)
    return sum + BitVec.ofNat 32 w) 0

/-- Fold the carries of a sum and complement it. -/
def foldSum (sum : BitVec 32) : BitVec 32 :=
  let sum := (sum >>> 16) + (sum &&& 0xFFFF)
  let sum := sum + (sum >>> 16)
  ~~~ sum

def updateIpChecksum (iph : List Byte) : Option (List Byte) := do
  let iph ← storeBe16 iph 10 0
  let n ← ihl iph
  let sum ← SumWords iph 0 (n * 2)
  storeBe16 iph 10 (foldSum sum).toNat

/-- The last byte of a datagram of odd length, padded with zero. -/
def addLastByte (mem : List Byte) (udp : ℤ) (len : ℕ) (sum : BitVec 32) : Option (BitVec 32) :=
  if len % 2 = 1 then (load mem (udp + len - 1)).map fun b => sum + BitVec.ofNat 32 (b.toNat * 256) else some sum

/-- The UDP header is found `ihl` `long`s after the IP header. -/
def updateUdpChecksum (ws : WordSize) (iph : List Byte) : Option (List Byte) := do
  let n ← ihl iph
  let udp : ℤ := n * ws.bytes
  let iph ← storeBe16 iph (udp + 6) 0
  let sum ← SumWords iph 12 4
  let len ← loadBe16 iph (udp + 4)
  let sum := sum + BitVec.ofNat 32 IPPROTO_UDP.toNat + BitVec.ofNat 32 len
  let words ← SumWords iph udp (len / 2)
  let sum ← addLastByte iph udp len (sum + words)
  storeBe16 iph (udp + 6) (foldSum sum).toNat

end IpPacket

namespace MpOlsrPacket

open IpPacket

variable (ws : WordSize)

/-- The constructor: the offset of `ser_header_`, or NULL.  The size comparison is unsigned. -/
def new (iph : List Byte) : Option (Option ℤ) := do
  let payload ← getIpPayloadSize iph
  let header ← getIpHeaderSize iph
  return if payload < 0 ∨ (sizeof_ser_header ws : ℤ) ≤ payload then some header else none

/-- `ntohs(ser_header_->hops)` -/
def hops (iph : List Byte) (ser_header_ : ℤ) : Option ℕ := loadBe16 iph (ser_header_ + 4)

/-- `ntohs(ser_header_->cur)` -/
def cur (iph : List Byte) (ser_header_ : ℤ) : Option ℕ := loadBe16 iph (ser_header_ + 6)

def getMpOlsrHeaderSize (iph : List Byte) (ser_header_ : ℤ) : Option ℤ :=
  (hops iph ser_header_).map fun (n : ℕ) => (n : ℤ) * ip_v4_size + sizeof_ser_header ws

/-- The hop of the given number, or 0. -/
def getHopAddr (iph : List Byte) (ser_header_ : ℤ) (hop : ℤ) : Option (ip_v4_addr ws) := do
  let n ← hops iph ser_header_
  if hop ≤ 0 ∨ hop > n then some 0
  else loadLong ws iph (ser_header_ + sizeof_ser_header ws + (hop - 1) * ws.bytes)

def getCurrentAddr (iph : List Byte) (ser_header_ : ℤ) : Option (ip_v4_addr ws) := do
  let c ← cur iph ser_header_
  getHopAddr ws iph ser_header_ c

def getNextAddr (iph : List Byte) (ser_header_ : ℤ) : Option (ip_v4_addr ws) := do
  let c ← cur iph ser_header_
  getHopAddr ws iph ser_header_ (c + 1)

def getLastAddr (iph : List Byte) (ser_header_ : ℤ) : Option (ip_v4_addr ws) := do
  let n ← hops iph ser_header_
  getHopAddr ws iph ser_header_ n

def isEndOfPath (iph : List Byte) (ser_header_ : ℤ) : Option Bool := do
  let c ← cur iph ser_header_
  let n ← hops iph ser_header_
  return if c > n then false else if n ≠ c then false else if c < 1 then false else true

/-- Advance `cur`, unless the end of the path is reached. -/
def moveToNextHop (iph : List Byte) (ser_header_ : ℤ) : Option (Bool × List Byte) := do
  let c ← cur iph ser_header_
  let n ← hops iph ser_header_
  if c + 1 > n then return (false, iph)
  else
    let iph ← storeBe16 iph (ser_header_ + 6) (c + 1)
    return (true, iph)

/-- Copy the packet without its MP-OLSR header; restore the protocol and the source address. -/
def removeMpOlsrHeader (iph : List Byte) (ser_header_ : ℤ) (newBuffer : List Byte) (bufferSize : ℤ) :
    Option (Bool × List Byte) := do
  let total ← getIpTotalSize iph
  let headerSize ← getMpOlsrHeaderSize ws iph ser_header_
  let newPacketSize := total - headerSize
  if newPacketSize > bufferSize then return (false, newBuffer)
  else
    let ipHeaderSize ← getIpHeaderSize iph
    let newBuffer ← memcpy newBuffer 0 iph 0 ipHeaderSize
    let newBuffer ← memcpy newBuffer ipHeaderSize iph (ser_header_ + headerSize) (total - ipHeaderSize - headerSize)
    let newBuffer ← storeBe16 newBuffer 2 newPacketSize.toNat
    let protocol ← load iph (ser_header_ + 1)
    let newBuffer ← store newBuffer 9 protocol
    let first_node ← loadLong ws iph (ser_header_ + 8)
    let newBuffer ← store32 newBuffer 12 (first_node.setWidth 32)
    let newBuffer ← updateUdpChecksum ws newBuffer
    let newBuffer ← updateIpChecksum newBuffer
    return (true, newBuffer)

/-- Copy the packet, with `sData` inserted after the IP header. -/
def addMpOlsrHeader (iph : List Byte) (sData : List Byte) (dataSize : ℤ) (newBuffer : List Byte) (bufferSize : ℤ) :
    Option (Bool × List Byte) := do
  let total ← getIpTotalSize iph
  let newPacketSize := total + dataSize
  if newPacketSize > bufferSize then return (false, newBuffer)
  else
    let ipHeaderSize ← getIpHeaderSize iph
    let newBuffer ← memcpy newBuffer 0 iph 0 ipHeaderSize
    let newBuffer ← memcpy newBuffer ipHeaderSize sData 0 dataSize
    let newBuffer ← memcpy newBuffer (ipHeaderSize + dataSize) iph ipHeaderSize (total - ipHeaderSize)
    let newBuffer ← storeBe16 newBuffer 2 newPacketSize.toNat
    let newBuffer ← store newBuffer 9 IPPROTO_MPOLSR
    let newBuffer ← updateIpChecksum newBuffer
    return (true, newBuffer)

/-- Copy the packet, with its MP-OLSR header replaced by `sData`.  Without a header nothing but the IP header is kept. -/
def replaceMpOlsrHeader (iph : List Byte) (sData : List Byte) (dataSize : ℤ) (newBuffer : List Byte) (bufferSize : ℤ) :
    Option (Bool × List Byte) := do
  let ser_header_ ← MpOlsrPacket.new ws iph
  let total ← getIpTotalSize iph
  let headerSize ← ser_header_.elim (some 0) (getMpOlsrHeaderSize ws iph)
  let newPacketSize := total - headerSize + dataSize
  if newPacketSize > bufferSize then return (false, newBuffer)
  else
    let ipHeaderSize ← getIpHeaderSize iph
    let newBuffer ← memcpy newBuffer 0 iph 0 ipHeaderSize
    let newBuffer ← memcpy newBuffer ipHeaderSize sData 0 dataSize
    let newBuffer ← ser_header_.elim (some newBuffer) fun ser_header_ =>
      memcpy newBuffer (ipHeaderSize + dataSize) iph (ser_header_ + headerSize) (total - ipHeaderSize - headerSize)
    let newBuffer ← storeBe16 newBuffer 2 newPacketSize.toNat
    let newBuffer ← updateIpChecksum newBuffer
    return (true, newBuffer)

end MpOlsrPacket

end MpOlsr
