import MpOlsr.Routing.Agreement
import MpOlsr.Routing.Checksum

/-!
# Malformed headers

`hk_process_datagram_pre_routing` on arbitrary bytes behind the IP header.  The hops and the cursor of the header are
compared with each other, but not with the length of the packet, and the UDP length is not compared with the length of
the buffer (`rejectsMalformed_iff`).
-/

namespace MpOlsr

open Buffer Bytes Fault IpPacket MpOlsrPacket

variable {ws : WordSize}

/-! ### Headers of arbitrary bytes -/

theorem exists_block {x : List Byte} {k : ℕ} (h : k ≤ x.length) :
    ∃ b r, x = b ++ r ∧ b.length = k ∧ r.length + k = x.length :=
  ⟨x.take k, x.drop k, (List.take_append_drop _ _).symm, by rw [List.length_take]; omega,
    by rw [List.length_drop]; omega⟩

theorem exists_be16 {bs : List Byte} (h : bs.length = 2) : ∃ n, be16 n = bs ∧ n < 65536 := by
  obtain ⟨hi, lo, rfl⟩ := List.length_eq_two.1 h
  exact ⟨ofBe16 hi lo, be16_ofBe16 hi lo, ofBe16_lt hi lo⟩

theorem exists_long {bs : List Byte} (h : bs.length = ws.bytes) : ∃ a : ULong ws, leBytes ws.bytes a.toNat = bs := by
  have hpow : 256 ^ ws.bytes = 2 ^ ws.bits := by cases ws <;> rfl
  have hlt := ofLe_lt bs
  rw [h, hpow] at hlt
  refine ⟨BitVec.ofNat ws.bits (ofLe bs), ?_⟩
  rw [BitVec.toNat_ofNat, Nat.mod_eq_of_lt hlt, ← h, leBytes_ofLe]

theorem exists_addr {bs : List Byte} (h : bs.length = 4) : ∃ a : BitVec 32, leBytes 4 a.toNat = bs :=
  @exists_long .ilp32 bs h

/-- Every complete IP header is the header of a record. -/
theorem exists_ipHdr {xs : List Byte} {n : ℕ} (hn : ihl xs = some n) (h5 : 5 ≤ n) (hlen : 4 * n ≤ xs.length) :
    ∃ (h : IpHdr) (body : List Byte), xs = h.bytes ++ body ∧ h.WF ∧ h.version_ihl.toNat % 16 = n ∧
      h.tot_len < 65536 := by
  obtain ⟨b₀, r₀, rfl, h₀, hr₀⟩ := exists_block (x := xs) (k := 2) (by omega)
  obtain ⟨b₁, r₁, rfl, h₁, hr₁⟩ := exists_block (x := r₀) (k := 2) (by omega)
  obtain ⟨b₂, r₂, rfl, h₂, hr₂⟩ := exists_block (x := r₁) (k := 2) (by omega)
  obtain ⟨b₃, r₃, rfl, h₃, hr₃⟩ := exists_block (x := r₂) (k := 2) (by omega)
  obtain ⟨b₄, r₄, rfl, h₄, hr₄⟩ := exists_block (x := r₃) (k := 2) (by omega)
  obtain ⟨b₅, r₅, rfl, h₅, hr₅⟩ := exists_block (x := r₄) (k := 2) (by omega)
  obtain ⟨b₆, r₆, rfl, h₆, hr₆⟩ := exists_block (x := r₅) (k := 4) (by omega)
  obtain ⟨b₇, r₇, rfl, h₇, hr₇⟩ := exists_block (x := r₆) (k := 4) (by omega)
  obtain ⟨tot_len, rfl, htot⟩ := exists_be16 h₁
  obtain ⟨id, rfl, -⟩ := exists_be16 h₂
  obtain ⟨frag_off, rfl, -⟩ := exists_be16 h₃
  obtain ⟨check, rfl, -⟩ := exists_be16 h₅
  obtain ⟨saddr, rfl⟩ := exists_addr h₆
  obtain ⟨daddr, rfl⟩ := exists_addr h₇
  obtain ⟨version_ihl, tos, rfl⟩ := List.length_eq_two.1 h₀
  obtain ⟨ttl, protocol, rfl⟩ := List.length_eq_two.1 h₄
  have hv : version_ihl.toNat % 16 = n := Option.some.inj hn
  let h : IpHdr :=
    { version_ihl := version_ihl, tos := tos, tot_len := tot_len, id := id, frag_off := frag_off, ttl := ttl,
      protocol := protocol, check := check, saddr := saddr, daddr := daddr, options := r₇.take (4 * n - 20) }
  refine ⟨h, r₇.drop (4 * n - 20), ?_, ?_, hv, htot⟩
  · simp [h, IpHdr.bytes]
  · unfold IpHdr.WF
    simp only [List.length_append, length_be16, length_leBytes] at hlen
    simp only [h, List.length_take, hv]
    omega

/-- Every block of the right length is an MP-OLSR header. -/
theorem exists_serHeader {xs : List Byte} (hlen : xs.length = sizeof_ser_header ws) :
    ∃ s : SerHeader ws, s.bytes = xs ∧ s.empty < 65536 ∧ s.hops < 65536 ∧ s.cur < 65536 := by
  have hsize : sizeof_ser_header ws = 8 + ws.bytes := rfl
  obtain ⟨b₀, r₀, rfl, h₀, hr₀⟩ := exists_block (x := xs) (k := 2) (by omega)
  obtain ⟨b₁, r₁, rfl, h₁, hr₁⟩ := exists_block (x := r₀) (k := 2) (by omega)
  obtain ⟨b₂, r₂, rfl, h₂, hr₂⟩ := exists_block (x := r₁) (k := 2) (by omega)
  obtain ⟨b₃, r₃, rfl, h₃, hr₃⟩ := exists_block (x := r₂) (k := 2) (by omega)
  obtain ⟨empty, rfl, he⟩ := exists_be16 h₁
  obtain ⟨hops, rfl, hh⟩ := exists_be16 h₂
  obtain ⟨cur, rfl, hc⟩ := exists_be16 h₃
  obtain ⟨first_node, rfl⟩ := @exists_long ws r₃ (by omega)
  obtain ⟨version, protocol, rfl⟩ := List.length_eq_two.1 h₀
  exact ⟨{ version := version, protocol := protocol, empty := empty, hops := hops, cur := cur,
           first_node := first_node }, by simp [SerHeader.bytes], he, hh, hc⟩

/-! ### Reads inside and outside a block -/

theorem loadBe16_bounds {xs : List Byte} {i : ℤ} {v : ℕ} (h : loadBe16 xs i = some v) : 0 ≤ i ∧ i + 2 ≤ xs.length := by
  obtain ⟨ys, hys⟩ := storeBe16_isSome h 0
  unfold storeBe16 write at hys
  split at hys
  · next hcond =>
    rw [length_be16] at hcond
    exact ⟨hcond.1, hcond.2⟩
  · cases hys

theorem loadLong_isSome_iff {xs : List Byte} {i : ℤ} (h0 : 0 ≤ i) :
    (∃ a, loadLong ws xs i = some a) ↔ i + ws.bytes ≤ xs.length := by
  unfold loadLong Bytes.read
  constructor
  · rintro ⟨a, ha⟩
    split at ha
    · next hcond => exact hcond.2.2
    · cases ha
  · intro h
    rw [if_pos ⟨h0, by omega, h⟩]
    exact ⟨_, rfl⟩

theorem load_isSome {x : List Byte} {i : ℤ} (h0 : 0 ≤ i) (h1 : i < x.length) : ∃ b, load x i = some b := by
  rw [load, if_pos h0]
  exact ⟨_, List.getElem?_eq_getElem (by omega)⟩

theorem addWords_bounds {mem : List Byte} {i : ℤ} {n : ℕ} {sum sum' : BitVec 32}
    (h : addWords mem i n sum = some sum') (hn : 0 < n) : i + 2 * n ≤ mem.length := by
  induction n generalizing i sum with
  | zero => omega
  | succ n ih =>
    obtain ⟨w, hw, h⟩ := Option.bind_eq_some_iff.1 h
    have hb := (loadBe16_bounds hw).2
    rcases Nat.eq_zero_or_pos n with rfl | hpos
    · omega
    · have := ih h hpos
      omega

/-- The checksum routine stays in the buffer if the datagram does, for the length that is written in it. -/
theorem updateUdpChecksum_isSome_iff {mem : List Byte} {n len : ℕ} (hn : ihl mem = some n) (h5 : 5 ≤ n)
    (hroom : n * ws.bytes + 8 ≤ mem.length) (hlen : loadBe16 mem (n * ws.bytes + 4 : ℕ) = some len) :
    (∃ y, updateUdpChecksum ws mem = some y) ↔ n * ws.bytes + len ≤ mem.length := by
  have hbytes : 4 ≤ ws.bytes := by cases ws <;> decide
  have hudp : 20 ≤ n * ws.bytes := le_trans (by omega) (Nat.mul_le_mul h5 hbytes)
  generalize hu : n * ws.bytes = udp at *
  obtain ⟨a, x, c, hmem, ha, hx⟩ := exists_split (l := mem) (i := udp + 4) (n := 2) (by omega)
  obtain ⟨y, z, rfl, hy⟩ : ∃ y z, c = y ++ z ∧ y.length = 2 := by
    have hlc := congrArg List.length hmem
    simp only [List.length_append] at hlc
    exact ⟨c.take 2, c.drop 2, (List.take_append_drop _ _).symm, by rw [List.length_take]; omega⟩
  let mem' := a ++ (x ++ (be16 0 ++ z))
  have hlength : mem'.length = mem.length := by
    rw [hmem]
    simp only [mem', List.length_append, length_be16, hy]
  have hstore : storeBe16 mem ((udp : ℤ) + 6) 0 = some mem' := by
    have hsplit : mem = (a ++ x) ++ (y ++ z) := by rw [hmem, List.append_assoc]
    rw [storeBe16, write_eq hsplit (by rw [List.length_append]; omega) (by rw [hy]; rfl), List.append_assoc]
  have hload' : loadBe16 mem' ((udp : ℤ) + 4) = some len := by
    have hcast : ((udp : ℤ) + 4) = (a.length : ℤ) + (0 : ℕ) := by omega
    have hcast' : ((udp + 4 : ℕ) : ℤ) = (a.length : ℤ) + (0 : ℕ) := by omega
    rw [hmem, hcast', loadBe16_append] at hlen
    rw [hcast, loadBe16_append, ← hlen]
    obtain ⟨x0, x1, rfl⟩ := List.length_eq_two.1 hx
    rfl
  obtain ⟨s1, hs1⟩ := SumWords_isSome (m := mem') (i := 12) (n := 4) (by omega) (by omega)
  have hpos : ((n : ℤ) * ws.bytes) = (udp : ℤ) := by rw [← hu]; push_cast; ring
  have hrun : updateUdpChecksum ws mem = (SumWords mem' udp (len / 2)).bind fun words =>
      (addLastByte mem' udp len (s1 + BitVec.ofNat 32 IPPROTO_UDP.toNat + BitVec.ofNat 32 len + words)).bind fun sum =>
        storeBe16 mem' ((udp : ℤ) + 6) (foldSum sum).toNat := by
    unfold updateUdpChecksum
    rw [bind_of_some hn]
    simp only [hpos]
    rw [bind_of_some hstore, bind_of_some hs1, bind_of_some hload']
    rfl
  rw [hrun]
  constructor
  · rintro ⟨r, hr⟩
    obtain ⟨words, hwords, hr⟩ := Option.bind_eq_some_iff.1 hr
    obtain ⟨sum, hsum, -⟩ := Option.bind_eq_some_iff.1 hr
    rw [SumWords_eq_rounds, SumWordsRounds_eq] at hwords
    unfold addLastByte at hsum
    split at hsum
    · obtain ⟨b, hb, -⟩ := Option.map_eq_some_iff.1 hsum
      unfold load at hb
      split at hb
      · have hlt := (List.getElem?_eq_some_iff.1 hb).1
        omega
      · cases hb
    · rcases Nat.eq_zero_or_pos (len / 2) with h0 | h0
      · omega
      · have := addWords_bounds hwords h0
        omega
  · intro hfits
    obtain ⟨words, hwords⟩ := SumWords_isSome (m := mem') (i := udp) (n := len / 2) (by omega) (by omega)
    have hlast : ∃ sum, addLastByte mem' udp len
        (s1 + BitVec.ofNat 32 IPPROTO_UDP.toNat + BitVec.ofNat 32 len + words) = some sum := by
      unfold addLastByte
      split
      · obtain ⟨b, hb⟩ := load_isSome (x := mem') (i := (udp : ℤ) + len - 1) (by omega) (by omega)
        rw [hb]
        exact ⟨_, rfl⟩
      · exact ⟨_, rfl⟩
    obtain ⟨sum, hsum⟩ := hlast
    have hcheck : loadBe16 mem' ((udp : ℤ) + 6) = some 0 := by
      refine loadBe16_eq (a := a ++ x) (c := z) ?_ ?_ (by omega)
      · simp only [mem', List.append_assoc]
      · rw [List.length_append]
        omega
    obtain ⟨r, hr⟩ := storeBe16_isSome hcheck (foldSum sum).toNat
    exact ⟨r, Option.bind_eq_some_iff.2 ⟨_, hwords, Option.bind_eq_some_iff.2 ⟨_, hsum, hr⟩⟩⟩

/-! ### Received packets -/

/-- A byte string received as an IPv4 packet for MP-OLSR. -/
structure ReceivedPacket where
  bytes : List Byte
  words : ℕ
  ihl_eq : ihl bytes = some words
  five_le : 5 ≤ words
  tot_len : loadBe16 bytes 2 = some bytes.length
  protocol : load bytes 9 = some IPPROTO_MPOLSR
  fits : bytes.length ≤ BUFFER_SIZE

namespace ReceivedPacket

variable (ws) in
/-- The size of a header with `hops` addresses of four bytes. -/
def headerSize (hops : ℕ) : ℕ := sizeof_ser_header ws + 4 * hops

variable (p : ReceivedPacket)

def payload_size : ℤ := p.bytes.length - 4 * p.words

/-- `ser_header_` -/
def start : ℤ := 4 * p.words

variable (ws) in
/-- The address behind the first `k` addresses, which has the width of an `unsigned long`. -/
def hopAt (k : ℕ) : Option (ip_v4_addr ws) :=
  loadLong ws p.bytes (p.start + sizeof_ser_header ws + k * ws.bytes)

variable (ws) in
/-- The header exceeds the payload. -/
def Oversized : Prop :=
  p.payload_size < sizeof_ser_header ws ∨ ∃ h, hops p.bytes p.start = some h ∧ p.payload_size < headerSize ws h

variable (node : Node ws) (path newpayload : List Byte)

/-- The lookup for the recovery, which is reached over a next hop without a link, leaves its own buffer. -/
def LookupFaults : Prop :=
  ∃ next src last header, getNextAddr ws p.bytes p.start = some next ∧ next ≠ 0 ∧
    0 < (pth_checkNextHop node next).1 ∧ load32 p.bytes 16 = some src ∧
    getLastAddr ws p.bytes p.start = some last ∧ loadSerHeader ws p.bytes p.start = some header ∧
    pth_find_datagram_path node path MAX_MPOLSR_PATH (src.setWidth ws.bits) last 0
      { header with first_node := src.setWidth ws.bits } = none

/-- The hook stays in the packet and in the output buffer, and returns -1 if the header exceeds the payload. -/
def RejectsMalformed : Prop :=
  (hk_process_datagram_pre_routing node path p.bytes newpayload BUFFER_SIZE = none → p.LookupFaults node path) ∧
  ∀ r, hk_process_datagram_pre_routing node path p.bytes newpayload BUFFER_SIZE = some r → p.Oversized ws → r.ret = -1

variable (ws) in
/-- The packet without its header, over the old contents of the output buffer. -/
def stripped (hops : ℕ) : List Byte :=
  p.bytes.take (4 * p.words) ++ (p.bytes.drop (4 * p.words + headerSize ws hops) ++
    newpayload.drop (p.bytes.length - headerSize ws hops))

/-- The cursor is at the local node. -/
def AtNode (c : ℕ) : Prop := p.hopAt ws (c - 1) = some node.local_addr ∧ node.local_addr ≠ 0

/-- What the hook relies on for a packet with `h` hops and the cursor at one of them, `c`. -/
structure WithinPacket (h c : ℕ) : Prop where
  current : (sizeof_ser_header ws + c * ws.bytes : ℕ) ≤ p.payload_size
  deliver : p.AtNode node c → c = h → ∀ len, loadBe16 (p.stripped ws newpayload h) (p.words * ws.bytes + 4 : ℕ) = some len →
    p.words * ws.bytes + len ≤ BUFFER_SIZE
  next : p.AtNode node c → c < h → (sizeof_ser_header ws + (c + 1) * ws.bytes : ℕ) ≤ p.payload_size
  recover : p.AtNode node c → c < h → ∀ a, p.hopAt ws c = some a → a ≠ 0 → 0 < (pth_checkNextHop node a).1 →
    (sizeof_ser_header ws + h * ws.bytes : ℕ) ≤ p.payload_size
  forward : p.AtNode node c → c < h → ∀ a, p.hopAt ws c = some a → a ≠ 0 → (pth_checkNextHop node a).1 = 0 →
    headerSize ws h ≤ p.payload_size

/-- The IP header is complete, and the packet has room for what the cursor leads to. -/
def Sound : Prop :=
  0 ≤ p.payload_size ∧ ((sizeof_ser_header ws : ℤ) ≤ p.payload_size → ∀ h c, hops p.bytes p.start = some h →
    cur p.bytes p.start = some c → 1 ≤ c → c ≤ h → p.WithinPacket node newpayload h c)

/-! ### The fields of a received packet -/

variable {p} {node path newpayload}

theorem getIpHeaderSize_eq (p : ReceivedPacket) : getIpHeaderSize p.bytes = some p.start := by
  rw [getIpHeaderSize, p.ihl_eq, start, mul_comm]
  rfl

theorem getIpTotalSize_eq (p : ReceivedPacket) : getIpTotalSize p.bytes = some (p.bytes.length : ℤ) := by
  rw [getIpTotalSize, p.tot_len]
  rfl

variable (ws) in
theorem new_eq (p : ReceivedPacket) : MpOlsrPacket.new ws p.bytes =
    some (if p.payload_size < 0 ∨ (sizeof_ser_header ws : ℤ) ≤ p.payload_size then some p.start else none) := by
  have hpay : getIpPayloadSize p.bytes = some p.payload_size := by
    rw [getIpPayloadSize, bind_of_some p.getIpTotalSize_eq, bind_of_some p.getIpHeaderSize_eq]
    rfl
  rw [MpOlsrPacket.new, bind_of_some hpay, bind_of_some p.getIpHeaderSize_eq]
  rfl

/-- The address is inside the payload. -/
theorem hopAt_isSome_iff (k : ℕ) : (∃ a, p.hopAt ws k = some a) ↔
    ((sizeof_ser_header ws + (k + 1) * ws.bytes : ℕ) : ℤ) ≤ p.payload_size := by
  have h0 : (0 : ℤ) ≤ p.start + sizeof_ser_header ws + k * ws.bytes := by
    have := Int.mul_nonneg (Int.natCast_nonneg k) (Int.natCast_nonneg ws.bytes)
    unfold start
    omega
  rw [hopAt, loadLong_isSome_iff h0, payload_size, start, Nat.succ_mul]
  push_cast
  constructor <;> intro h <;> omega

theorem getHopAddr_eq {h i : ℕ} (hh : hops p.bytes p.start = some h) (h1 : 1 ≤ i) (hi : i ≤ h) :
    getHopAddr ws p.bytes p.start i = p.hopAt ws (i - 1) := by
  have hcast : ((i - 1 : ℕ) : ℤ) = (i : ℤ) - 1 := by omega
  rw [getHopAddr, bind_of_some hh, if_neg (by omega), hopAt, hcast]

theorem getHopAddr_outside {h : ℕ} {i : ℤ} (hh : hops p.bytes p.start = some h) (hi : i ≤ 0 ∨ i > h) :
    getHopAddr ws p.bytes p.start i = some 0 := by
  rw [getHopAddr, bind_of_some hh, if_pos hi]

/-- The fields of the header are read if there is room for it. -/
theorem exists_header (hroom : (sizeof_ser_header ws : ℤ) ≤ p.payload_size) :
    ∃ h c, hops p.bytes p.start = some h ∧ cur p.bytes p.start = some c := by
  have hsize : sizeof_ser_header ws = 8 + ws.bytes := rfl
  unfold payload_size at hroom
  obtain ⟨h, hh⟩ := loadBe16_isSome (m := p.bytes) (i := p.start + 4) (by unfold start; omega) (by unfold start; omega)
  obtain ⟨c, hc⟩ := loadBe16_isSome (m := p.bytes) (i := p.start + 6) (by unfold start; omega) (by unfold start; omega)
  exact ⟨h, c, hh, hc⟩

theorem exists_daddr (hroom : (0 : ℤ) ≤ p.payload_size) : ∃ src, load32 p.bytes 16 = some src := by
  have h5 := p.five_le
  unfold payload_size at hroom
  unfold load32 Bytes.read
  rw [if_pos ⟨by omega, by omega, by omega⟩]
  exact ⟨_, rfl⟩

/-! ### The decision -/

section Decision

variable {h c : ℕ} (hroom : (sizeof_ser_header ws : ℤ) ≤ p.payload_size) (hh : hops p.bytes p.start = some h)
  (hc : cur p.bytes p.start = some c)

include hroom hh hc

theorem nextStep_eq (hc1 : 1 ≤ c) (hch : c ≤ h) : nextStep node p.bytes = (p.hopAt ws (c - 1)).bind fun a =>
    if a = 0 then some .refuse else if pth_checkCurrentAddr node a ≠ 0 then some .refuse
    else if c = h then some (.deliver p.start)
    else (p.hopAt ws c).bind fun a =>
      if a = 0 then some .refuse else if (pth_checkNextHop node a).1 < 0 then some .refuse
      else if (pth_checkNextHop node a).1 > 0 then some .recover
      else some (.forward p.start (pth_checkNextHop node a).2) := by
  have hnew := p.new_eq ws
  rw [if_pos (Or.inr hroom)] at hnew
  have hcur : getCurrentAddr ws p.bytes p.start = p.hopAt ws (c - 1) := by
    rw [getCurrentAddr, bind_of_some hc, getHopAddr_eq hh hc1 hch]
  have hend : isEndOfPath p.bytes p.start = some (decide (c = h)) := by
    rw [isEndOfPath, bind_of_some hc, bind_of_some hh]
    by_cases heq : c = h
    · rw [if_neg (by omega), if_neg (by omega), if_neg (by omega), decide_eq_true heq]
      rfl
    · rw [if_neg (by omega), if_pos (by omega), decide_eq_false heq]
      rfl
  have hnext : c ≠ h → getNextAddr ws p.bytes p.start = p.hopAt ws c := by
    intro hne
    rw [getNextAddr, bind_of_some hc]
    exact getHopAddr_eq (i := c + 1) hh (by omega) (by omega)
  have hbind := @nextStep_bind ws node p.bytes _ some
  rw [Option.bind_fun_some] at hbind
  rw [hbind, hnew, Option.bind_some, Option.elim_some, hcur, hend]
  congr 1
  funext a
  rw [Option.bind_some]
  by_cases heq : c = h
  · rw [decide_eq_true heq, if_pos rfl, if_pos heq]
  · rw [decide_eq_false heq, if_neg Bool.false_ne_true, if_neg heq, hnext heq]

theorem nextStep_refuse (hout : c = 0 ∨ h < c) : nextStep node p.bytes = some .refuse := by
  have hnew := p.new_eq ws
  rw [if_pos (Or.inr hroom)] at hnew
  have hcur : getCurrentAddr ws p.bytes p.start = some 0 := by
    rw [getCurrentAddr, bind_of_some hc, getHopAddr_outside hh (by omega)]
  have hbind := @nextStep_bind ws node p.bytes _ some
  rw [Option.bind_fun_some] at hbind
  rw [hbind, hnew, Option.bind_some, Option.elim_some, hcur, Option.bind_some, if_pos rfl]

end Decision

/-! ### The steps -/

/-- The packet behind a record of its IP header. -/
theorem split (hcomplete : 0 ≤ p.payload_size) : ∃ (h : IpHdr) (body : List Byte), p.bytes = h.bytes ++ body ∧ h.WF ∧
    h.bytes.length = 4 * p.words ∧ h.tot_len = h.bytes.length + body.length ∧ h.tot_len < 65536 := by
  unfold payload_size at hcomplete
  obtain ⟨h, body, hbytes, hw, hwords, hlt⟩ := exists_ipHdr p.ihl_eq p.five_le (by omega)
  have htot := p.tot_len
  rw [hbytes, IpHdr.load_tot_len hlt, List.length_append, Option.some.injEq] at htot
  refine ⟨h, body, hbytes, hw, ?_, htot, hlt⟩
  unfold IpHdr.WF at hw
  rw [IpHdr.length_bytes]
  omega

/-- The header behind the IP header. -/
theorem split_header {body pre : List Byte} {h : ℕ} (hbytes : p.bytes = pre ++ body) (hpre : pre.length = 4 * p.words)
    (hroom : (sizeof_ser_header ws : ℤ) ≤ p.payload_size) (hh : hops p.bytes p.start = some h) :
    ∃ (s : SerHeader ws) (rest : List Byte), body = s.bytes ++ rest ∧ s.hops = h ∧
      loadSerHeader ws p.bytes p.start = some s := by
  have hstart : p.start = pre.length := by
    rw [hpre, start]
    push_cast
    rfl
  have hlen : sizeof_ser_header ws ≤ body.length := by
    have hb := congrArg List.length hbytes
    rw [List.length_append] at hb
    unfold payload_size at hroom
    omega
  obtain ⟨b, rest, hbody, hb, -⟩ := exists_block hlen
  obtain ⟨s, rfl, he, hops_lt, hc⟩ := exists_serHeader hb
  rw [hbytes, hstart, hbody] at hh ⊢
  rw [SerHeader.hops_eq pre rest hops_lt, Option.some.injEq] at hh
  exact ⟨s, rest, rfl, hh, loadSerHeader_eq pre rest he hops_lt hc⟩

/-- The header is removed, unless the UDP length leads out of the output buffer. -/
theorem decapsulate_isSome_iff {h : ℕ} (hh : hops p.bytes p.start = some h)
    (hroom : (headerSize ws h : ℤ) ≤ p.payload_size) (hn : newpayload.length = BUFFER_SIZE) :
    (∃ r, decapsulate ws p.bytes newpayload BUFFER_SIZE p.start = some r) ↔ ∀ len,
      loadBe16 (p.stripped ws newpayload h) (p.words * ws.bytes + 4 : ℕ) = some len →
        p.words * ws.bytes + len ≤ BUFFER_SIZE := by
  have hsize : headerSize ws h = sizeof_ser_header ws + 4 * h := rfl
  obtain ⟨hd, body, hbytes, hw, hwords, htot, hlt⟩ := p.split (by omega)
  obtain ⟨s, rest, rfl, rfl, hload⟩ := @split_header ws p body _ h hbytes hwords (by omega) hh
  have hfits := p.fits
  have hlength := congrArg List.length hbytes
  simp only [List.length_append, SerHeader.length_bytes] at hlength htot
  unfold payload_size at hroom
  obtain ⟨addrs, d, rfl, haddrs, hdlen⟩ := exists_block (x := rest) (k := 4 * s.hops) (by omega)
  have hstart : p.start = hd.bytes.length := by
    rw [hwords, start]
    push_cast
    rfl
  have hremove := @removeMpOlsrHeader_eq ws hd hw s addrs d [] newpayload (by omega) (by omega) hlt (by omega)
  rw [List.append_nil, ← hbytes, hn, ← hstart] at hremove
  let hd' := hd.restore s d.length
  let rest' := d ++ newpayload.drop (hd.bytes.length + d.length)
  have hmem : (hd'.bytes ++ rest').length = BUFFER_SIZE := by
    have hd'len : hd'.bytes.length = hd.bytes.length := rfl
    simp only [rest', List.length_append, List.length_drop]
    omega
  have hbytes4 : 4 * p.words ≤ p.words * ws.bytes := by
    rw [Nat.mul_comm]
    exact Nat.mul_le_mul_left _ (by cases ws <;> decide)
  have hsmall : p.words * ws.bytes ≤ 120 := by
    have hwords15 : p.words ≤ 15 := by
      obtain ⟨v, -, hv⟩ := Option.map_eq_some_iff.1 p.ihl_eq
      omega
    exact le_trans (Nat.mul_le_mul hwords15 (by cases ws <;> decide : ws.bytes ≤ 8)) (by omega)
  -- the length is read behind the IP header, where both buffers agree
  have hstripped : p.stripped ws newpayload s.hops = hd.bytes ++ rest' := by
    have hcut : p.bytes.length - headerSize ws s.hops = hd.bytes.length + d.length := by omega
    have htake : p.bytes.take (4 * p.words) = hd.bytes := by rw [hbytes, ← hwords, List.take_left]
    have hdrop : p.bytes.drop (4 * p.words + headerSize ws s.hops) = d := by
      have hpre : p.bytes = (hd.bytes ++ (s.bytes ++ addrs)) ++ d := by rw [hbytes]; simp
      have hprelen : 4 * p.words + headerSize ws s.hops = (hd.bytes ++ (s.bytes ++ addrs)).length := by
        simp only [List.length_append, SerHeader.length_bytes]
        omega
      rw [hpre, hprelen, List.drop_left]
    rw [stripped, hcut, htake, hdrop]
  obtain ⟨k, hk⟩ : ∃ k, p.words * ws.bytes + 4 = hd.bytes.length + k := ⟨p.words * ws.bytes + 4 - 4 * p.words, by omega⟩
  have hsame : loadBe16 (p.stripped ws newpayload s.hops) (p.words * ws.bytes + 4 : ℕ) =
      loadBe16 (hd'.bytes ++ rest') (p.words * ws.bytes + 4 : ℕ) := by
    have hd'len : hd'.bytes.length = hd.bytes.length := rfl
    rw [hstripped, hk]
    push_cast
    rw [loadBe16_append]
    conv => rhs; rw [← hd'len]
    rw [loadBe16_append]
  obtain ⟨len, hlen⟩ := loadBe16_isSome (m := hd'.bytes ++ rest') (i := (p.words * ws.bytes + 4 : ℕ)) (by omega)
    (by rw [hmem, BUFFER_SIZE]; omega)
  have hihl : ihl (hd'.bytes ++ rest') = some p.words := by
    have hwf : hd'.WF := hw
    have hd'len : hd'.bytes.length = hd.bytes.length := rfl
    rw [IpHdr.ihl_eq]
    unfold IpHdr.WF at hwf
    rw [IpHdr.length_bytes] at hd'len
    congr 1
    omega
  have hudp := @updateUdpChecksum_isSome_iff ws _ _ _ hihl p.five_le (by rw [hmem, BUFFER_SIZE]; omega) hlen
  rw [hmem] at hudp
  have hrun : (∃ r, decapsulate ws p.bytes newpayload BUFFER_SIZE p.start = some r) ↔
      ∃ y, updateUdpChecksum ws (hd'.bytes ++ rest') = some y := by
    have hheader : getMpOlsrHeaderSize ws p.bytes p.start = some ((s.hops : ℤ) * ip_v4_size + sizeof_ser_header ws) := by
      rw [getMpOlsrHeaderSize, hh]
      rfl
    constructor
    · rintro ⟨r, hr⟩
      obtain ⟨y, hy, -⟩ := Option.bind_eq_some_iff.1 hr
      rw [hremove] at hy
      obtain ⟨z, hz, -⟩ := Option.bind_eq_some_iff.1 hy
      exact ⟨z, hz⟩
    · rintro ⟨y, hy⟩
      obtain ⟨rest₂, rfl⟩ := updateUdpChecksum_header (h := hd') hw hy
      obtain ⟨c, hc⟩ := updateIpChecksum_spec (h := hd') hw rest₂
      have hremove' : removeMpOlsrHeader ws p.bytes p.start newpayload BUFFER_SIZE =
          some (true, { hd' with check := c }.bytes ++ rest₂) := by
        rw [hremove]
        refine (congrArg (fun o => Option.bind o _) hy).trans ?_
        rw [Option.bind_some, hc]
        rfl
      unfold decapsulate
      rw [bind_of_some hremove']
      dsimp only
      rw [if_neg (by simp), bind_of_some p.getIpTotalSize_eq, bind_of_some hheader]
      exact ⟨_, rfl⟩
  rw [hrun, hudp, hsame, hlen]
  constructor
  · intro hle len' hlen'
    cases hlen'
    exact hle
  · exact fun hall => hall len rfl

/-- The recovery only faults in its lookup. -/
theorem recovery_faults {h : ℕ} (hh : hops p.bytes p.start = some h) (h1 : 1 ≤ h)
    (hroom : (sizeof_ser_header ws + h * ws.bytes : ℕ) ≤ p.payload_size) (hn : newpayload.length = BUFFER_SIZE)
    (hrun : hk_route_recovery_pre_routing node path p.bytes newpayload BUFFER_SIZE = none) :
    ∃ src last header, load32 p.bytes 16 = some src ∧ getLastAddr ws p.bytes p.start = some last ∧
      loadSerHeader ws p.bytes p.start = some header ∧
      pth_find_datagram_path node path MAX_MPOLSR_PATH (src.setWidth ws.bits) last 0
        { header with first_node := src.setWidth ws.bits } = none := by
  have hser : (sizeof_ser_header ws : ℤ) ≤ p.payload_size := by omega
  obtain ⟨hd, body, hbytes, hw, hwords, htot, hlt⟩ := p.split (by omega)
  obtain ⟨s, rest, -, -, hload⟩ := split_header hbytes hwords hser hh
  have hnew := p.new_eq ws
  rw [if_pos (Or.inr hser)] at hnew
  obtain ⟨src, hsrc⟩ := p.exists_daddr (by omega)
  obtain ⟨last, hlast⟩ : ∃ last, getLastAddr ws p.bytes p.start = some last := by
    rw [getLastAddr, bind_of_some hh, getHopAddr_eq hh h1 le_rfl, hopAt_isSome_iff, Nat.sub_add_cancel h1]
    exact hroom
  refine ⟨src, last, s, hsrc, hlast, hload, ?_⟩
  by_contra hne
  obtain ⟨res, hres⟩ := Option.ne_none_iff_exists'.1 hne
  refine Option.isSome_iff_ne_none.1 ?_ hrun
  -- in every other case the hook returns
  by_cases hfound : RouteFound node path p.bytes
  · rw [hbytes] at hfound ⊢
    obtain ⟨r, hr, -⟩ := recovery_of_routeFound node path hw htot hlt hn hfound
    exact Option.isSome_iff_exists.2 ⟨r, hr⟩
  · unfold hk_route_recovery_pre_routing
    rw [bind_of_some hnew]
    dsimp only
    rw [bind_of_some hsrc, bind_of_some hlast]
    split
    · rfl
    next hzero =>
    rw [bind_of_some hload, bind_of_some hres]
    split
    · rfl
    next hret =>
    split
    · rfl
    have hlong : (BUFFER_SIZE : ℤ) < hd.tot_len + res.size := by
      by_contra hle
      refine hfound ⟨p.start, src, last, s, res, hnew, hsrc, hlast, hzero, hload, hres, by omega, ?_⟩
      rw [hbytes, List.length_append, ← htot]
      omega
    have hadd : addMpOlsrHeader p.bytes res.path_data res.size newpayload BUFFER_SIZE = some (false, newpayload) := by
      rw [hbytes]
      exact addMpOlsrHeader_refuses hlt hlong
    rw [bind_of_some hadd]
    rfl

/-- A datagram that is forwarded is copied. -/
theorem copyOn_ret {h c : ℕ} (hcomplete : 0 ≤ p.payload_size) (hh : hops p.bytes p.start = some h)
    (hc : cur p.bytes p.start = some c) (hch : c < h) (hn : newpayload.length = BUFFER_SIZE) (a : ip_v4_addr ws) :
    ∃ r, copyOn p.bytes newpayload BUFFER_SIZE p.start a = some r ∧ r.ret = 0 := by
  obtain ⟨hd, body, hbytes, hw, hwords, htot, hlt⟩ := p.split hcomplete
  have hstart : p.start = hd.bytes.length := by
    rw [hwords, start]
    push_cast
    rfl
  have hfits := p.fits
  rw [hbytes, hstart] at hh hc ⊢
  rw [hbytes] at hfits
  obtain ⟨datagram, -, -, hcopy, -⟩ := sendOn_spec (n := newpayload) hw htot hlt a BUFFER_SIZE hc hh (by omega)
  obtain ⟨r, hr, hret, -, -⟩ := hcopy (by omega)
  exact ⟨r, hr, hret⟩

/-! ### The hook -/

theorem LookupFaults.bounds (hf : p.LookupFaults node path) : ∃ h c, hops p.bytes p.start = some h ∧
    cur p.bytes p.start = some c ∧ c < h ∧ (sizeof_ser_header ws + h * ws.bytes : ℕ) ≤ p.payload_size := by
  obtain ⟨next, src, last, header, hnext, hne, -, -, hlast, -, -⟩ := hf
  obtain ⟨c, hc, hhop⟩ := Option.bind_eq_some_iff.1 hnext
  obtain ⟨h, hh, hlast⟩ := Option.bind_eq_some_iff.1 hlast
  have hch : c < h := by
    by_contra hle
    rw [getHopAddr_outside hh (by omega)] at hhop
    exact hne (Option.some.inj hhop).symm
  rw [getHopAddr_eq hh (by omega) le_rfl] at hlast
  have hbound := (hopAt_isSome_iff (h - 1)).1 ⟨last, hlast⟩
  rw [Nat.sub_add_cancel (by omega)] at hbound
  exact ⟨h, c, hh, hc, hch, hbound⟩

theorem rejects_of_ret {r : HookResult} (hr : r.ret = -1)
    (hrun : hk_process_datagram_pre_routing node path p.bytes newpayload BUFFER_SIZE = some r) :
    p.RejectsMalformed node path newpayload := by
  refine ⟨fun hnone => ?_, fun r' hr' _ => ?_⟩
  · rw [hrun] at hnone
    cases hnone
  · rw [hrun] at hr'
    cases hr'
    exact hr

theorem oversized_iff {h : ℕ} (hroom : (sizeof_ser_header ws : ℤ) ≤ p.payload_size)
    (hh : hops p.bytes p.start = some h) : p.Oversized ws ↔ p.payload_size < headerSize ws h := by
  unfold Oversized
  constructor
  · rintro (hlt | ⟨h', hh', hlt⟩)
    · omega
    · rw [hh] at hh'
      cases hh'
      exact hlt
  · exact fun hlt => Or.inr ⟨h, hh, hlt⟩

variable (ws) in
/-- An address has at least four bytes. -/
theorem headerSize_le (h : ℕ) : headerSize ws h ≤ sizeof_ser_header ws + h * ws.bytes := by
  have hbytes : h * 4 ≤ h * ws.bytes := Nat.mul_le_mul_left h (by cases ws <;> decide)
  unfold headerSize
  omega

section Hook

variable {h c : ℕ} (hroom : (sizeof_ser_header ws : ℤ) ≤ p.payload_size) (hh : hops p.bytes p.start = some h)
  (hc : cur p.bytes p.start = some c) (hc1 : 1 ≤ c)

include hroom hh hc hc1

/-- The node is the last one. -/
theorem rejects_deliver_iff (hn : newpayload.length = BUFFER_SIZE) (hnode : p.AtNode node c) (heq : c = h)
    (hrun : hk_process_datagram_pre_routing node path p.bytes newpayload BUFFER_SIZE =
      decapsulate ws p.bytes newpayload BUFFER_SIZE p.start) :
    p.RejectsMalformed node path newpayload ↔ p.WithinPacket node newpayload h c := by
  have hcurrent := (hopAt_isSome_iff (c - 1)).1 ⟨_, hnode.1⟩
  rw [Nat.sub_add_cancel hc1] at hcurrent
  have hsize : (headerSize ws h : ℤ) ≤ p.payload_size := by
    have := headerSize_le ws h
    rw [heq] at hcurrent
    omega
  have hdeliver := decapsulate_isSome_iff hh hsize hn
  constructor
  · rintro ⟨hinside, -⟩
    refine ⟨hcurrent, fun _ _ => ?_, fun _ hlt => absurd hlt (by omega), fun _ hlt => absurd hlt (by omega),
      fun _ hlt => absurd hlt (by omega)⟩
    apply hdeliver.1
    rw [← Option.isSome_iff_exists, Option.isSome_iff_ne_none, ← hrun]
    intro hnone
    obtain ⟨h', c', hh', hc', hlt, -⟩ := (hinside hnone).bounds
    rw [hh] at hh'
    rw [hc] at hc'
    cases hh'
    cases hc'
    omega
  · intro hw
    obtain ⟨r, hr⟩ := hdeliver.2 (hw.deliver hnode heq)
    rw [← hrun] at hr
    refine ⟨fun hnone => ?_, fun r' _ hover => ?_⟩
    · rw [hr] at hnone
      cases hnone
    · have := (oversized_iff hroom hh).1 hover
      omega

/-- The next hop has no link. -/
theorem rejects_recover_iff (hn : newpayload.length = BUFFER_SIZE) (hnode : p.AtNode node c) (hlt : c < h)
    {a : ip_v4_addr ws} (ha : p.hopAt ws c = some a) (hne : a ≠ 0) (hpos : 0 < (pth_checkNextHop node a).1)
    (hrun : hk_process_datagram_pre_routing node path p.bytes newpayload BUFFER_SIZE =
      hk_route_recovery_pre_routing node path p.bytes newpayload BUFFER_SIZE) :
    p.RejectsMalformed node path newpayload ↔ p.WithinPacket node newpayload h c := by
  have hcurrent := (hopAt_isSome_iff (c - 1)).1 ⟨_, hnode.1⟩
  rw [Nat.sub_add_cancel hc1] at hcurrent
  have hnext := (hopAt_isSome_iff c).1 ⟨_, ha⟩
  constructor
  · rintro ⟨hinside, -⟩
    refine ⟨hcurrent, fun _ heq => absurd heq (by omega), fun _ _ => hnext, fun _ _ _ _ _ _ => ?_,
      fun _ _ b hb _ hzero => ?_⟩
    · by_contra hshort
      have hlast : getLastAddr ws p.bytes p.start = none := by
        rw [getLastAddr, bind_of_some hh, getHopAddr_eq hh (by omega) le_rfl, Option.eq_none_iff_forall_ne_some]
        intro b hb
        have hbound := (hopAt_isSome_iff (h - 1)).1 ⟨b, hb⟩
        rw [Nat.sub_add_cancel (by omega)] at hbound
        exact hshort hbound
      have hnew := p.new_eq ws
      rw [if_pos (Or.inr hroom)] at hnew
      obtain ⟨src, hsrc⟩ := p.exists_daddr (by omega)
      have hnone : hk_process_datagram_pre_routing node path p.bytes newpayload BUFFER_SIZE = none := by
        rw [hrun, hk_route_recovery_pre_routing, bind_of_some hnew]
        dsimp only
        rw [bind_of_some hsrc, hlast]
        rfl
      obtain ⟨h', c', hh', -, -, hbound⟩ := (hinside hnone).bounds
      rw [hh] at hh'
      cases hh'
      exact hshort hbound
    · rw [ha] at hb
      cases hb
      omega
  · intro hw
    have hlast := hw.recover hnode hlt a ha hne hpos
    refine ⟨fun hnone => ?_, fun r' _ hover => ?_⟩
    · rw [hrun] at hnone
      obtain ⟨src, last, header, hsrc, hl, hheader, hlookup⟩ := recovery_faults hh (by omega) hlast hn hnone
      refine ⟨a, src, last, header, ?_, hne, hpos, hsrc, hl, hheader, hlookup⟩
      rw [getNextAddr, bind_of_some hc, ← ha]
      exact getHopAddr_eq (i := c + 1) hh (by omega) (by omega)
    · have hover := (oversized_iff hroom hh).1 hover
      have := headerSize_le ws h
      omega

/-- The datagram is forwarded. -/
theorem rejects_forward_iff (hn : newpayload.length = BUFFER_SIZE) (hnode : p.AtNode node c) (hlt : c < h)
    {a b : ip_v4_addr ws} (ha : p.hopAt ws c = some a) (hne : a ≠ 0) (hzero : (pth_checkNextHop node a).1 = 0)
    (hrun : hk_process_datagram_pre_routing node path p.bytes newpayload BUFFER_SIZE =
      copyOn p.bytes newpayload BUFFER_SIZE p.start b) :
    p.RejectsMalformed node path newpayload ↔ p.WithinPacket node newpayload h c := by
  have hcurrent := (hopAt_isSome_iff (c - 1)).1 ⟨_, hnode.1⟩
  rw [Nat.sub_add_cancel hc1] at hcurrent
  have hnext := (hopAt_isSome_iff c).1 ⟨_, ha⟩
  obtain ⟨r, hr, hret⟩ := copyOn_ret (p := p) (by omega) hh hc hlt hn b
  rw [← hrun] at hr
  constructor
  · rintro ⟨-, hover⟩
    refine ⟨hcurrent, fun _ heq => absurd heq (by omega), fun _ _ => hnext, fun _ _ b' hb' _ hpos => ?_,
      fun _ _ _ _ _ _ => ?_⟩
    · rw [ha] at hb'
      cases hb'
      omega
    · by_contra hshort
      have := hover r hr ((oversized_iff hroom hh).2 (by omega))
      omega
  · intro hw
    have hsize := hw.forward hnode hlt a ha hne hzero
    refine ⟨fun hnone => ?_, fun r' _ hover => ?_⟩
    · rw [hr] at hnone
      cases hnone
    · have hover := (oversized_iff hroom hh).1 hover
      omega

/-- For a cursor at one of the hops. -/
theorem rejects_iff_withinPacket (hch : c ≤ h) (hn : newpayload.length = BUFFER_SIZE) :
    p.RejectsMalformed node path newpayload ↔ p.WithinPacket node newpayload h c := by
  obtain ⟨src, hsrc⟩ := p.exists_daddr (by omega)
  have hrun := pre_routing_eq node path newpayload BUFFER_SIZE hsrc
  rw [nextStep_eq hroom hh hc hc1 hch] at hrun
  cases hcur : p.hopAt ws (c - 1) with
  | none =>
    rw [hcur] at hrun
    have hshort : ¬ ((sizeof_ser_header ws + c * ws.bytes : ℕ) : ℤ) ≤ p.payload_size := by
      intro hle
      rw [← Nat.sub_add_cancel hc1, ← hopAt_isSome_iff, hcur] at hle
      obtain ⟨a, ha⟩ := hle
      cases ha
    constructor
    · rintro ⟨hinside, -⟩
      obtain ⟨h', c', hh', -, -, hbound⟩ := (hinside hrun).bounds
      rw [hh] at hh'
      cases hh'
      have := Nat.mul_le_mul_right ws.bytes hch
      omega
    · exact fun hw => absurd hw.current hshort
  | some a =>
    rw [hcur, Option.bind_some] at hrun
    have hcurrent := (hopAt_isSome_iff (c - 1)).1 ⟨_, hcur⟩
    rw [Nat.sub_add_cancel hc1] at hcurrent
    by_cases hnode : p.AtNode node c
    · have ha : a = node.local_addr := Option.some.inj (hcur.symm.trans hnode.1)
      have hcheck : ¬ pth_checkCurrentAddr node node.local_addr ≠ 0 := not_not.2 (if_neg (not_not.2 rfl))
      rw [ha, if_neg hnode.2, if_neg hcheck] at hrun
      by_cases heq : c = h
      · rw [if_pos heq] at hrun
        exact rejects_deliver_iff hroom hh hc hc1 hn hnode heq hrun
      · have hlt : c < h := by omega
        rw [if_neg heq] at hrun
        cases hnext : p.hopAt ws c with
        | none =>
          rw [hnext] at hrun
          have hshort : ¬ ((sizeof_ser_header ws + (c + 1) * ws.bytes : ℕ) : ℤ) ≤ p.payload_size := by
            intro hle
            rw [← hopAt_isSome_iff, hnext] at hle
            obtain ⟨b, hb⟩ := hle
            cases hb
          constructor
          · rintro ⟨hinside, -⟩
            obtain ⟨h', c', hh', -, -, hbound⟩ := (hinside hrun).bounds
            rw [hh] at hh'
            cases hh'
            have := Nat.mul_le_mul_right ws.bytes (show c + 1 ≤ h by omega)
            omega
          · exact fun hw => absurd (hw.next hnode hlt) hshort
        | some b =>
          have hbound := (hopAt_isSome_iff c).1 ⟨b, hnext⟩
          rw [hnext, Option.bind_some] at hrun
          have hvacuous : (b = 0 ∨ (pth_checkNextHop node b).1 < 0) → p.WithinPacket node newpayload h c := by
            intro hb
            refine ⟨hcurrent, fun _ h' => absurd h' heq, fun _ _ => hbound, fun _ _ b' hb' hne hpos => ?_,
              fun _ _ b' hb' hne hz => ?_⟩
            all_goals
              rw [hnext] at hb'
              cases hb'
              rcases hb with hb | hb
              · exact absurd hb hne
              · omega
          by_cases hb : b = 0
          · rw [if_pos hb] at hrun
            exact iff_of_true (rejects_of_ret rfl hrun) (hvacuous (Or.inl hb))
          rw [if_neg hb] at hrun
          by_cases hneg : (pth_checkNextHop node b).1 < 0
          · rw [if_pos hneg] at hrun
            exact iff_of_true (rejects_of_ret rfl hrun) (hvacuous (Or.inr hneg))
          rw [if_neg hneg] at hrun
          by_cases hpos : (pth_checkNextHop node b).1 > 0
          · rw [if_pos hpos] at hrun
            exact rejects_recover_iff hroom hh hc hc1 hn hnode hlt hnext hb hpos hrun
          · rw [if_neg hpos] at hrun
            exact rejects_forward_iff hroom hh hc hc1 hn hnode hlt hnext hb (by omega) hrun
    · have hrefuse : a = 0 ∨ pth_checkCurrentAddr node a ≠ 0 := by
        by_contra hno
        rw [not_or, not_not] at hno
        have ha : a = node.local_addr := by
          have hcheck := hno.2
          unfold pth_checkCurrentAddr at hcheck
          split at hcheck
          · cases hcheck
          · next heq => exact not_not.1 heq
        exact hnode ⟨by rw [hcur, ha], ha ▸ hno.1⟩
      have hret : hk_process_datagram_pre_routing node path p.bytes newpayload BUFFER_SIZE =
          some ⟨-1, p.bytes, newpayload, BUFFER_SIZE⟩ := by
        rcases hrefuse with h0 | h0
        · rw [if_pos h0] at hrun
          exact hrun
        · by_cases hz : a = 0
          · rw [if_pos hz] at hrun
            exact hrun
          · rw [if_neg hz, if_pos h0] at hrun
            exact hrun
      exact iff_of_true (rejects_of_ret rfl hret) ⟨hcurrent, fun h' => absurd h' hnode, fun h' => absurd h' hnode,
        fun h' => absurd h' hnode, fun h' => absurd h' hnode⟩

end Hook

/-- An incomplete IP header is taken for one with a payload. -/
theorem incomplete_faults (hneg : p.payload_size < 0) :
    hk_process_datagram_pre_routing node path p.bytes newpayload BUFFER_SIZE = none ∧ cur p.bytes p.start = none := by
  have hcur : cur p.bytes p.start = none := by
    rw [Option.eq_none_iff_forall_ne_some]
    intro c hc
    have hbound := (loadBe16_bounds hc).2
    unfold payload_size at hneg
    unfold start at hbound
    omega
  have hnew := p.new_eq ws
  rw [if_pos (Or.inl hneg)] at hnew
  refine ⟨?_, hcur⟩
  rw [hk_process_datagram_pre_routing, bind_of_some hnew]
  dsimp only
  rw [getCurrentAddr, hcur]
  rfl

end ReceivedPacket

/-- The hook deals with a packet as it should exactly when the packet has room for what it relies on. -/
theorem rejectsMalformed_iff (p : ReceivedPacket) (node : Node ws) (path : List Byte) {newpayload : List Byte}
    (hn : newpayload.length = BUFFER_SIZE) :
    p.RejectsMalformed node path newpayload ↔ p.Sound node newpayload := by
  by_cases hcomplete : p.payload_size < 0
  · obtain ⟨hrun, hcur⟩ := @ReceivedPacket.incomplete_faults ws p node path newpayload hcomplete
    constructor
    · rintro ⟨hinside, -⟩
      obtain ⟨h, c, -, hc, -⟩ := (hinside hrun).bounds
      rw [hcur] at hc
      cases hc
    · rintro ⟨hle, -⟩
      omega
  obtain ⟨src, hsrc⟩ := p.exists_daddr (by omega)
  have hrun := pre_routing_eq node path newpayload BUFFER_SIZE hsrc
  by_cases hroom : (sizeof_ser_header ws : ℤ) ≤ p.payload_size
  · obtain ⟨h, c, hh, hc⟩ := p.exists_header hroom
    have hsound : p.Sound node newpayload ↔ (1 ≤ c → c ≤ h → p.WithinPacket node newpayload h c) := by
      constructor
      · exact fun hs => hs.2 hroom h c hh hc
      · refine fun hw => ⟨by omega, fun _ h' c' hh' hc' => ?_⟩
        rw [hh] at hh'
        rw [hc] at hc'
        cases hh'
        cases hc'
        exact hw
    rw [hsound]
    by_cases hin : 1 ≤ c ∧ c ≤ h
    · rw [ReceivedPacket.rejects_iff_withinPacket hroom hh hc hin.1 hin.2 hn]
      exact ⟨fun hw _ _ => hw, fun hw => hw hin.1 hin.2⟩
    · rw [ReceivedPacket.nextStep_refuse hroom hh hc (by omega)] at hrun
      exact iff_of_true (ReceivedPacket.rejects_of_ret rfl hrun) fun h1 h2 => absurd ⟨h1, h2⟩ hin
  · have hnew := p.new_eq ws
    rw [if_neg (by omega)] at hnew
    have hstep : nextStep node p.bytes = some .refuse := by
      rw [nextStep, bind_of_some hnew]
      rfl
    rw [hstep] at hrun
    exact iff_of_true (ReceivedPacket.rejects_of_ret rfl hrun) ⟨by omega, fun hle => absurd hle hroom⟩

/-- A packet for the node 1 on the way to 2. -/
def ReceivedPacket.onTheWay : ReceivedPacket where
  bytes := demoPacket
  words := 5
  ihl_eq := rfl
  five_le := le_rfl
  tot_len := by decide
  protocol := rfl
  fits := by decide

theorem ReceivedPacket.onTheWay_sound (newpayload : List Byte) :
    ReceivedPacket.onTheWay.Sound (demoStation 1 [⟨2, 20⟩]).node newpayload := by
  refine ⟨by decide, fun _ h c hh hc _ _ => ?_⟩
  have hh3 : h = 3 := Option.some.inj (hh.symm.trans (by decide))
  have hc1 : c = 1 := Option.some.inj (hc.symm.trans (by decide))
  subst hh3 hc1
  exact ⟨by decide, fun _ h => absurd h (by decide), fun _ _ => by decide, fun _ _ _ _ _ _ => by decide,
    fun _ _ _ _ _ _ => by decide⟩

theorem rejectsMalformed_demo : ReceivedPacket.onTheWay.RejectsMalformed (demoStation 1 [⟨2, 20⟩]).node
    (demoStation 1 [⟨2, 20⟩]).path (demoStation 1 [⟨2, 20⟩]).newpayload :=
  (rejectsMalformed_iff _ _ _ (demoStation 1 [⟨2, 20⟩]).length_newpayload).2
    (ReceivedPacket.onTheWay_sound (demoStation 1 [⟨2, 20⟩]).newpayload)

/-- A packet that ends with its MP-OLSR header, which announces a hop. -/
def ReceivedPacket.cut : ReceivedPacket where
  bytes := { demoOuterHdr with tot_len := 32 }.bytes ++ { demoSerHeader with hops := 1, cur := 1 }.bytes
  words := 5
  ihl_eq := rfl
  five_le := le_rfl
  tot_len := by decide
  protocol := rfl
  fits := by decide

/-- The address of the hop is read behind the packet. -/
theorem cut_packet_not_rejected : hk_process_datagram_pre_routing (demoStation 1 []).node (demoStation 1 []).path
      ReceivedPacket.cut.bytes (demoStation 1 []).newpayload BUFFER_SIZE = none ∧
    ¬ ReceivedPacket.cut.RejectsMalformed (demoStation 1 []).node (demoStation 1 []).path
      (demoStation 1 []).newpayload := by
  have hrun : hk_process_datagram_pre_routing (demoStation 1 []).node (demoStation 1 []).path
      ReceivedPacket.cut.bytes (demoStation 1 []).newpayload BUFFER_SIZE = none := rfl
  refine ⟨hrun, fun hrejects => ?_⟩
  obtain ⟨h, c, hh, hc, hlt, -⟩ := (hrejects.1 hrun).bounds
  have hh1 : h = 1 := Option.some.inj (hh.symm.trans (by decide))
  have hc1 : c = 1 := Option.some.inj (hc.symm.trans (by decide))
  omega

end MpOlsr
