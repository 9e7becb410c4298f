import Mathlib.Tactic.Ring
import MpOlsr.Lib.OnesComplement
import MpOlsr.Routing.Layout

/-!
# The checksums of a delivered packet

`SumWords` adds up words in 32 bits; for a packet of less than 64 KiB nothing is lost, and `foldSum` is the
complement of the one's complement sum (`foldSum_toNat`).  So both checksum routines make the sum over what they
cover `0xFFFF`.  A UDP checksum of zero is not replaced by its other representation.
-/

namespace MpOlsr

open Buffer Bytes Fault OnesComplement IpPacket MpOlsrPacket

/-! ### The loops of `SumWords` -/

/-- The words read through a pointer that moves on. -/
def addWords (mem : List Byte) : ℤ → ℕ → BitVec 32 → Option (BitVec 32)
  | _, 0, sum => some sum
  | i, n + 1, sum => do
    let w ← loadBe16 mem i
    addWords mem (i + 2) n (sum + BitVec.ofNat 32 w)

/-- The loops of the source: sixteen words a round, then the remaining words. -/
def SumWordsRounds (mem : List Byte) (i : ℤ) (nwords : ℕ) (sum : BitVec 32) : Option (BitVec 32) :=
  if 16 ≤ nwords then do
    let sum ← addWords mem i 16 sum
    SumWordsRounds mem (i + 32) (nwords - 16) sum
  else addWords mem i nwords sum
termination_by nwords

theorem addWords_add (mem : List Byte) (i : ℤ) (k n : ℕ) (sum : BitVec 32) :
    addWords mem i (k + n) sum = (addWords mem i k sum).bind fun sum => addWords mem (i + 2 * k) n sum := by
  induction k generalizing i sum with
  | zero => simp [addWords]
  | succ k ih =>
    rw [Nat.succ_add, addWords, addWords, Option.bind_eq_bind, Option.bind_assoc]
    congr 1
    funext w
    rw [ih, show i + 2 + 2 * (k : ℤ) = i + 2 * ((k + 1 : ℕ) : ℤ) by push_cast; ring]

theorem SumWordsRounds_eq (mem : List Byte) (i : ℤ) (nwords : ℕ) (sum : BitVec 32) :
    SumWordsRounds mem i nwords sum = addWords mem i nwords sum := by
  induction nwords using Nat.strong_induction_on generalizing i sum with
  | _ nwords ih =>
    rw [SumWordsRounds]
    split
    · next h =>
      conv => rhs; rw [show nwords = 16 + (nwords - 16) by omega, addWords_add]
      rw [Option.bind_eq_bind]
      congr 1
      funext s
      exact ih (nwords - 16) (by omega) (i + 32) s
    · rfl

/-- The rounds of sixteen words are one loop. -/
theorem SumWords_eq_rounds (mem : List Byte) (i : ℤ) (nwords : ℕ) :
    SumWords mem i nwords = SumWordsRounds mem i nwords 0 := by
  rw [SumWordsRounds_eq, SumWords]
  generalize (0 : BitVec 32) = sum
  induction nwords generalizing i sum with
  | zero => rfl
  | succ n ih =>
    rw [List.range_succ_eq_map, List.foldlM_cons, addWords]
    simp only [Option.bind_eq_bind, Option.bind_assoc, Nat.cast_zero, mul_zero, add_zero]
    congr 1
    funext w
    rw [← ih (i + 2), Option.pure_def, Option.bind_some, List.foldlM_map]
    congr 1
    funext s j
    rw [Option.bind_eq_bind, show i + 2 * ((j.succ : ℕ) : ℤ) = i + 2 + 2 * (j : ℤ) by push_cast; ring]

/-- The sum of the words of a part of the packet. -/
theorem addWords_eq {m a x c : List Byte} {i : ℤ} {n : ℕ} (hm : m = a ++ (x ++ c)) (hi : i = a.length)
    (hn : x.length = 2 * n) (sum : BitVec 32) :
    addWords m i n sum = some (sum + BitVec.ofNat 32 (words x).sum) := by
  induction n generalizing a x i sum with
  | zero =>
    rw [List.length_eq_zero_iff.1 hn]
    simp [addWords, words]
  | succ n ih =>
    obtain ⟨hi', y, rfl⟩ := List.exists_cons_of_length_pos (show 0 < x.length by omega)
    obtain ⟨lo, x, rfl⟩ := List.exists_cons_of_length_pos (show 0 < y.length by simp at hn; omega)
    have h1 : load m i = some hi' := load_eq hm hi
    have h2 : load m (i + 1) = some lo :=
      load_eq (show m = (a ++ [hi']) ++ lo :: (x ++ c) by rw [hm]; simp) (by rw [hi]; simp)
    have hword : loadBe16 m i = some (ofBe16 hi' lo) := by
      rw [loadBe16, bind_of_some h1, bind_of_some h2]
      rfl
    rw [addWords, bind_of_some hword, ih (a := a ++ [hi', lo]) (x := x) (by rw [hm]; simp)
      (by rw [hi]; simp) (by simpa [Nat.mul_succ] using hn), words, List.sum_cons, BitVec.ofNat_add, BitVec.add_assoc]

theorem SumWords_eq {m a x c : List Byte} {i : ℤ} {n : ℕ} (hm : m = a ++ (x ++ c)) (hi : i = a.length)
    (hn : x.length = 2 * n) : SumWords m i n = some (BitVec.ofNat 32 (words x).sum) := by
  rw [SumWords_eq_rounds, SumWordsRounds_eq, addWords_eq hm hi hn]
  exact congrArg some (BitVec.zero_add _)

/-! ### Folding the carries -/

/-- Two folds are enough for a sum of 32 bits. -/
theorem fold_twice {n : ℕ} (hn : n < 2 ^ 32) :
    (n / 65536 + n % 65536 + (n / 65536 + n % 65536) / 65536) % 65536 = fold 65535 n := by
  rcases Nat.eq_zero_or_pos n with rfl | hpos
  · rfl
  have hsum : fold 65535 n = fold 65535 (n / 65536 + n % 65536) := by
    conv => lhs; rw [show n = n / 65536 + n % 65536 + n / 65536 * 65535 by omega]
    exact fold_add_mul (by omega) _
  rw [hsum]
  generalize hk : n / 65536 + n % 65536 = k
  by_cases hle : k ≤ 65535
  · rw [fold_of_le hle]
    omega
  · have hcarry : fold 65535 k = k - 65535 := by
      conv => lhs; rw [show k = k - 65535 + 65535 by omega]
      rw [fold_add_max (by omega), fold_of_le (by omega)]
    have hone : k / 65536 = 1 := by omega
    rw [hcarry, hone]
    omega

theorem foldSum_toNat {n : ℕ} (hn : n < 2 ^ 32) :
    (foldSum (BitVec.ofNat 32 n)).toNat % 65536 = 65535 - fold 65535 n := by
  have hfold := fold_twice hn
  have hle := fold_le (m := 65535) (by omega) n
  have hmask : ∀ k, k &&& (0xFFFF : BitVec 32).toNat = k % 65536 := fun k => Nat.and_two_pow_sub_one_eq_mod k 16
  have hlt : n / 65536 + n % 65536 < 131072 := by omega
  simp only [foldSum, BitVec.toNat_not, BitVec.toNat_add, BitVec.toNat_ushiftRight, BitVec.toNat_and, BitVec.toNat_ofNat,
    Nat.shiftRight_eq_div_pow, Nat.reducePow, Nat.mod_eq_of_lt (show n < 4294967296 from hn), hmask]
  generalize n / 65536 + n % 65536 = k at hfold hlt ⊢
  rw [Nat.mod_eq_of_lt (a := k) (by omega), Nat.mod_eq_of_lt (a := k + k / 65536) (by omega)]
  omega

theorem be16_mod (n : ℕ) : be16 (n % 65536) = be16 n := by
  have h1 : BitVec.ofNat 8 (n % 65536 / 256) = BitVec.ofNat 8 (n / 256) :=
    BitVec.eq_of_toNat_eq (by simp only [BitVec.toNat_ofNat]; omega)
  have h2 : BitVec.ofNat 8 (n % 65536) = BitVec.ofNat 8 n :=
    BitVec.eq_of_toNat_eq (by simp only [BitVec.toNat_ofNat]; omega)
  rw [be16, be16, h1, h2]

theorem be16_inj {m n : ℕ} (hm : m < 65536) (hn : n < 65536) (h : be16 m = be16 n) : m = n := by
  have hwords := congrArg words h
  rw [words_be16 hm, words_be16 hn] at hwords
  exact List.head_eq_of_cons_eq hwords

/-! ### The IP header -/

namespace IpHdr

/-- The checksum field that completes the sum of the header. -/
def checksum (h : IpHdr) : ℕ := 65535 - fold 65535 (words { h with check := 0 }.bytes).sum

theorem checksum_lt (h : IpHdr) : h.checksum < 65536 := by
  unfold checksum
  omega

theorem bytes_check_mod (h : IpHdr) (c : ℕ) : { h with check := c % 65536 }.bytes = { h with check := c }.bytes := by
  simp only [bytes, be16_mod]

/-- The checksum is one of the words. -/
theorem sum_words (h : IpHdr) {c : ℕ} (hc : c < 65536) :
    (words { h with check := c }.bytes).sum = (words { h with check := 0 }.bytes).sum + c := by
  have hsplit : ∀ c' < 65536, (words { h with check := c' }.bytes).sum = (words (h.version_ihl :: h.tos ::
      (be16 h.tot_len ++ (be16 h.id ++ (be16 h.frag_off ++ [h.ttl, h.protocol]))))).sum + (c' +
      (words (leBytes 4 h.saddr.toNat ++ (leBytes 4 h.daddr.toNat ++ h.options))).sum) := by
    intro c' hc'
    have hbytes : { h with check := c' }.bytes = (h.version_ihl :: h.tos :: (be16 h.tot_len ++ (be16 h.id ++
        (be16 h.frag_off ++ [h.ttl, h.protocol])))) ++ (be16 c' ++ (leBytes 4 h.saddr.toNat ++
        (leBytes 4 h.daddr.toNat ++ h.options))) := by
      simp [bytes]
    rw [hbytes, words_append (by simp), words_append (x := be16 c') (by simp), words_be16 hc', List.sum_append,
      List.singleton_append, List.sum_cons]
  rw [hsplit c hc, hsplit 0 (by omega)]
  omega

/-- With its checksum the header sums up to `0xFFFF`. -/
theorem sum_checksum (h : IpHdr) : sum 65535 (words { h with check := h.checksum }.bytes) = 65535 := by
  rw [sum_eq_fold (by omega) le_of_mem_words, sum_words h h.checksum_lt]
  exact fold_add_complement (by omega) _

end IpHdr

theorem updateIpChecksum_eq {h : IpHdr} (hw : h.WF) (rest : List Byte) :
    updateIpChecksum (h.bytes ++ rest) = some ({ h with check := h.checksum }.bytes ++ rest) := by
  have hlen : ({ h with check := 0 }.bytes : List Byte).length = 2 * (h.version_ihl.toNat % 16 * 2) := by
    rw [IpHdr.length_bytes]
    unfold IpHdr.WF at hw
    dsimp only
    omega
  have hsum := SumWords_eq (m := { h with check := 0 }.bytes ++ rest) (a := []) (c := rest) (i := 0) rfl rfl hlen
  have hlt := sum_words_le { h with check := 0 }.bytes
  have hcheck := foldSum_toNat (n := (words { h with check := 0 }.bytes).sum) (by omega)
  have hihl : ihl ({ h with check := 0 }.bytes ++ rest) = some (h.version_ihl.toNat % 16) := IpHdr.ihl_eq _ _
  rw [updateIpChecksum, bind_of_some (IpHdr.store_check h rest 0), bind_of_some hihl, bind_of_some hsum,
    IpHdr.store_check, ← IpHdr.bytes_check_mod, hcheck]
  rfl

/-! ### The UDP datagram -/

/-- What a UDP checksum covers besides the datagram. -/
def pseudoHeader (h : IpHdr) (u : UdpHdr) : List Byte :=
  leBytes 4 h.saddr.toNat ++ (leBytes 4 h.daddr.toNat ++ ([0, IPPROTO_UDP] ++ be16 u.len))

namespace UdpHdr

/-- The words of the pseudo header and of a datagram without checksum, summed up as numbers. -/
def total (h : IpHdr) (u : UdpHdr) (data : List Byte) : ℕ :=
  (words (pseudoHeader h u ++ ({ u with check := 0 }.bytes ++ data))).sum

/-- The checksum field that completes the sum of the datagram. -/
def checksum (h : IpHdr) (u : UdpHdr) (data : List Byte) : ℕ := 65535 - fold 65535 (total h u data)

theorem checksum_lt (h : IpHdr) (u : UdpHdr) (data : List Byte) : checksum h u data < 65536 := by
  unfold checksum
  omega

theorem bytes_check_mod (u : UdpHdr) (c : ℕ) : { u with check := c % 65536 }.bytes = { u with check := c }.bytes := by
  simp only [bytes, be16_mod]

theorem sum_words (h : IpHdr) (u : UdpHdr) (data : List Byte) {c : ℕ} (hc : c < 65536) :
    (words (pseudoHeader h u ++ ({ u with check := c }.bytes ++ data))).sum = total h u data + c := by
  have hsplit : ∀ c' < 65536, (words (pseudoHeader h u ++ ({ u with check := c' }.bytes ++ data))).sum =
      (words (pseudoHeader h u ++ (be16 u.source ++ (be16 u.dest ++ be16 u.len)))).sum + (c' + (words data).sum) := by
    intro c' hc'
    have hbytes : pseudoHeader h u ++ ({ u with check := c' }.bytes ++ data) =
        (pseudoHeader h u ++ (be16 u.source ++ (be16 u.dest ++ be16 u.len))) ++ (be16 c' ++ data) := by
      simp [bytes]
    rw [hbytes, words_append (by simp [pseudoHeader]), words_append (x := be16 c') (by simp), words_be16 hc',
      List.sum_append, List.singleton_append, List.sum_cons]
  rw [total, hsplit c hc, hsplit 0 (by omega)]
  omega

theorem sum_checksum (h : IpHdr) (u : UdpHdr) (data : List Byte) :
    sum 65535 (words (pseudoHeader h u ++ ({ u with check := checksum h u data }.bytes ++ data))) = 65535 := by
  rw [sum_eq_fold (by omega) le_of_mem_words, sum_words h u data (checksum_lt h u data)]
  exact fold_add_complement (by omega) _

/-- The protocol number is one of the words, so that the checksum is zero only for a multiple of `0xFFFF`. -/
theorem checksum_eq_zero_iff (h : IpHdr) (u : UdpHdr) (data : List Byte) :
    checksum h u data = 0 ↔ 65535 ∣ total h u data := by
  have hpos : 0 < total h u data := by
    have hsplit : pseudoHeader h u ++ ({ u with check := 0 }.bytes ++ data) =
        (leBytes 4 h.saddr.toNat ++ leBytes 4 h.daddr.toNat) ++ ([0, IPPROTO_UDP] ++ (be16 u.len ++
        ({ u with check := 0 }.bytes ++ data))) := by
      simp [pseudoHeader]
    have hproto : words [0, IPPROTO_UDP] = [17] := rfl
    rw [total, hsplit, words_append (by simp), words_append (x := [0, IPPROTO_UDP]) rfl, hproto, List.sum_append,
      List.singleton_append, List.sum_cons]
    omega
  have hle := fold_le (m := 65535) (by omega) (total h u data)
  have hmax := fold_eq_max_iff (m := 65535) (by omega) (total h u data)
  rw [checksum]
  constructor
  · intro h0
    exact (hmax.1 (by omega)).2
  · intro hdvd
    rw [hmax.2 ⟨hpos, hdvd⟩]

end UdpHdr

/-- The words of a datagram and its last byte. -/
theorem addLastByte_eq {m a x c : List Byte} (hm : m = a ++ (x ++ c)) (sum : BitVec 32) :
    ((SumWords m a.length (x.length / 2)).bind fun ws => addLastByte m a.length x.length (sum + ws)) =
      some (sum + BitVec.ofNat 32 (words x).sum) := by
  by_cases hodd : x.length % 2 = 1
  · obtain ⟨y, b, rfl⟩ : ∃ y b, x = y ++ [b] :=
      ⟨x.dropLast, x.getLast (by rintro rfl; simp at hodd), (List.dropLast_append_getLast _).symm⟩
    have heven : y.length % 2 = 0 := by
      rw [List.length_append, List.length_singleton] at hodd
      omega
    have hsum : SumWords m a.length ((y ++ [b]).length / 2) = some (BitVec.ofNat 32 (words y).sum) :=
      SumWords_eq (c := [b] ++ c) (by rw [hm]; simp) rfl (by rw [List.length_append, List.length_singleton]; omega)
    have hlast : load m ((a.length : ℤ) + (y ++ [b]).length - 1) = some b :=
      load_eq (show m = (a ++ y) ++ b :: c by rw [hm]; simp) (by simp; omega)
    rw [hsum, Option.bind_some, addLastByte, if_pos hodd, hlast, Option.map_some, words_append heven, words,
      List.sum_append, List.sum_singleton, BitVec.ofNat_add, BitVec.add_assoc]
  · have hsum := SumWords_eq (n := x.length / 2) hm rfl (by omega)
    rw [hsum, Option.bind_some, addLastByte, if_neg hodd]

theorem updateUdpChecksum_eq {h : IpHdr} (hw : h.WF) {u : UdpHdr} {data : List Byte} (hlen : u.len = 8 + data.length)
    (hlt : u.len < 65536) (rest : List Byte) :
    updateUdpChecksum .ilp32 (h.bytes ++ (u.bytes ++ (data ++ rest))) =
      some (h.bytes ++ ({ u with check := UdpHdr.checksum h u data }.bytes ++ (data ++ rest))) := by
  let v : UdpHdr := { u with check := 0 }
  let mem := h.bytes ++ (v.bytes ++ (data ++ rest))
  let pre := h.version_ihl :: h.tos :: (be16 h.tot_len ++ (be16 h.id ++ (be16 h.frag_off ++ (h.ttl :: h.protocol ::
    be16 h.check))))
  have haddrs : SumWords mem 12 4 =
      some (BitVec.ofNat 32 (words (leBytes 4 h.saddr.toNat ++ leBytes 4 h.daddr.toNat)).sum) :=
    SumWords_eq (a := pre) (c := h.options ++ (v.bytes ++ (data ++ rest))) (by simp [mem, pre, IpHdr.bytes])
      (by simp [pre]) (by simp)
  have hbody : (v.bytes ++ data).length = u.len := by
    rw [List.length_append, UdpHdr.length_bytes, hlen]
  have hdata := addLastByte_eq (m := mem) (a := h.bytes) (x := v.bytes ++ data) (c := rest) (by simp [mem])
    (BitVec.ofNat 32 (words (leBytes 4 h.saddr.toNat ++ leBytes 4 h.daddr.toNat)).sum +
      BitVec.ofNat 32 IPPROTO_UDP.toNat + BitVec.ofNat 32 u.len)
  rw [hbody] at hdata
  -- what is added up is the total
  have htotal : UdpHdr.total h u data = (words (leBytes 4 h.saddr.toNat ++ leBytes 4 h.daddr.toNat)).sum +
      IPPROTO_UDP.toNat + u.len + (words (v.bytes ++ data)).sum := by
    have hsplit : pseudoHeader h u ++ (v.bytes ++ data) = (leBytes 4 h.saddr.toNat ++ leBytes 4 h.daddr.toNat) ++
        ([0, IPPROTO_UDP] ++ (be16 u.len ++ (v.bytes ++ data))) := by
      simp [pseudoHeader]
    have hproto : words [0, IPPROTO_UDP] = [IPPROTO_UDP.toNat] := rfl
    rw [UdpHdr.total, hsplit, words_append (by simp), words_append (x := [0, IPPROTO_UDP]) rfl, hproto,
      words_append (x := be16 u.len) (by simp), words_be16 hlt]
    simp only [List.sum_append, List.sum_cons, List.sum_nil]
    omega
  have hbound : UdpHdr.total h u data < 2 ^ 32 := by
    have hle := sum_words_le (pseudoHeader h u ++ (v.bytes ++ data))
    have hsize : (pseudoHeader h u ++ (v.bytes ++ data)).length = 12 + u.len := by
      rw [List.length_append, hbody]
      simp [pseudoHeader]
    rw [hsize] at hle
    change (words (pseudoHeader h u ++ (v.bytes ++ data))).sum < 2 ^ 32
    omega
  rw [← BitVec.ofNat_add, ← BitVec.ofNat_add, ← BitVec.ofNat_add, ← htotal] at hdata
  have hihl : ihl (h.bytes ++ (u.bytes ++ (data ++ rest))) = some (h.version_ihl.toNat % 16) := h.ihl_eq _
  obtain ⟨ws, hws, hlast⟩ := Option.bind_eq_some_iff.1 hdata
  rw [BitVec.ofNat_add, BitVec.ofNat_add] at hlast
  rw [updateUdpChecksum, bind_of_some hihl]
  simp only [IpHdr.udp_pos hw]
  rw [bind_of_some (u.store_check _ _ 0), bind_of_some haddrs, bind_of_some (UdpHdr.load_len (u := v) hlt _ _),
    bind_of_some hws, bind_of_some hlast, UdpHdr.store_check, ← UdpHdr.bytes_check_mod, foldSum_toNat hbound]
  rfl

/-! ### Delivered packets -/

/-- A packet with an MP-OLSR header whose payload is a UDP datagram. -/
structure MpOlsrDatagram where
  hdr : IpHdr
  ser : SerHeader .ilp32
  addrs : List Byte
  udp : UdpHdr
  data : List Byte
  wf : hdr.WF
  hops : addrs.length = ser.hops * 4
  udp_len : udp.len = 8 + data.length
  tot_len : hdr.tot_len = hdr.bytes.length + (sizeof_ser_header .ilp32 + (addrs.length + udp.len))
  tot_len_lt : hdr.tot_len < 65536

namespace MpOlsrDatagram

variable (p : MpOlsrDatagram) (t n : List Byte)

/-- The packet, in a buffer that ends with `t`. -/
def bytes : List Byte := p.hdr.bytes ++ (p.ser.bytes ++ (p.addrs ++ (p.udp.bytes ++ (p.data ++ t))))

/-- The IP header of the delivered packet, up to its checksum. -/
def ipHdr : IpHdr := p.hdr.restore p.ser p.udp.len

/-- The size of the delivered packet. -/
def size : ℕ := p.hdr.bytes.length + p.udp.len

/-- The buffer `n` after the packet was delivered to it, with the checksums `c` and `c'`. -/
def delivered (c c' : ℕ) : List Byte :=
  { p.ipHdr with check := c }.bytes ++ ({ p.udp with check := c' }.bytes ++ (p.data ++ n.drop p.size))

/-- The packet is delivered with valid checksums, and nothing else is changed in it or behind it. -/
def DeliversValid : Prop :=
  ∃ c c', c < 65536 ∧ c' < 65536 ∧
    removeMpOlsrHeader .ilp32 (p.bytes t) p.hdr.bytes.length n n.length = some (true, p.delivered n c c') ∧
    sum 65535 (words { p.ipHdr with check := c }.bytes) = 0xFFFF ∧
    sum 65535 (words (pseudoHeader p.ipHdr p.udp ++ ({ p.udp with check := c' }.bytes ++ p.data))) = 0xFFFF ∧ c' ≠ 0

variable {p t n}

theorem removeMpOlsrHeader_checksums (hsize : p.size ≤ n.length) :
    removeMpOlsrHeader .ilp32 (p.bytes t) p.hdr.bytes.length n n.length =
      some (true, p.delivered n p.ipHdr.checksum (UdpHdr.checksum p.ipHdr p.udp p.data)) := by
  have hbody : (p.udp.bytes ++ p.data).length = p.udp.len := by
    rw [List.length_append, UdpHdr.length_bytes, p.udp_len]
  have hlt := p.tot_len_lt
  have htot := p.tot_len
  have heq := @removeMpOlsrHeader_eq _ p.hdr p.wf p.ser p.addrs (p.udp.bytes ++ p.data) t n p.hops (by omega) hlt
    (by rw [hbody]; exact hsize)
  have hudp := updateUdpChecksum_eq (h := p.ipHdr) (IpHdr.restore_wf p.wf p.ser p.udp.len) p.udp_len (by omega)
    (n.drop p.size)
  have hip := updateIpChecksum_eq (h := p.ipHdr) (IpHdr.restore_wf p.wf p.ser p.udp.len)
    ({ p.udp with check := UdpHdr.checksum p.ipHdr p.udp p.data }.bytes ++ (p.data ++ n.drop p.size))
  simp only [List.append_assoc, hbody] at heq
  rw [bytes, heq]
  refine (congrArg (fun o => Option.bind o _) hudp).trans ?_
  rw [Option.bind_some, hip]
  rfl

/-- The buffer determines the UDP checksum. -/
theorem delivered_inj {c₁ c₂ c₁' c₂' : ℕ} (h₁ : c₁' < 65536) (h₂ : c₂' < 65536)
    (h : p.delivered n c₁ c₁' = p.delivered n c₂ c₂') : c₁' = c₂' := by
  have hudp := (List.append_inj h (by rw [IpHdr.length_bytes, IpHdr.length_bytes])).2
  have hbytes := (List.append_inj hudp rfl).1
  simp only [UdpHdr.bytes, List.append_cancel_left_eq] at hbytes
  exact be16_inj h₁ h₂ hbytes

theorem DeliversValid.checksum_ne (hsize : p.size ≤ n.length) (h : p.DeliversValid t n) :
    UdpHdr.checksum p.ipHdr p.udp p.data ≠ 0 := by
  obtain ⟨c, c', -, hc', hrun, -, -, hne⟩ := h
  rw [removeMpOlsrHeader_checksums hsize, Option.some.injEq, Prod.mk.injEq] at hrun
  rw [delivered_inj (UdpHdr.checksum_lt _ _ _) hc' hrun.2]
  exact hne

end MpOlsrDatagram

/-- The checksums of a delivered datagram are valid unless its words sum up to a multiple of `0xFFFF`. -/
theorem delivered_checksums_valid_iff (p : MpOlsrDatagram) {t n : List Byte} (hsize : p.size ≤ n.length) :
    p.DeliversValid t n ↔ ¬ 65535 ∣ UdpHdr.total p.ipHdr p.udp p.data := by
  rw [← UdpHdr.checksum_eq_zero_iff]
  constructor
  · exact fun h => h.checksum_ne hsize
  · intro hne
    exact ⟨p.ipHdr.checksum, UdpHdr.checksum p.ipHdr p.udp p.data, p.ipHdr.checksum_lt, UdpHdr.checksum_lt _ _ _,
      MpOlsrDatagram.removeMpOlsrHeader_checksums hsize, p.ipHdr.sum_checksum, UdpHdr.sum_checksum _ _ _, hne⟩

/-- A datagram from 10.0.0.1 to 10.0.0.2 that went over one hop. -/
def MpOlsrDatagram.sample (source dest : ℕ) (data : List Byte) (h : data.length < 1000) : MpOlsrDatagram where
  hdr := { version_ihl := 0x45, tos := 0, tot_len := 20 + (12 + (4 + (8 + data.length))), id := 7, frag_off := 0,
           ttl := 64, protocol := IPPROTO_MPOLSR, check := 0, saddr := 0x0100000A, daddr := 0x0200000A, options := [] }
  ser := { version := MPOLSR_VERSION, protocol := IPPROTO_UDP, empty := 0, hops := 1, cur := 1,
           first_node := 0x0100000A }
  addrs := [10, 0, 0, 2]
  udp := { source := source, dest := dest, len := 8 + data.length, check := 0 }
  data := data
  wf := by simp [IpHdr.WF]
  hops := rfl
  udp_len := rfl
  tot_len := rfl
  tot_len_lt := by dsimp only; omega

theorem delivered_checksums_valid_demo :
    (MpOlsrDatagram.sample 5000 6000 [1, 2, 3] (by decide)).DeliversValid [] (List.replicate 31 0) :=
  (delivered_checksums_valid_iff (MpOlsrDatagram.sample 5000 6000 [1, 2, 3] (by decide)) (by decide)).2 (by decide)

/-- The words of this datagram sum up to `0xFFFF`, and it is delivered without a checksum. -/
theorem delivered_without_checksum :
    ¬ (MpOlsrDatagram.sample 60000 379 [] (by decide)).DeliversValid [] (List.replicate 28 0) :=
  fun h => h.checksum_ne (by decide) (by decide)

end MpOlsr
