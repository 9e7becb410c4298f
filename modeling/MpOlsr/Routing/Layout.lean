import Mathlib.Tactic.Ring
import MpOlsr.Lib.Fault
import MpOlsr.Routing.Packet

/-!
# The layout of packets

Headers as records.  A packet is the concatenation of its headers, the addresses of its path and its data.  Every
access to a field of a header reads or replaces the field of the record, so that the functions on packets act on the
records (`addMpOlsrHeader_spec`, `removeMpOlsrHeader_spec`).
-/

namespace MpOlsr

open Buffer Bytes Fault IpPacket MpOlsrPacket

/-! ### The IP header -/

/-- `struct iphdr` with its options; the 16-bit fields in host byte order. -/
structure IpHdr where
  version_ihl : Byte
  tos : Byte
  tot_len : ℕ
  id : ℕ
  frag_off : ℕ
  ttl : Byte
  protocol : Byte
  check : ℕ
  saddr : BitVec 32
  daddr : BitVec 32
  options : List Byte

namespace IpHdr

def bytes (h : IpHdr) : List Byte :=
  h.version_ihl :: h.tos :: (be16 h.tot_len ++ (be16 h.id ++ (be16 h.frag_off ++ (h.ttl :: h.protocol ::
    (be16 h.check ++ (leBytes 4 h.saddr.toNat ++ (leBytes 4 h.daddr.toNat ++ h.options)))))))

/-- The header has the length that `ihl` says. -/
def WF (h : IpHdr) : Prop := h.options.length + 20 = 4 * (h.version_ihl.toNat % 16)

variable {h : IpHdr} {rest : List Byte}

@[simp]
theorem length_bytes (h : IpHdr) : h.bytes.length = h.options.length + 20 := by
  simp [bytes]
  omega

theorem ihl_eq (h : IpHdr) (rest : List Byte) : ihl (h.bytes ++ rest) = some (h.version_ihl.toNat % 16) := rfl

theorem getIpHeaderSize_eq (hw : h.WF) (rest : List Byte) :
    getIpHeaderSize (h.bytes ++ rest) = some (h.bytes.length : ℤ) := by
  rw [getIpHeaderSize, ihl_eq, length_bytes, Option.map_some]
  unfold WF at hw
  congr 1
  omega

theorem load_tot_len (ht : h.tot_len < 65536) (rest : List Byte) : loadBe16 (h.bytes ++ rest) 2 = some h.tot_len := by
  have h2 : loadBe16 (h.bytes ++ rest) 2 =
      some (ofBe16 (BitVec.ofNat 8 (h.tot_len / 256)) (BitVec.ofNat 8 h.tot_len)) := rfl
  rw [h2, ofBe16_be16 ht]

theorem getIpTotalSize_eq (ht : h.tot_len < 65536) (rest : List Byte) :
    getIpTotalSize (h.bytes ++ rest) = some (h.tot_len : ℤ) := by
  rw [getIpTotalSize, load_tot_len ht]
  rfl

theorem load_protocol (h : IpHdr) (rest : List Byte) : load (h.bytes ++ rest) 9 = some h.protocol := rfl

theorem store_protocol (h : IpHdr) (rest : List Byte) (p : Byte) :
    store (h.bytes ++ rest) 9 p = some ({ h with protocol := p }.bytes ++ rest) := by
  have hsplit : h.bytes ++ rest = (h.version_ihl :: h.tos :: (be16 h.tot_len ++ (be16 h.id ++ (be16 h.frag_off ++
      [h.ttl])))) ++ h.protocol :: (be16 h.check ++ (leBytes 4 h.saddr.toNat ++ (leBytes 4 h.daddr.toNat ++
      (h.options ++ rest)))) := by
    simp [bytes]
  rw [store_eq hsplit (by simp)]
  simp [bytes]

theorem store_tot_len (h : IpHdr) (rest : List Byte) (n : ℕ) :
    storeBe16 (h.bytes ++ rest) 2 n = some ({ h with tot_len := n }.bytes ++ rest) := by
  have hsplit : h.bytes ++ rest = [h.version_ihl, h.tos] ++ (be16 h.tot_len ++ (be16 h.id ++ (be16 h.frag_off ++
      (h.ttl :: h.protocol :: (be16 h.check ++ (leBytes 4 h.saddr.toNat ++ (leBytes 4 h.daddr.toNat ++
      (h.options ++ rest)))))))) := by
    simp [bytes]
  rw [storeBe16, write_eq hsplit (by simp) (by simp)]
  simp [bytes]

theorem store_check (h : IpHdr) (rest : List Byte) (n : ℕ) :
    storeBe16 (h.bytes ++ rest) 10 n = some ({ h with check := n }.bytes ++ rest) := by
  have hsplit : h.bytes ++ rest = (h.version_ihl :: h.tos :: (be16 h.tot_len ++ (be16 h.id ++ (be16 h.frag_off ++
      [h.ttl, h.protocol])))) ++ (be16 h.check ++ (leBytes 4 h.saddr.toNat ++ (leBytes 4 h.daddr.toNat ++
      (h.options ++ rest)))) := by
    simp [bytes]
  rw [storeBe16, write_eq hsplit (by simp) (by simp)]
  simp [bytes]

theorem split_saddr (h : IpHdr) (rest : List Byte) : h.bytes ++ rest = (h.version_ihl :: h.tos ::
    (be16 h.tot_len ++ (be16 h.id ++ (be16 h.frag_off ++ (h.ttl :: h.protocol :: be16 h.check))))) ++
    (leBytes 4 h.saddr.toNat ++ (leBytes 4 h.daddr.toNat ++ (h.options ++ rest))) := by
  simp [bytes]

theorem split_daddr (h : IpHdr) (rest : List Byte) : h.bytes ++ rest = (h.version_ihl :: h.tos ::
    (be16 h.tot_len ++ (be16 h.id ++ (be16 h.frag_off ++ (h.ttl :: h.protocol :: (be16 h.check ++
    leBytes 4 h.saddr.toNat)))))) ++ (leBytes 4 h.daddr.toNat ++ (h.options ++ rest)) := by
  simp [bytes]

theorem store_saddr (h : IpHdr) (rest : List Byte) (a : BitVec 32) :
    store32 (h.bytes ++ rest) 12 a = some ({ h with saddr := a }.bytes ++ rest) := by
  rw [store32, write_eq (split_saddr h rest) (by simp) (by simp)]
  simp [bytes]

theorem store_daddr (h : IpHdr) (rest : List Byte) (a : BitVec 32) :
    store32 (h.bytes ++ rest) 16 a = some ({ h with daddr := a }.bytes ++ rest) := by
  rw [store32, write_eq (split_daddr h rest) (by simp) (by simp)]
  simp [bytes]

theorem ofLe_addr (a : BitVec 32) : BitVec.ofNat 32 (ofLe (leBytes 4 a.toNat)) = a := by
  rw [ofLe_leBytes]
  exact BitVec.eq_of_toNat_eq (by have := a.isLt; rw [BitVec.toNat_ofNat]; omega)

theorem load_saddr (h : IpHdr) (rest : List Byte) : load32 (h.bytes ++ rest) 12 = some h.saddr := by
  rw [load32, read_eq (split_saddr h rest) (by simp) (by simp), Option.map_some, ofLe_addr]

theorem load_daddr (h : IpHdr) (rest : List Byte) : load32 (h.bytes ++ rest) 16 = some h.daddr := by
  rw [load32, read_eq (split_daddr h rest) (by simp) (by simp), Option.map_some, ofLe_addr]

end IpHdr

/-! ### Checksums -/

theorem loadBe16_eq {xs a c : List Byte} {n : ℕ} {i : ℤ} (h : xs = a ++ (be16 n ++ c)) (hi : i = a.length)
    (hn : n < 65536) : loadBe16 xs i = some n := by
  have h1 : load xs i = some (BitVec.ofNat 8 (n / 256)) := load_eq h hi
  have h2 : load xs (i + 1) = some (BitVec.ofNat 8 n) :=
    load_eq (show xs = (a ++ [BitVec.ofNat 8 (n / 256)]) ++ BitVec.ofNat 8 n :: c by rw [h]; simp [be16])
      (by rw [hi]; simp)
  rw [loadBe16, h1, Option.bind_eq_bind, Option.bind_some, h2]
  exact congrArg some (ofBe16_be16 hn)

theorem loadBe16_isSome {m : List Byte} {i : ℤ} (h0 : 0 ≤ i) (h1 : i + 2 ≤ m.length) :
    ∃ n, loadBe16 m i = some n := by
  have hlo : ∃ b, load m i = some b := by
    rw [load, if_pos h0]
    exact ⟨_, List.getElem?_eq_getElem (by omega)⟩
  have hhi : ∃ b, load m (i + 1) = some b := by
    rw [load, if_pos (by omega)]
    exact ⟨_, List.getElem?_eq_getElem (by omega)⟩
  obtain ⟨a, ha⟩ := hlo
  obtain ⟨b, hb⟩ := hhi
  exact ⟨ofBe16 a b, by rw [loadBe16, ha, Option.bind_eq_bind, Option.bind_some, hb]; rfl⟩

theorem loadBe16_append (pre xs : List Byte) (k : ℕ) : loadBe16 (pre ++ xs) (pre.length + k) = loadBe16 xs k := by
  have h := load_append pre xs (k + 1)
  push_cast at h
  rw [loadBe16, loadBe16, load_append, add_assoc, h]

theorem storeBe16_append (pre xs : List Byte) (k v : ℕ) :
    storeBe16 (pre ++ xs) (pre.length + k) v = (storeBe16 xs k v).map (pre ++ ·) := by
  unfold storeBe16 write
  rw [List.length_append, length_be16]
  by_cases hk : k + 2 ≤ xs.length
  · rw [if_pos (by push_cast; omega), if_pos (by push_cast; omega), Option.map_some]
    rw [show ((pre.length : ℤ) + k).toNat = pre.length + k by omega, Int.toNat_natCast, List.take_length_add_append,
      Nat.add_assoc, List.drop_length_add_append]
    simp only [List.append_assoc]
  · rw [if_neg (by push_cast; omega), if_neg (by push_cast; omega)]
    rfl

theorem storeBe16_isSome {xs : List Byte} {i : ℤ} {v : ℕ} (h : loadBe16 xs i = some v) (w : ℕ) :
    ∃ ys, storeBe16 xs i w = some ys := by
  obtain ⟨hi, hload, h⟩ := Option.bind_eq_some_iff.1 h
  obtain ⟨lo, hload', -⟩ := Option.bind_eq_some_iff.1 h
  unfold load at hload hload'
  split at hload
  · have hlt := (List.getElem?_eq_some_iff.1 (by simpa using hload' : _ ∧ xs[(i + 1).toNat]? = some lo).2).1
    refine ⟨_, if_pos ⟨by omega, ?_⟩⟩
    rw [length_be16]
    omega
  · cases hload

/-- The words of a sum lie within the packet. -/
theorem SumWords_isSome {m : List Byte} {i : ℤ} {n : ℕ} (h0 : 0 ≤ i) (h1 : i + 2 * n ≤ m.length) :
    ∃ sum, SumWords m i n = some sum := by
  obtain ⟨sum, hsum, -⟩ := foldlM_invariant (f := fun (sum : BitVec 32) (j : ℕ) => do
      let w ← loadBe16 m (i + 2 * j)
      return sum + BitVec.ofNat 32 w)
    (fun _ _ => True) (l := List.range n) (s := 0) trivial (by
      intro done j rest sum hsplit _
      have hj : j < n := List.mem_range.1 (by rw [hsplit]; simp)
      obtain ⟨w, hw⟩ := loadBe16_isSome (m := m) (i := i + 2 * j) (by omega) (by omega)
      exact ⟨_, Option.bind_eq_some_iff.2 ⟨w, hw, rfl⟩, trivial⟩)
  exact ⟨sum, hsum⟩

theorem updateIpChecksum_spec {h : IpHdr} (hw : h.WF) (rest : List Byte) :
    ∃ c, updateIpChecksum (h.bytes ++ rest) = some ({ h with check := c }.bytes ++ rest) := by
  have hlen : ({ h with check := 0 }.bytes ++ rest : List Byte).length = h.options.length + 20 + rest.length := by
    rw [List.length_append, IpHdr.length_bytes]
  obtain ⟨sum, hsum⟩ := SumWords_isSome (m := { h with check := 0 }.bytes ++ rest) (i := 0)
    (n := h.version_ihl.toNat % 16 * 2) le_rfl (by rw [hlen]; unfold IpHdr.WF at hw; omega)
  refine ⟨(foldSum sum).toNat, ?_⟩
  rw [updateIpChecksum, IpHdr.store_check, Option.bind_eq_bind, Option.bind_some, IpHdr.ihl_eq, Option.bind_eq_bind,
    Option.bind_some, hsum, Option.bind_eq_bind, Option.bind_some, IpHdr.store_check]

/-- The old checksum does not matter. -/
theorem updateIpChecksum_check (h : IpHdr) (c : ℕ) (rest : List Byte) :
    updateIpChecksum ({ h with check := c }.bytes ++ rest) = updateIpChecksum (h.bytes ++ rest) := by
  unfold updateIpChecksum
  rw [IpHdr.store_check, IpHdr.store_check]

/-- `struct udphdr`, in host byte order. -/
structure UdpHdr where
  source : ℕ
  dest : ℕ
  len : ℕ
  check : ℕ

def UdpHdr.bytes (u : UdpHdr) : List Byte := be16 u.source ++ (be16 u.dest ++ (be16 u.len ++ be16 u.check))

@[simp]
theorem UdpHdr.length_bytes (u : UdpHdr) : u.bytes.length = 8 := rfl

/-- The position of the datagram for a `long` of four bytes. -/
theorem IpHdr.udp_pos {h : IpHdr} (hw : h.WF) :
    ((h.version_ihl.toNat % 16 : ℕ) : ℤ) * WordSize.bytes .ilp32 = h.bytes.length := by
  rw [IpHdr.length_bytes]
  unfold IpHdr.WF at hw
  simp only [WordSize.bytes]
  omega

theorem UdpHdr.split_check (u : UdpHdr) (pre rest : List Byte) : pre ++ (u.bytes ++ rest) =
    (pre ++ (be16 u.source ++ (be16 u.dest ++ be16 u.len))) ++ (be16 u.check ++ rest) := by
  simp [bytes]

theorem UdpHdr.store_check (u : UdpHdr) (pre rest : List Byte) (c : ℕ) :
    storeBe16 (pre ++ (u.bytes ++ rest)) (pre.length + 6) c = some (pre ++ ({ u with check := c }.bytes ++ rest)) := by
  rw [storeBe16, write_eq (u.split_check pre rest) (by simp) (by simp)]
  simp [bytes]

theorem UdpHdr.load_len {u : UdpHdr} (hu : u.len < 65536) (pre rest : List Byte) :
    loadBe16 (pre ++ (u.bytes ++ rest)) (pre.length + 4) = some u.len := by
  refine loadBe16_eq (a := pre ++ (be16 u.source ++ be16 u.dest)) (c := be16 u.check ++ rest) ?_ (by simp) hu
  simp [bytes]

/-- The checksum routine only changes the checksum of a UDP datagram that fills the packet. -/
theorem updateUdpChecksum_spec {h : IpHdr} (hw : h.WF) {u : UdpHdr} {data : List Byte} (hlen : u.len = 8 + data.length)
    (hlt : u.len < 65536) (rest : List Byte) :
    ∃ c, updateUdpChecksum .ilp32 (h.bytes ++ (u.bytes ++ (data ++ rest))) =
      some (h.bytes ++ ({ u with check := c }.bytes ++ (data ++ rest))) := by
  -- the pseudo header, the words of the datagram and its last byte are read
  let mem := h.bytes ++ ({ u with check := 0 }.bytes ++ (data ++ rest))
  have hmem : mem.length = h.bytes.length + (8 + (data.length + rest.length)) := by
    simp [mem]
  obtain ⟨s1, hs1⟩ := SumWords_isSome (m := mem) (i := 12) (n := 4) (by omega)
    (by rw [hmem, IpHdr.length_bytes]; omega)
  obtain ⟨s2, hs2⟩ := SumWords_isSome (m := mem) (i := h.bytes.length) (n := u.len / 2) (by omega)
    (by rw [hmem]; omega)
  have hodd : ∀ sum : BitVec 32, ∃ sum', addLastByte mem h.bytes.length u.len sum = some sum' := by
    intro sum
    unfold addLastByte
    split
    · have hb : ∃ b, load mem (h.bytes.length + u.len - 1) = some b := by
        rw [load, if_pos (by omega)]
        exact ⟨_, List.getElem?_eq_getElem (by omega)⟩
      obtain ⟨b, hb⟩ := hb
      rw [hb]
      exact ⟨_, rfl⟩
    · exact ⟨sum, rfl⟩
  obtain ⟨s3, hs3⟩ := hodd (s1 + BitVec.ofNat 32 IPPROTO_UDP.toNat + BitVec.ofNat 32 u.len + s2)
  refine ⟨(foldSum s3).toNat, ?_⟩
  have hihl : ihl (h.bytes ++ (u.bytes ++ (data ++ rest))) = some (h.version_ihl.toNat % 16) := h.ihl_eq _
  unfold updateUdpChecksum
  refine Option.bind_eq_some_iff.2 ⟨_, hihl, ?_⟩
  simp only [IpHdr.udp_pos hw]
  exact Option.bind_eq_some_iff.2 ⟨_, u.store_check _ _ 0, Option.bind_eq_some_iff.2 ⟨_, hs1,
    Option.bind_eq_some_iff.2 ⟨_, UdpHdr.load_len (u := { u with check := 0 }) hlt _ _,
    Option.bind_eq_some_iff.2 ⟨_, hs2, Option.bind_eq_some_iff.2 ⟨_, hs3,
    UdpHdr.store_check { u with check := 0 } _ _ _⟩⟩⟩⟩⟩

/-! ### The MP-OLSR header -/

/-- The addresses of a path, in four bytes each. -/
def pathBytes {ws : WordSize} (path : List (ip_v4_addr ws)) : List Byte :=
  path.flatMap fun a => leBytes 4 a.toNat

theorem length_pathBytes {ws : WordSize} (path : List (ip_v4_addr ws)) : (pathBytes path).length = path.length * 4 := by
  induction path with
  | nil => rfl
  | cons a path ih =>
    rw [pathBytes, List.flatMap_cons, List.length_append, length_leBytes]
    rw [pathBytes] at ih
    rw [ih, List.length_cons]
    omega

namespace SerHeader

variable {ws : WordSize} (s : SerHeader ws) (pre rest : List Byte)

@[simp]
theorem length_bytes : s.bytes.length = sizeof_ser_header ws := by
  simp [bytes, sizeof_ser_header]
  omega

theorem load_protocol : load (pre ++ (s.bytes ++ rest)) (pre.length + 1) = some s.protocol := by
  have hsplit : pre ++ (s.bytes ++ rest) = (pre ++ [s.version]) ++ s.protocol :: (be16 s.empty ++ (be16 s.hops ++
      (be16 s.cur ++ (leBytes ws.bytes s.first_node.toNat ++ rest)))) := by
    simp [bytes]
  exact load_eq hsplit (by simp)

variable {s} in
theorem hops_eq (hh : s.hops < 65536) : MpOlsrPacket.hops (pre ++ (s.bytes ++ rest)) pre.length = some s.hops := by
  have hsplit : pre ++ (s.bytes ++ rest) = (pre ++ ([s.version, s.protocol] ++ be16 s.empty)) ++ (be16 s.hops ++
      (be16 s.cur ++ (leBytes ws.bytes s.first_node.toNat ++ rest))) := by
    simp [bytes]
  exact loadBe16_eq hsplit (by simp) hh

theorem split_cur : pre ++ (s.bytes ++ rest) = (pre ++ ([s.version, s.protocol] ++ (be16 s.empty ++ be16 s.hops))) ++
    (be16 s.cur ++ (leBytes ws.bytes s.first_node.toNat ++ rest)) := by
  simp [bytes]

variable {s} in
theorem cur_eq (hc : s.cur < 65536) : MpOlsrPacket.cur (pre ++ (s.bytes ++ rest)) pre.length = some s.cur :=
  loadBe16_eq (split_cur s pre rest) (by simp) hc

theorem store_cur (n : ℕ) : storeBe16 (pre ++ (s.bytes ++ rest)) (pre.length + 6) n =
    some (pre ++ ({ s with cur := n }.bytes ++ rest)) := by
  rw [storeBe16, write_eq (split_cur s pre rest) (by simp) (by simp)]
  simp [bytes]

theorem ofLe_long (a : ULong ws) : BitVec.ofNat ws.bits (ofLe (leBytes ws.bytes a.toNat)) = a := by
  have hpow : 256 ^ ws.bytes = 2 ^ ws.bits := by cases ws <;> rfl
  rw [ofLe_leBytes, hpow, Nat.mod_eq_of_lt a.isLt, BitVec.ofNat_toNat, BitVec.setWidth_eq]

theorem load_first_node : loadLong ws (pre ++ (s.bytes ++ rest)) (pre.length + 8) = some s.first_node := by
  have hsplit : pre ++ (s.bytes ++ rest) = (pre ++ ([s.version, s.protocol] ++ (be16 s.empty ++ (be16 s.hops ++
      be16 s.cur)))) ++ (leBytes ws.bytes s.first_node.toNat ++ rest) := by
    simp [bytes]
  rw [loadLong, read_eq hsplit (by simp) (by simp), Option.map_some, ofLe_long]

variable {s} in
theorem getMpOlsrHeaderSize_eq (hh : s.hops < 65536) :
    getMpOlsrHeaderSize ws (pre ++ (s.bytes ++ rest)) pre.length = some ((s.hops * 4 + sizeof_ser_header ws : ℕ) : ℤ) := by
  rw [getMpOlsrHeaderSize, hops_eq pre rest hh]
  rfl

end SerHeader

theorem loadSerHeader_eq {ws : WordSize} {s : SerHeader ws} (pre rest : List Byte) (he : s.empty < 65536) (hh : s.hops < 65536)
    (hc : s.cur < 65536) : loadSerHeader ws (pre ++ (s.bytes ++ rest)) pre.length = some s := by
  have h1 : load (pre ++ (s.bytes ++ rest)) pre.length = some s.version :=
    load_eq (c := [s.protocol] ++ be16 s.empty ++ be16 s.hops ++ be16 s.cur ++
      leBytes ws.bytes s.first_node.toNat ++ rest) (by simp [SerHeader.bytes]) rfl
  have h2 : loadBe16 (pre ++ (s.bytes ++ rest)) (pre.length + 2) = some s.empty :=
    loadBe16_eq (a := pre ++ [s.version, s.protocol]) (c := be16 s.hops ++ be16 s.cur ++
      leBytes ws.bytes s.first_node.toNat ++ rest) (by simp [SerHeader.bytes]) (by simp) he
  exact Option.bind_eq_some_iff.2 ⟨_, h1, Option.bind_eq_some_iff.2 ⟨_, s.load_protocol pre rest,
    Option.bind_eq_some_iff.2 ⟨_, h2, Option.bind_eq_some_iff.2 ⟨_, SerHeader.hops_eq pre rest hh,
    Option.bind_eq_some_iff.2 ⟨_, SerHeader.cur_eq pre rest hc,
    Option.bind_eq_some_iff.2 ⟨_, s.load_first_node pre rest, rfl⟩⟩⟩⟩⟩⟩

/-- The hop of a given number, counted from 1 on. -/
theorem getHopAddr_eq {s : SerHeader .ilp32} (pre rest : List Byte) {path : List (ip_v4_addr .ilp32)}
    (hs : s.hops = path.length) (hh : s.hops < 65536) {i : ℕ} (hi : i < path.length) :
    getHopAddr .ilp32 (pre ++ (s.bytes ++ (pathBytes path ++ rest))) pre.length ((i + 1 : ℕ) : ℤ) = some path[i] := by
  have hsplit : path = path.take i ++ path[i] :: path.drop (i + 1) := by
    rw [List.getElem_cons_drop, List.take_append_drop]
  have hbytes : pathBytes path = pathBytes (path.take i) ++ (leBytes 4 path[i].toNat ++ pathBytes (path.drop (i + 1))) :=
    (congrArg pathBytes hsplit).trans (by unfold pathBytes; rw [List.flatMap_append, List.flatMap_cons])
  have hlen : (pathBytes (path.take i)).length = i * 4 := by
    rw [length_pathBytes, List.length_take, Nat.min_eq_left (by omega)]
  have hload : loadLong .ilp32 (pre ++ (s.bytes ++ (pathBytes path ++ rest)))
      (pre.length + sizeof_ser_header .ilp32 + (((i + 1 : ℕ) : ℤ) - 1) * WordSize.bytes .ilp32) = some path[i] := by
    have hmem : pre ++ (s.bytes ++ (pathBytes path ++ rest)) = (pre ++ (s.bytes ++ pathBytes (path.take i))) ++
        (leBytes 4 path[i].toNat ++ (pathBytes (path.drop (i + 1)) ++ rest)) := by
      rw [hbytes]
      simp only [List.append_assoc]
    have hn : (WordSize.bytes .ilp32 : ℤ) = (leBytes 4 path[i].toNat).length := by rw [length_leBytes]; rfl
    rw [loadLong, read_eq hmem ?_ hn, Option.map_some]
    · exact congrArg some (@SerHeader.ofLe_long .ilp32 path[i])
    · simp only [List.length_append, SerHeader.length_bytes, hlen, WordSize.bytes]
      push_cast
      ring
  have hcond : ¬ (((i + 1 : ℕ) : ℤ) ≤ 0 ∨ ((i + 1 : ℕ) : ℤ) > (s.hops : ℤ)) := by omega
  rw [getHopAddr, SerHeader.hops_eq pre _ hh, Option.bind_eq_bind, Option.bind_some, if_neg hcond, hload]

/-- A packet with room for the header is recognised. -/
theorem new_eq (ws : WordSize) {h : IpHdr} (hw : h.WF) (ht : h.tot_len < 65536) {rest : List Byte}
    (hroom : h.bytes.length + sizeof_ser_header ws ≤ h.tot_len) :
    MpOlsrPacket.new ws (h.bytes ++ rest) = some (some (h.bytes.length : ℤ)) := by
  have hsize := IpHdr.getIpHeaderSize_eq hw rest
  have htotal := IpHdr.getIpTotalSize_eq ht rest
  have hpay : getIpPayloadSize (h.bytes ++ rest) = some ((h.tot_len : ℤ) - h.bytes.length) := by
    rw [getIpPayloadSize, htotal, Option.bind_eq_bind, Option.bind_some, hsize]
    rfl
  have hcond : (h.tot_len : ℤ) - h.bytes.length < 0 ∨
      (sizeof_ser_header ws : ℤ) ≤ (h.tot_len : ℤ) - h.bytes.length := by omega
  rw [MpOlsrPacket.new, hpay, Option.bind_eq_bind, Option.bind_some, hsize, Option.bind_some, if_pos hcond]
  rfl

/-! ### Inserting and removing a header -/

/-- A buffer cut after `i` cells, and again after `k` and `n` cells. -/
theorem buffer_split {l : List Byte} {i k n : ℕ} (h : i + (k + n) ≤ l.length) :
    ∃ a b c, l = a ++ (b ++ (c ++ l.drop (i + (k + n)))) ∧ a.length = i ∧ b.length = k ∧ c.length = n := by
  obtain ⟨a, b, c, hl, ha, hb⟩ := exists_split (l := l) (i := i) (n := k) (by omega)
  have hlen : c.length + (i + k) = l.length := by
    rw [hl]
    simp only [List.length_append]
    omega
  have hdrop : l.drop (i + (k + n)) = c.drop n := by
    rw [hl, ← List.append_assoc, ← ha, ← hb, ← Nat.add_assoc, ← List.length_append, List.drop_length_add_append]
  refine ⟨a, b, c.take n, ?_, ha, hb, ?_⟩
  · rw [hdrop, List.take_append_drop]
    exact hl
  · rw [List.length_take]
    omega

/-- Inserting a block is copying the three parts, up to the checksum. -/
theorem addMpOlsrHeader_eq {h : IpHdr} (hw : h.WF) {body k j n : List Byte}
    (ht : h.tot_len = h.bytes.length + body.length) (hlt : h.tot_len < 65536)
    (hsize : h.tot_len + k.length ≤ n.length) :
    addMpOlsrHeader (h.bytes ++ body) (k ++ j) k.length n n.length =
      (updateIpChecksum ({ h with tot_len := h.tot_len + k.length, protocol := IPPROTO_MPOLSR }.bytes ++
        (k ++ (body ++ n.drop (h.tot_len + k.length))))).map fun p => (true, p) := by
  obtain ⟨a, b, c, hn, ha, hb, hc⟩ := buffer_split (l := n) (i := h.bytes.length) (k := k.length)
    (n := body.length) (by omega)
  have hend : h.bytes.length + (k.length + body.length) = h.tot_len + k.length := by omega
  rw [hend] at hn
  generalize n.drop (h.tot_len + k.length) = rest at hn ⊢
  have htotal := IpHdr.getIpTotalSize_eq hlt body
  have hhdr := IpHdr.getIpHeaderSize_eq hw body
  have hcond : ¬ ((h.tot_len : ℤ) + k.length > (n.length : ℕ)) := by omega
  have h1 : memcpy n 0 (h.bytes ++ body) 0 h.bytes.length = some (h.bytes ++ (b ++ (c ++ rest))) :=
    memcpy_eq (a := []) (e := []) (f := body) hn rfl rfl rfl rfl ha.symm
  have h2 : memcpy (h.bytes ++ (b ++ (c ++ rest))) h.bytes.length (k ++ j) 0 k.length =
      some (h.bytes ++ (k ++ (c ++ rest))) :=
    memcpy_eq (e := []) (f := j) rfl rfl rfl rfl rfl hb.symm
  have h3 : memcpy (h.bytes ++ (k ++ (c ++ rest))) (h.bytes.length + k.length) (h.bytes ++ body)
      h.bytes.length (h.tot_len - h.bytes.length) = some ((h.bytes ++ k) ++ (body ++ rest)) :=
    memcpy_eq (a := h.bytes ++ k) (e := h.bytes) (f := []) (by simp) (by simp) (by simp) rfl (by omega) hc.symm
  rw [List.append_assoc] at h3
  have h4 := IpHdr.store_tot_len h (k ++ (body ++ rest)) (h.tot_len + k.length)
  have h5 := IpHdr.store_protocol { h with tot_len := h.tot_len + k.length } (k ++ (body ++ rest))
    IPPROTO_MPOLSR
  have hnat : ((h.tot_len : ℤ) + k.length).toNat = h.tot_len + k.length := by omega
  unfold addMpOlsrHeader
  rw [bind_of_some htotal]
  simp only [if_neg hcond, hnat]
  rw [bind_of_some hhdr, bind_of_some h1, bind_of_some h2, bind_of_some h3, bind_of_some h4, bind_of_some h5,
    Option.map_eq_bind]
  rfl

/-- The packet with the block inserted, at the start of the buffer. -/
theorem addMpOlsrHeader_spec {h : IpHdr} (hw : h.WF) {body k j n : List Byte}
    (ht : h.tot_len = h.bytes.length + body.length) (hlt : h.tot_len < 65536)
    (hsize : h.tot_len + k.length ≤ n.length) :
    ∃ c rest, addMpOlsrHeader (h.bytes ++ body) (k ++ j) k.length n n.length =
      some (true, { h with tot_len := h.tot_len + k.length, protocol := IPPROTO_MPOLSR, check := c }.bytes ++
        (k ++ (body ++ rest))) ∧ rest.length + (h.tot_len + k.length) = n.length := by
  let h' : IpHdr := { h with tot_len := h.tot_len + k.length, protocol := IPPROTO_MPOLSR }
  have hw' : h'.WF := hw
  obtain ⟨c, hc⟩ := updateIpChecksum_spec hw' (k ++ (body ++ n.drop (h.tot_len + k.length)))
  refine ⟨c, n.drop (h.tot_len + k.length), ?_, by rw [List.length_drop]; omega⟩
  rw [addMpOlsrHeader_eq hw ht hlt hsize, hc]
  rfl

/-- Replacing the header is copying the IP header, the block and the data, up to the checksum. -/
theorem replaceMpOlsrHeader_eq {h : IpHdr} (hw : h.WF) {s : SerHeader .ilp32} {addrs body t k j n : List Byte}
    (haddrs : addrs.length = s.hops * 4)
    (ht : h.tot_len = h.bytes.length + (sizeof_ser_header .ilp32 + (addrs.length + body.length)))
    (hlt : h.tot_len < 65536) (hsize : h.bytes.length + (k.length + body.length) ≤ n.length) :
    replaceMpOlsrHeader .ilp32 (h.bytes ++ (s.bytes ++ (addrs ++ (body ++ t)))) (k ++ j) k.length n n.length =
      (updateIpChecksum ({ h with tot_len := h.bytes.length + (k.length + body.length) }.bytes ++
        (k ++ (body ++ n.drop (h.bytes.length + (k.length + body.length)))))).map fun p => (true, p) := by
  obtain ⟨a, b, c, hn, ha, hb, hc⟩ := buffer_split hsize
  generalize n.drop (h.bytes.length + (k.length + body.length)) = rest at hn ⊢
  let iph := h.bytes ++ (s.bytes ++ (addrs ++ (body ++ t)))
  have hhops : s.hops < 65536 := by omega
  have hnew : MpOlsrPacket.new .ilp32 iph = some (some (h.bytes.length : ℤ)) := new_eq .ilp32 hw hlt (by omega)
  have htotal : getIpTotalSize iph = some (h.tot_len : ℤ) := IpHdr.getIpTotalSize_eq hlt _
  have hserSize : getMpOlsrHeaderSize .ilp32 iph h.bytes.length =
      some ((s.hops * 4 + sizeof_ser_header .ilp32 : ℕ) : ℤ) :=
    SerHeader.getMpOlsrHeaderSize_eq h.bytes (addrs ++ (body ++ t)) hhops
  have hhdr : getIpHeaderSize iph = some (h.bytes.length : ℤ) := IpHdr.getIpHeaderSize_eq hw _
  have hsizeNew : (h.tot_len : ℤ) - ((s.hops * 4 + sizeof_ser_header .ilp32 : ℕ) : ℤ) + k.length =
      ((h.bytes.length + (k.length + body.length) : ℕ) : ℤ) := by omega
  have hcond : ¬ (((h.bytes.length + (k.length + body.length) : ℕ) : ℤ) > (n.length : ℕ)) := by omega
  have h1 : memcpy n 0 iph 0 h.bytes.length = some (h.bytes ++ (b ++ (c ++ rest))) :=
    memcpy_eq (a := []) (e := []) (f := s.bytes ++ (addrs ++ (body ++ t))) hn rfl rfl rfl rfl ha.symm
  have h2 : memcpy (h.bytes ++ (b ++ (c ++ rest))) h.bytes.length (k ++ j) 0 k.length =
      some (h.bytes ++ (k ++ (c ++ rest))) :=
    memcpy_eq (e := []) (f := j) rfl rfl rfl rfl rfl hb.symm
  have h3 : memcpy (h.bytes ++ (k ++ (c ++ rest))) (h.bytes.length + k.length) iph
      (h.bytes.length + ((s.hops * 4 + sizeof_ser_header .ilp32 : ℕ) : ℤ))
      (h.tot_len - h.bytes.length - ((s.hops * 4 + sizeof_ser_header .ilp32 : ℕ) : ℤ)) =
      some ((h.bytes ++ k) ++ (body ++ rest)) := by
    refine memcpy_eq (a := h.bytes ++ k) (e := h.bytes ++ (s.bytes ++ addrs)) (f := t) ?_ ?_ ?_ ?_ ?_ hc.symm
    · simp
    · simp
    · simp [iph]
    · simp only [List.length_append, SerHeader.length_bytes]
      omega
    · omega
  rw [List.append_assoc] at h3
  have h4 := IpHdr.store_tot_len h (k ++ (body ++ rest)) (h.bytes.length + (k.length + body.length))
  unfold replaceMpOlsrHeader
  rw [bind_of_some hnew, bind_of_some htotal]
  simp only [Option.elim_some]
  rw [bind_of_some hserSize]
  simp only [hsizeNew, if_neg hcond, Int.toNat_natCast]
  rw [bind_of_some hhdr, bind_of_some h1, bind_of_some h2, bind_of_some h3, bind_of_some h4, Option.map_eq_bind]
  rfl

/-- The IP header of the original packet, up to its checksum. -/
def IpHdr.restore {ws : WordSize} (h : IpHdr) (s : SerHeader ws) (size : ℕ) : IpHdr :=
  { h with tot_len := h.bytes.length + size, protocol := s.protocol, saddr := s.first_node.setWidth 32 }

theorem IpHdr.restore_wf {ws : WordSize} {h : IpHdr} (hw : h.WF) (s : SerHeader ws) (size : ℕ) : (h.restore s size).WF := hw

/-- Removing the header is copying the IP header and the data, up to the checksums. -/
theorem removeMpOlsrHeader_eq {ws : WordSize} {h : IpHdr} (hw : h.WF) {s : SerHeader ws} {addrs body t n : List Byte}
    (haddrs : addrs.length = s.hops * 4)
    (ht : h.tot_len = h.bytes.length + (sizeof_ser_header ws + (addrs.length + body.length)))
    (hlt : h.tot_len < 65536) (hsize : h.bytes.length + body.length ≤ n.length) :
    removeMpOlsrHeader ws (h.bytes ++ (s.bytes ++ (addrs ++ (body ++ t)))) h.bytes.length n n.length =
      (updateUdpChecksum ws ((h.restore s body.length).bytes ++
        (body ++ n.drop (h.bytes.length + body.length)))).bind fun p =>
      (updateIpChecksum p).map fun p => (true, p) := by
  obtain ⟨a, b, c, hn, ha, hb, hc⟩ := buffer_split (l := n) (i := h.bytes.length) (k := 0) (n := body.length) (by omega)
  rw [List.length_eq_zero_iff.1 hb, List.nil_append, Nat.zero_add] at hn
  generalize n.drop (h.bytes.length + body.length) = rest at hn ⊢
  have hhops : s.hops < 65536 := by omega
  let iph := h.bytes ++ (s.bytes ++ (addrs ++ (body ++ t)))
  have htotal : getIpTotalSize iph = some (h.tot_len : ℤ) := IpHdr.getIpTotalSize_eq hlt _
  have hhdr : getIpHeaderSize iph = some (h.bytes.length : ℤ) := IpHdr.getIpHeaderSize_eq hw _
  have hserSize : getMpOlsrHeaderSize ws iph h.bytes.length =
      some ((s.hops * 4 + sizeof_ser_header ws : ℕ) : ℤ) :=
    SerHeader.getMpOlsrHeaderSize_eq h.bytes (addrs ++ (body ++ t)) hhops
  have hnew : (h.tot_len : ℤ) - ((s.hops * 4 + sizeof_ser_header ws : ℕ) : ℤ) =
      ((h.bytes.length + body.length : ℕ) : ℤ) := by omega
  have hcond : ¬ (((h.bytes.length + body.length : ℕ) : ℤ) > (n.length : ℕ)) := by omega
  have h1 : memcpy n 0 iph 0 h.bytes.length = some (h.bytes ++ (c ++ rest)) :=
    memcpy_eq (a := []) (e := []) (f := s.bytes ++ (addrs ++ (body ++ t))) hn rfl rfl rfl rfl ha.symm
  have h2 : memcpy (h.bytes ++ (c ++ rest)) h.bytes.length iph
      (h.bytes.length + ((s.hops * 4 + sizeof_ser_header ws : ℕ) : ℤ))
      (h.tot_len - h.bytes.length - ((s.hops * 4 + sizeof_ser_header ws : ℕ) : ℤ)) =
      some (h.bytes ++ (body ++ rest)) := by
    refine memcpy_eq (e := h.bytes ++ (s.bytes ++ addrs)) (f := t) rfl rfl (by simp [iph]) ?_ (by omega) hc.symm
    simp only [List.length_append, SerHeader.length_bytes]
    omega
  have h3 := IpHdr.store_tot_len h (body ++ rest) (h.bytes.length + body.length)
  let h' : IpHdr := { h with tot_len := h.bytes.length + body.length }
  have h4 : load iph (h.bytes.length + 1) = some s.protocol :=
    SerHeader.load_protocol s h.bytes (addrs ++ (body ++ t))
  have h5 := IpHdr.store_protocol h' (body ++ rest) s.protocol
  have h6 : loadLong ws iph (h.bytes.length + 8) = some s.first_node :=
    SerHeader.load_first_node s h.bytes (addrs ++ (body ++ t))
  have h7 := IpHdr.store_saddr { h' with protocol := s.protocol } (body ++ rest) (s.first_node.setWidth 32)
  unfold removeMpOlsrHeader
  rw [bind_of_some htotal, bind_of_some hserSize]
  simp only [hnew, if_neg hcond, Int.toNat_natCast]
  rw [bind_of_some hhdr, bind_of_some h1, bind_of_some h2, bind_of_some h3, bind_of_some h4, bind_of_some h5,
    bind_of_some h6, bind_of_some h7, Option.bind_eq_bind]
  congr 1
  funext p
  rw [Option.map_eq_bind]
  rfl

/-- The UDP datagram without the MP-OLSR header, with new checksums, at the start of the buffer. -/
theorem removeMpOlsrHeader_spec {h : IpHdr} (hw : h.WF) {s : SerHeader .ilp32} {addrs data t n : List Byte}
    {u : UdpHdr} (haddrs : addrs.length = s.hops * 4) (hulen : u.len = 8 + data.length)
    (ht : h.tot_len = h.bytes.length + (sizeof_ser_header .ilp32 + (addrs.length + (8 + data.length))))
    (hlt : h.tot_len < 65536) (hsize : h.bytes.length + (8 + data.length) ≤ n.length) :
    ∃ c c' rest, removeMpOlsrHeader .ilp32 (h.bytes ++ (s.bytes ++ (addrs ++ (u.bytes ++ (data ++ t))))) h.bytes.length
        n n.length =
      some (true, { h with tot_len := h.bytes.length + (8 + data.length), protocol := s.protocol,
                           saddr := s.first_node.setWidth 32, check := c }.bytes ++
        ({ u with check := c' }.bytes ++ (data ++ rest))) ∧
      rest.length + (h.bytes.length + (8 + data.length)) = n.length := by
  have hbody : (u.bytes ++ data).length = 8 + data.length := by rw [List.length_append, UdpHdr.length_bytes]
  have heq := @removeMpOlsrHeader_eq _ h hw s addrs (u.bytes ++ data) t n haddrs (by omega) hlt (by omega)
  simp only [List.append_assoc, hbody] at heq
  let rest := n.drop (h.bytes.length + (8 + data.length))
  obtain ⟨c', h1⟩ := updateUdpChecksum_spec (IpHdr.restore_wf hw s (8 + data.length)) hulen (by omega) rest
  obtain ⟨c, h2⟩ := updateIpChecksum_spec (IpHdr.restore_wf hw s (8 + data.length))
    ({ u with check := c' }.bytes ++ (data ++ rest))
  refine ⟨c, c', rest, ?_, by rw [List.length_drop]; omega⟩
  rw [heq, h1, Option.bind_some, h2]
  rfl

end MpOlsr
