import MpOlsr.Routing.Hooks
import MpOlsr.Routing.Layout

/-!
# Source routing

A datagram sent along a path of stations.  `relay` hands a packet from station to station, each of which processes it
with the pre-routing hook.  The station at position `i` of the path finds `cur = i`; it forwards the packet with
`cur = i + 1`, and the last one delivers the datagram (`relay_spec`, `source_routing`).
-/

namespace MpOlsr

open Buffer Bytes IpPacket MpOlsrPacket

/-- A station of the network, with the static buffers of its hooks. -/
structure Station where
  node : Node .ilp32
  path : List Byte
  newpayload : List Byte
  length_path : path.length = MAX_MPOLSR_PATH
  length_newpayload : newpayload.length = BUFFER_SIZE

namespace Station

variable (v : Station)

/-- The main address. -/
abbrev main : ip_v4_addr .ilp32 := v.node.local_addr

/-- A datagram leaves the station. -/
def send (iph : List Byte) : Option HookResult :=
  hk_process_datagram_local_out v.node v.path iph v.newpayload BUFFER_SIZE

/-- An MP-OLSR datagram arrives at the station. -/
def receive (iph : List Byte) : Option HookResult :=
  hk_process_datagram_pre_routing v.node v.path iph v.newpayload BUFFER_SIZE

end Station

/-- The results of the stations that process a packet one after the other, until one drops it. -/
def relay : List Station → List Byte → Option (List HookResult)
  | [], _ => some []
  | v :: vs, iph => do
    let r ← v.receive iph
    if r.ret < 0 then return [r]
    else
      let rs ← relay vs r.packet
      return r :: rs

/-- The lookup finds the path, with a usable link to its first hop when the source is local. -/
def Node.Yields (node : Node .ilp32) (src dst : ip_v4_addr .ilp32) (path : List (ip_v4_addr .ilp32)) : Prop :=
  ∃ src_local, node.find_path src dst = some (⟨path.length, pathBytes path⟩, src_local) ∧
    (src_local = true → ∃ a link, path.head? = some a ∧ node.findLink a = some link ∧ link.dst_alias_ip ≠ 0)

/-- An MP-OLSR packet: a header for the next hop, the MP-OLSR header, the path and the original payload. -/
def EnRoute (s : SerHeader .ilp32) (path : List (ip_v4_addr .ilp32)) (body : List Byte) (daddr : BitVec 32)
    (opts packet : List Byte) : Prop :=
  ∃ h : IpHdr, h.WF ∧ h.protocol = IPPROTO_MPOLSR ∧ h.daddr = daddr ∧ h.options = opts ∧ h.tot_len = packet.length ∧
    packet = h.bytes ++ (s.bytes ++ (pathBytes path ++ body))

/-- A UDP datagram with some checksum, under an IP header of the given protocol and source. -/
def Decapsulated (protocol : Byte) (saddr : BitVec 32) (opts : List Byte) (u : UdpHdr) (data packet : List Byte) : Prop :=
  ∃ (h : IpHdr) (c : ℕ), h.WF ∧ h.protocol = protocol ∧ h.saddr = saddr ∧ h.options = opts ∧
    h.tot_len = packet.length ∧ packet = h.bytes ++ ({ u with check := c }.bytes ++ data)

/-! ### The lookup -/

theorem read_path_head {a c : List Byte} {path : List (ip_v4_addr .ilp32)} {x : ip_v4_addr .ilp32} {i : ℤ}
    (ha : path.head? = some x) (hi : i = a.length) :
    (read (a ++ (pathBytes path ++ c)) i ip_v4_size).map
      (fun bs => BitVec.ofNat (WordSize.bits .ilp32) (ofLe bs)) = some x := by
  cases path with
  | nil => simp at ha
  | cons y path =>
    have hb : y = x := by simpa using ha
    subst hb
    have hsplit : a ++ (pathBytes (y :: path) ++ c) = a ++ (leBytes 4 y.toNat ++ (pathBytes path ++ c)) := by
      simp [pathBytes]
    rw [read_eq hsplit hi (by rw [length_leBytes]; rfl), Option.map_some]
    exact congrArg some (@SerHeader.ofLe_long .ilp32 y)

/-- The path data is a header with `cur = 1`, followed by the path. -/
theorem pth_find_datagram_path_spec {node : Node .ilp32} {src dst m : ip_v4_addr .ilp32}
    {path : List (ip_v4_addr .ilp32)} (hy : node.Yields src dst path) (hne : path ≠ []) {d : List Byte}
    {n : ℕ} {g : SerHeader .ilp32}
    (hroom : sizeof_ser_header .ilp32 + path.length * 4 ≤ d.length) :
    ∃ nextHop junk, pth_find_datagram_path node d n src dst m g = some
      { ret := 0,
        path_data := { g with version := MPOLSR_VERSION, hops := path.length, cur := 1 }.bytes ++
          (pathBytes path ++ junk),
        size := path.length * ip_v4_size + sizeof_ser_header .ilp32, nextHop := nextHop } := by
  obtain ⟨src_local, hfind, hlink⟩ := hy
  let s : SerHeader .ilp32 := { g with version := MPOLSR_VERSION, hops := path.length, cur := 1 }
  obtain ⟨b, c, junk, rfl, hb, hc⟩ := exists_split hroom
  have h1 : write (b ++ (c ++ junk)) 0 s.bytes = some (s.bytes ++ (c ++ junk)) :=
    write_eq (a := []) rfl rfl (by rw [SerHeader.length_bytes, hb])
  have h2 : memcpy (s.bytes ++ (c ++ junk)) (sizeof_ser_header .ilp32) (pathBytes path) 0
      (path.length * ip_v4_size : ℕ) = some (s.bytes ++ (pathBytes path ++ junk)) :=
    memcpy_eq (e := []) (f := []) rfl (by rw [SerHeader.length_bytes]) (by simp) rfl
      (by rw [length_pathBytes]; rfl) (by rw [length_pathBytes, hc])
  obtain ⟨a, ha⟩ : ∃ a, path.head? = some a := by
    cases path with
    | nil => exact absurd rfl hne
    | cons a path => exact ⟨a, rfl⟩
  have h3 := read_path_head (a := s.bytes) (c := junk) (i := sizeof_ser_header .ilp32) ha
    (by rw [SerHeader.length_bytes])
  rw [pth_find_datagram_path, hfind]
  cases src_local with
  | false =>
    refine ⟨a, junk, ?_⟩
    exact Option.bind_eq_some_iff.2 ⟨_, h1, Option.bind_eq_some_iff.2 ⟨_, h2, Option.bind_eq_some_iff.2 ⟨_, h3, rfl⟩⟩⟩
  | true =>
    obtain ⟨a', link, ha', hl, hne'⟩ := hlink rfl
    have haa : a' = a := Option.some.inj (ha'.symm.trans ha)
    subst haa
    refine ⟨link.dst_alias_ip, junk, ?_⟩
    refine Option.bind_eq_some_iff.2 ⟨_, h1, Option.bind_eq_some_iff.2 ⟨_, h2, Option.bind_eq_some_iff.2 ⟨_, h3, ?_⟩⟩⟩
    rw [if_pos rfl, hl, Option.map_some, Option.getD_some, if_neg hne']
    rfl

/-! ### The cursor -/

section Cursor

variable {h : IpHdr} {s : SerHeader .ilp32} {p : List (ip_v4_addr .ilp32)} {b : List Byte} {i : ℕ}

theorem getCurrentAddr_eq (hs : s.hops = p.length) (hh : s.hops < 65536) (hc : s.cur = i + 1)
    (hi : i < p.length) :
    getCurrentAddr .ilp32 (h.bytes ++ (s.bytes ++ (pathBytes p ++ b))) h.bytes.length = some p[i] := by
  rw [getCurrentAddr, SerHeader.cur_eq h.bytes _ (by omega : s.cur < 65536), Option.bind_eq_bind, Option.bind_some, hc]
  exact getHopAddr_eq h.bytes b hs hh hi

theorem getNextAddr_eq (hs : s.hops = p.length) (hh : s.hops < 65536) (hc : s.cur = i + 1)
    (hi : i + 1 < p.length) :
    getNextAddr .ilp32 (h.bytes ++ (s.bytes ++ (pathBytes p ++ b))) h.bytes.length = some p[i + 1] := by
  rw [getNextAddr, SerHeader.cur_eq h.bytes _ (by omega : s.cur < 65536), Option.bind_eq_bind, Option.bind_some, hc]
  exact getHopAddr_eq h.bytes b hs hh hi

theorem isEndOfPath_eq (hh : s.hops < 65536) (hc : s.cur = i + 1) (hi : i < s.hops) :
    isEndOfPath (h.bytes ++ (s.bytes ++ (pathBytes p ++ b))) h.bytes.length = some (decide (i + 1 = s.hops)) := by
  rw [isEndOfPath, SerHeader.cur_eq h.bytes _ (by omega : s.cur < 65536), Option.bind_eq_bind, Option.bind_some,
    SerHeader.hops_eq h.bytes _ hh, Option.bind_some, hc, if_neg (by omega)]
  by_cases hend : i + 1 = s.hops
  · rw [if_neg (by omega), if_neg (by omega), decide_eq_true hend]
    rfl
  · rw [if_pos (by omega), decide_eq_false hend]
    rfl

theorem moveToNextHop_eq (hh : s.hops < 65536) (hc : s.cur = i + 1) (hi : i + 1 < s.hops) :
    moveToNextHop (h.bytes ++ (s.bytes ++ (pathBytes p ++ b))) h.bytes.length =
      some (true, h.bytes ++ ({ s with cur := i + 2 }.bytes ++ (pathBytes p ++ b))) := by
  rw [moveToNextHop, SerHeader.cur_eq h.bytes _ (by omega : s.cur < 65536), Option.bind_eq_bind, Option.bind_some,
    SerHeader.hops_eq h.bytes _ hh, Option.bind_some, if_neg (by omega), SerHeader.store_cur, hc]
  rfl

end Cursor

/-! ### The hooks -/

section Hooks

variable {v : Station} {path : List (ip_v4_addr .ilp32)}

/-- The first packet of a datagram whose payload fits. -/
theorem send_spec {h : IpHdr} (hw : h.WF) {b : List Byte} (ht : h.tot_len = h.bytes.length + b.length)
    (hy : v.node.Yields h.saddr h.daddr path) (hne : path ≠ [])
    (hpath : sizeof_ser_header .ilp32 + path.length * 4 ≤ MAX_MPOLSR_PATH)
    (hsize : h.tot_len + (sizeof_ser_header .ilp32 + path.length * 4) ≤ BUFFER_SIZE) :
    ∃ r daddr, v.send (h.bytes ++ b) = some r ∧ r.ret = 1 ∧
      EnRoute { version := MPOLSR_VERSION, protocol := h.protocol, empty := 0, hops := path.length, cur := 1,
                first_node := h.saddr } path b daddr h.options r.packet := by
  have hlt : h.tot_len < 65536 := by unfold BUFFER_SIZE at hsize; omega
  let header : SerHeader .ilp32 :=
    { version := 0, protocol := h.protocol, empty := 0, hops := 0, cur := 0, first_node := h.saddr }
  let s : SerHeader .ilp32 := { header with version := MPOLSR_VERSION, hops := path.length, cur := 1 }
  obtain ⟨nextHop, junk, hlook⟩ := pth_find_datagram_path_spec (d := v.path) (n := MAX_MPOLSR_PATH)
    (m := 0) (g := header) hy hne (by rw [v.length_path]; exact hpath)
  let block := s.bytes ++ pathBytes path
  have hblock : block.length = path.length * ip_v4_size + sizeof_ser_header .ilp32 := by
    rw [List.length_append, SerHeader.length_bytes, length_pathBytes]
    exact Nat.add_comm _ _
  have hlen4 : path.length * ip_v4_size = path.length * 4 := rfl
  obtain ⟨c, rest, hadd, hrest⟩ := addMpOlsrHeader_spec hw (k := block) (j := junk)
    (n := v.newpayload) ht hlt (by rw [v.length_newpayload, hblock]; omega)
  rw [v.length_newpayload] at hadd hrest
  let h1 : IpHdr := { h with tot_len := h.tot_len + block.length, protocol := IPPROTO_MPOLSR, check := c }
  let h2 : IpHdr := { h1 with daddr := nextHop }
  have hw2 : h2.WF := hw
  have htot1 : h1.tot_len < 65536 := by
    show h.tot_len + block.length < 65536
    unfold BUFFER_SIZE at hsize
    omega
  have htotal := IpHdr.getIpTotalSize_eq htot1 (block ++ (b ++ rest))
  have hproto := IpHdr.store_protocol h1 (block ++ (b ++ rest)) IPPROTO_MPOLSR
  have hdaddr := IpHdr.store_daddr h1 (block ++ (b ++ rest)) nextHop
  obtain ⟨c', hcheck⟩ := updateIpChecksum_spec hw2 (block ++ (b ++ rest))
  let h3 : IpHdr := { h2 with check := c' }
  refine ⟨⟨1, h.bytes ++ b, h3.bytes ++ (block ++ (b ++ rest)), h1.tot_len⟩, nextHop, ?_, rfl, ?_⟩
  · have hne0 : ¬ (path.length * ip_v4_size + sizeof_ser_header .ilp32 = sizeof_ser_header .ilp32 ∨
        path.length * ip_v4_size + sizeof_ser_header .ilp32 = 0) := by
      have := List.length_pos_iff.2 hne
      have : sizeof_ser_header .ilp32 = 12 := rfl
      omega
    refine Option.bind_eq_some_iff.2 ⟨_, h.load_saddr b, Option.bind_eq_some_iff.2 ⟨_, h.load_daddr b,
      Option.bind_eq_some_iff.2 ⟨_, h.load_protocol b, Option.bind_eq_some_iff.2 ⟨_, hlook, ?_⟩⟩⟩⟩
    rw [if_neg (lt_irrefl (0 : ℤ)), if_neg hne0, ← hblock, ← List.append_assoc]
    refine Option.bind_eq_some_iff.2 ⟨_, hadd, ?_⟩
    simp only [reduceCtorEq, if_false]
    exact Option.bind_eq_some_iff.2 ⟨_, htotal, Option.bind_eq_some_iff.2 ⟨_, hproto,
      Option.bind_eq_some_iff.2 ⟨_, hdaddr, Option.bind_eq_some_iff.2 ⟨_, hcheck, rfl⟩⟩⟩⟩
  · have hlen : (h3.bytes ++ (block ++ b)).length = h1.tot_len := by
      show _ = h.tot_len + block.length
      rw [List.length_append, List.length_append, ht]
      show h.bytes.length + _ = _
      omega
    have hpacket : (h3.bytes ++ (block ++ (b ++ rest))).take h1.tot_len = h3.bytes ++ (block ++ b) := by
      rw [← hlen, show h3.bytes ++ (block ++ (b ++ rest)) = (h3.bytes ++ (block ++ b)) ++ rest by simp,
        List.take_left]
    refine ⟨h3, hw, rfl, rfl, rfl, ?_, ?_⟩
    · show h1.tot_len = _
      rw [HookResult.packet, Int.toNat_natCast, hpacket, hlen]
    · rw [HookResult.packet, Int.toNat_natCast, hpacket]
      simp [block, s, header]

variable {s : SerHeader .ilp32} {body opts packet : List Byte} {daddr : BitVec 32} {i : ℕ}

/-- A packet that fits the buffers is recognised. -/
theorem arrival {h : IpHdr} (hw : h.WF) (htot : h.tot_len = (h.bytes ++ (s.bytes ++ (pathBytes path ++ body))).length)
    (hs : s.hops = path.length) (hsize : (h.bytes ++ (s.bytes ++ (pathBytes path ++ body))).length ≤ BUFFER_SIZE) :
    h.tot_len < 65536 ∧ s.hops < 65536 ∧
      MpOlsrPacket.new .ilp32 (h.bytes ++ (s.bytes ++ (pathBytes path ++ body))) = some (some (h.bytes.length : ℤ)) := by
  have hlen : (h.bytes ++ (s.bytes ++ (pathBytes path ++ body))).length =
      h.bytes.length + (sizeof_ser_header .ilp32 + (path.length * 4 + body.length)) := by
    simp only [List.length_append, SerHeader.length_bytes, length_pathBytes]
  unfold BUFFER_SIZE at hsize
  exact ⟨by omega, by omega, new_eq .ilp32 hw (by omega) (by omega)⟩

/-- A station on the way forwards the packet to the next one. -/
theorem receive_forward (he : EnRoute s path body daddr opts packet) (hsize : packet.length ≤ BUFFER_SIZE)
    (hs : s.hops = path.length) (hc : s.cur = i + 1) (hi : i + 1 < path.length) (hcur : path[i] = v.main)
    (h0 : v.main ≠ 0) (hnext : path[i + 1] ≠ 0) {l : LocalLink .ilp32}
    (hlink : v.node.findLink path[i + 1] = some l) (ha : l.dst_alias_ip ≠ 0) :
    ∃ r, v.receive packet = some r ∧ r.ret = 0 ∧ r.packet.length = packet.length ∧
      EnRoute { s with cur := i + 2 } path body l.dst_alias_ip opts r.packet := by
  obtain ⟨h, hw, hp, rfl, rfl, htot, rfl⟩ := he
  let iph := h.bytes ++ (s.bytes ++ (pathBytes path ++ body))
  obtain ⟨hlt, hh, hnew⟩ := arrival hw htot hs hsize
  have hcuraddr := getCurrentAddr_eq (h := h) (b := body) hs hh hc (by omega)
  have hend := isEndOfPath_eq (h := h) (p := path) (b := body) hh hc (by omega)
  have hnextaddr := getNextAddr_eq (h := h) (b := body) hs hh hc hi
  have hcheck : pth_checkNextHop v.node path[i + 1] = (0, l.dst_alias_ip) := by
    rw [pth_checkNextHop, hlink]
    exact if_neg ha
  let h1 : IpHdr := { h with daddr := l.dst_alias_ip }
  let h2 : IpHdr := { h1 with saddr := h.daddr }
  have hmove := moveToNextHop_eq (h := h2) (p := path) (b := body) hh hc (by omega)
  have hw2 : h2.WF := hw
  let s' : SerHeader .ilp32 := { s with cur := i + 2 }
  obtain ⟨c, hcheck'⟩ := updateIpChecksum_spec hw2 (s'.bytes ++ (pathBytes path ++ body))
  let h3 : IpHdr := { h2 with check := c }
  let iph' := h3.bytes ++ (s'.bytes ++ (pathBytes path ++ body))
  have hlen' : iph'.length = iph.length := by
    simp only [iph', iph, List.length_append, SerHeader.length_bytes]
    rfl
  have htotal : getIpTotalSize iph' = some (iph.length : ℤ) := by
    rw [← htot]
    exact IpHdr.getIpTotalSize_eq (h := h3) hlt _
  obtain ⟨b, rest, hbuf, hb⟩ : ∃ b rest, v.newpayload = b ++ rest ∧ b.length = iph'.length := by
    refine ⟨v.newpayload.take iph'.length, v.newpayload.drop iph'.length, (List.take_append_drop _ _).symm, ?_⟩
    rw [List.length_take, v.length_newpayload, hlen']
    exact Nat.min_eq_left hsize
  have hcopy : memcpy v.newpayload 0 iph' 0 iph.length = some (iph' ++ rest) :=
    memcpy_eq (a := []) (e := []) (f := []) hbuf rfl (by simp) rfl (by rw [hlen']) hb.symm
  have hpacket : (iph' ++ rest).take iph.length = iph' := by rw [← hlen', List.take_left]
  refine ⟨⟨0, iph', iph' ++ rest, iph.length⟩, ?_, rfl, ?_, ?_⟩
  · rw [Station.receive, hk_process_datagram_pre_routing, hnew, Option.bind_eq_bind, Option.bind_some]
    refine Option.bind_eq_some_iff.2 ⟨_, hcuraddr, ?_⟩
    have hmain : pth_checkCurrentAddr v.node path[i] = 0 := if_neg (by rw [hcur]; exact not_not.2 rfl)
    rw [if_neg (by rw [hcur]; exact h0), if_neg (not_not.2 hmain)]
    refine Option.bind_eq_some_iff.2 ⟨_, hend, ?_⟩
    rw [decide_eq_false (by omega), if_neg Bool.false_ne_true]
    refine Option.bind_eq_some_iff.2 ⟨_, h.load_daddr _, Option.bind_eq_some_iff.2 ⟨_, hnextaddr, ?_⟩⟩
    rw [if_neg hnext, hcheck]
    simp only [lt_irrefl, if_false]
    refine Option.bind_eq_some_iff.2 ⟨_, h.store_daddr _ l.dst_alias_ip,
      Option.bind_eq_some_iff.2 ⟨_, h1.store_saddr _ h.daddr, Option.bind_eq_some_iff.2 ⟨_, hmove, ?_⟩⟩⟩
    simp only [reduceCtorEq, if_false]
    exact Option.bind_eq_some_iff.2 ⟨_, hcheck', Option.bind_eq_some_iff.2 ⟨_, htotal,
      Option.bind_eq_some_iff.2 ⟨_, hcopy, rfl⟩⟩⟩
  · rw [HookResult.packet, Int.toNat_natCast, hpacket]
    exact hlen'
  · rw [HookResult.packet, Int.toNat_natCast, hpacket]
    exact ⟨h3, hw, hp, rfl, rfl, htot.trans hlen'.symm, rfl⟩

/-- The last station delivers the datagram. -/
theorem receive_deliver {u : UdpHdr} {data : List Byte}
    (he : EnRoute s path (u.bytes ++ data) daddr opts packet) (hsize : packet.length ≤ BUFFER_SIZE)
    (hs : s.hops = path.length) (hc : s.cur = i + 1) (hi : i + 1 = path.length) (hcur : path[i] = v.main)
    (h0 : v.main ≠ 0) (hulen : u.len = 8 + data.length) :
    ∃ r, v.receive packet = some r ∧ r.ret = 0 ∧ Decapsulated s.protocol s.first_node opts u data r.packet := by
  obtain ⟨h, hw, hp, rfl, rfl, htot, rfl⟩ := he
  obtain ⟨hlt, hh, hnew⟩ := arrival hw htot hs hsize
  have hcuraddr := getCurrentAddr_eq (h := h) (b := u.bytes ++ data) hs hh hc (by omega)
  have hend := isEndOfPath_eq (h := h) (p := path) (b := u.bytes ++ data) hh hc (by omega)
  have htot' : h.tot_len = h.bytes.length + (sizeof_ser_header .ilp32 + ((pathBytes path).length + (8 + data.length))) := by
    rw [htot]
    simp only [List.length_append, SerHeader.length_bytes, UdpHdr.length_bytes]
  obtain ⟨c, c', rest, hrem, hrest⟩ := removeMpOlsrHeader_spec hw (s := s) (u := u) (n := v.newpayload)
    (t := []) (by rw [length_pathBytes, hs]) hulen htot' hlt (by rw [v.length_newpayload]; omega)
  rw [v.length_newpayload, List.append_nil] at hrem
  have htotal := IpHdr.getIpTotalSize_eq hlt (s.bytes ++ (pathBytes path ++ (u.bytes ++ data)))
  have hserSize := SerHeader.getMpOlsrHeaderSize_eq h.bytes (pathBytes path ++ (u.bytes ++ data)) hh
  let h' : IpHdr := { h with tot_len := h.bytes.length + (8 + data.length), protocol := s.protocol,
                             saddr := s.first_node.setWidth 32, check := c }
  let datagram := h'.bytes ++ ({ u with check := c' }.bytes ++ data)
  have hd : datagram.length = h.bytes.length + (8 + data.length) := by
    simp only [datagram, List.length_append, UdpHdr.length_bytes]
    rfl
  have hlen : (h.tot_len : ℤ) - ((s.hops * 4 + sizeof_ser_header .ilp32 : ℕ) : ℤ) = datagram.length := by
    rw [hd, htot', length_pathBytes, hs]
    push_cast
    omega
  have hpacket : (datagram ++ rest).take datagram.length = datagram := List.take_left
  refine ⟨⟨0, h.bytes ++ (s.bytes ++ (pathBytes path ++ (u.bytes ++ data))), datagram ++ rest, datagram.length⟩,
    ?_, rfl, ?_⟩
  · rw [Station.receive, hk_process_datagram_pre_routing, hnew, Option.bind_eq_bind, Option.bind_some]
    refine Option.bind_eq_some_iff.2 ⟨_, hcuraddr, ?_⟩
    have hmain : pth_checkCurrentAddr v.node path[i] = 0 := if_neg (by rw [hcur]; exact not_not.2 rfl)
    rw [if_neg (by rw [hcur]; exact h0), if_neg (not_not.2 hmain)]
    refine Option.bind_eq_some_iff.2 ⟨_, hend, ?_⟩
    rw [decide_eq_true (by omega), if_pos rfl]
    refine Option.bind_eq_some_iff.2 ⟨_, hrem, ?_⟩
    simp only [reduceCtorEq, if_false]
    refine Option.bind_eq_some_iff.2 ⟨_, htotal, Option.bind_eq_some_iff.2 ⟨_, hserSize, ?_⟩⟩
    rw [hlen]
    simp [datagram, h']
  · rw [HookResult.packet, Int.toNat_natCast, hpacket]
    exact ⟨h', c', hw, rfl, BitVec.setWidth_eq _, rfl, hd.symm, rfl⟩

/-- A station whose own address is 0 drops the packet. -/
theorem receive_zero (he : EnRoute s path body daddr opts packet) (hsize : packet.length ≤ BUFFER_SIZE)
    (hs : s.hops = path.length) (hc : s.cur = i + 1) (hi : i < path.length) (hcur : path[i] = 0) :
    ∃ r, v.receive packet = some r ∧ r.ret = -1 := by
  obtain ⟨h, hw, hp, rfl, rfl, htot, rfl⟩ := he
  obtain ⟨hlt, hh, hnew⟩ := arrival hw htot hs hsize
  have hcuraddr := getCurrentAddr_eq (h := h) (b := body) hs hh hc hi
  refine ⟨⟨-1, h.bytes ++ (s.bytes ++ (pathBytes path ++ body)), v.newpayload, BUFFER_SIZE⟩, ?_, rfl⟩
  rw [Station.receive, hk_process_datagram_pre_routing, hnew, Option.bind_eq_bind, Option.bind_some]
  refine Option.bind_eq_some_iff.2 ⟨_, hcuraddr, ?_⟩
  rw [if_pos hcur]
  rfl

/-- A station whose first link to the next one has no address drops the packet. -/
theorem receive_unusable (he : EnRoute s path body daddr opts packet) (hsize : packet.length ≤ BUFFER_SIZE)
    (hs : s.hops = path.length) (hc : s.cur = i + 1) (hi : i + 1 < path.length) (hcur : path[i] = v.main)
    (h0 : v.main ≠ 0) (hnext : path[i + 1] ≠ 0) {l : LocalLink .ilp32}
    (hlink : v.node.findLink path[i + 1] = some l) (ha : l.dst_alias_ip = 0) :
    ∃ r, v.receive packet = some r ∧ r.ret = -1 := by
  obtain ⟨h, hw, hp, rfl, rfl, htot, rfl⟩ := he
  obtain ⟨hlt, hh, hnew⟩ := arrival hw htot hs hsize
  have hcuraddr := getCurrentAddr_eq (h := h) (b := body) hs hh hc (by omega)
  have hend := isEndOfPath_eq (h := h) (p := path) (b := body) hh hc (by omega)
  have hnextaddr := getNextAddr_eq (h := h) (b := body) hs hh hc hi
  have hcheck : pth_checkNextHop v.node path[i + 1] = (-1, path[i + 1]) := by
    rw [pth_checkNextHop, hlink]
    exact if_pos ha
  refine ⟨⟨-1, h.bytes ++ (s.bytes ++ (pathBytes path ++ body)), v.newpayload, BUFFER_SIZE⟩, ?_, rfl⟩
  rw [Station.receive, hk_process_datagram_pre_routing, hnew, Option.bind_eq_bind, Option.bind_some]
  refine Option.bind_eq_some_iff.2 ⟨_, hcuraddr, ?_⟩
  have hmain : pth_checkCurrentAddr v.node path[i] = 0 := if_neg (by rw [hcur]; exact not_not.2 rfl)
  rw [if_neg (by rw [hcur]; exact h0), if_neg (not_not.2 hmain)]
  refine Option.bind_eq_some_iff.2 ⟨_, hend, ?_⟩
  rw [decide_eq_false (by omega), if_neg Bool.false_ne_true]
  refine Option.bind_eq_some_iff.2 ⟨_, h.load_daddr _, Option.bind_eq_some_iff.2 ⟨_, hnextaddr, ?_⟩⟩
  rw [if_neg hnext, hcheck]
  rfl

end Hooks

/-! ### A run along the path -/

/-- The stations that process a datagram sent along a path: the main addresses are the path found by the lookup, and
every station but the last has a link to the next one. -/
structure SourceRoute (v₀ : Station) (vs : List Station) (h : IpHdr) (u : UdpHdr) (data : List Byte) : Prop where
  nonempty : vs ≠ []
  wf : h.WF
  protocol : h.protocol = IPPROTO_UDP
  tot_len : h.tot_len = h.bytes.length + (8 + data.length)
  udp_len : u.len = 8 + data.length
  lookup : v₀.node.Yields h.saddr h.daddr (vs.map Station.main)
  links : ∀ i, ∀ hi : i + 1 < vs.length, ∃ link ∈ (vs[i].node).g_local_links,
    link.dst_addr_ip = vs[i + 1].main ∧ link.dst_alias_ip ≠ 0
  path_fits : sizeof_ser_header .ilp32 + vs.length * 4 ≤ MAX_MPOLSR_PATH
  packet_fits : h.tot_len + (sizeof_ser_header .ilp32 + vs.length * 4) ≤ BUFFER_SIZE

/-- The datagram is encapsulated, forwarded by every station but the last, and delivered by the last. -/
def RoutesDatagram (v₀ : Station) (vs : List Station) (h : IpHdr) (u : UdpHdr) (data : List Byte) : Prop :=
  ∃ r₀ rs, v₀.send (h.bytes ++ (u.bytes ++ data)) = some r₀ ∧ r₀.ret = 1 ∧ relay vs r₀.packet = some rs ∧
    rs.length = vs.length ∧
    (∀ i, ∀ hi : i + 1 < vs.length, ∃ r link, rs[i]? = some r ∧ r.ret = 0 ∧
      (vs[i].node).findLink vs[i + 1].main = some link ∧
      EnRoute { version := MPOLSR_VERSION, protocol := h.protocol, empty := 0, hops := vs.length, cur := i + 2,
                first_node := h.saddr } (vs.map Station.main) (u.bytes ++ data) link.dst_alias_ip h.options r.packet) ∧
    ∃ r, rs.getLast? = some r ∧ r.ret = 0 ∧ Decapsulated h.protocol h.saddr h.options u data r.packet

/-- Every station but the last finds a usable link to the next one. -/
def Linked (vs : List Station) : Prop :=
  ∀ i, ∀ hi : i + 1 < vs.length, ∃ link, (vs[i].node).findLink vs[i + 1].main = some link ∧ link.dst_alias_ip ≠ 0

/-- The run from a station on: `done` are the addresses of the stations before it. -/
theorem relay_spec {u : UdpHdr} {data opts : List Byte} (hulen : u.len = 8 + data.length) {vs : List Station} :
    ∀ {d : List (ip_v4_addr .ilp32)} {s : SerHeader .ilp32} {daddr : BitVec 32} {packet : List Byte},
    EnRoute s (d ++ vs.map Station.main) (u.bytes ++ data) daddr opts packet → packet.length ≤ BUFFER_SIZE →
    s.hops = d.length + vs.length → s.cur = d.length + 1 → vs ≠ [] → (∀ v ∈ vs, v.main ≠ 0) → Linked vs →
    ∃ rs, relay vs packet = some rs ∧ rs.length = vs.length ∧
      (∀ i, ∀ hi : i + 1 < vs.length, ∃ r link, rs[i]? = some r ∧ r.ret = 0 ∧
        (vs[i].node).findLink vs[i + 1].main = some link ∧
        EnRoute { s with cur := d.length + (i + 2) } (d ++ vs.map Station.main) (u.bytes ++ data)
          link.dst_alias_ip opts r.packet) ∧
      ∃ r, rs.getLast? = some r ∧ r.ret = 0 ∧ Decapsulated s.protocol s.first_node opts u data r.packet := by
  induction vs with
  | nil => intro _ _ _ _ _ _ _ _ hne; exact absurd rfl hne
  | cons v vs ih =>
    intro d s daddr packet he hsize hs hc _ hmain hlinks
    have hlen : (d ++ (v :: vs).map Station.main).length = d.length + (vs.length + 1) := by simp
    have hs' : s.hops = (d ++ (v :: vs).map Station.main).length := by rw [hlen, hs, List.length_cons]
    have hb : d.length < (d ++ (v :: vs).map Station.main).length := by rw [hlen]; omega
    have hcur : (d ++ (v :: vs).map Station.main)[d.length] = v.main := by simp
    have h0 : v.main ≠ 0 := hmain v List.mem_cons_self
    cases vs with
    | nil =>
      -- the last station
      obtain ⟨r, hr, hret, hdel⟩ := receive_deliver he hsize hs' hc (by rw [hlen]; rfl) hcur h0 hulen
      refine ⟨[r], ?_, rfl, fun i hi => absurd hi (by simp), r, rfl, hret, hdel⟩
      rw [relay, hr, Option.bind_eq_bind, Option.bind_some, if_neg (by omega)]
      rfl
    | cons w vs =>
      obtain ⟨link, hlink, ha⟩ := hlinks 0 (by simp)
      have hb' : d.length + 1 < (d ++ (v :: w :: vs).map Station.main).length := by rw [hlen]; simp
      have hnext : (d ++ (v :: w :: vs).map Station.main)[d.length + 1] = w.main := by simp
      have hw0 : w.main ≠ 0 := hmain w (by simp)
      obtain ⟨r, hr, hret, hrlen, hfwd⟩ := receive_forward he hsize hs' hc (by rw [hlen]; simp) hcur h0
        (by rw [hnext]; exact hw0) (l := link) (by rw [hnext]; exact hlink) ha
      have hpath : d ++ (v :: w :: vs).map Station.main = (d ++ [v.main]) ++ (w :: vs).map Station.main := by simp
      have hfwd' := hfwd
      rw [hpath] at hfwd'
      obtain ⟨rs, hrs, hlrs, hmid, rl, hlast, hlret, hdel⟩ := ih hfwd' (by omega)
        (by rw [List.length_append, List.length_singleton]; show s.hops = _; rw [hs, List.length_cons]; omega)
        (by rw [List.length_append, List.length_singleton]) (by simp) (fun x hx => hmain x (List.mem_cons_of_mem _ hx))
        (fun i hi => hlinks (i + 1) (by simpa using hi))
      refine ⟨r :: rs, ?_, by rw [List.length_cons, hlrs]; rfl, ?_, rl, ?_, hlret, hdel⟩
      · rw [relay, hr, Option.bind_eq_bind, Option.bind_some, if_neg (by omega), hrs]
        rfl
      · intro i hi
        cases i with
        | zero => exact ⟨r, link, rfl, hret, hlink, hfwd⟩
        | succ i =>
          obtain ⟨r', link', hr', hret', hlink', he'⟩ := hmid i (by simpa using hi)
          refine ⟨r', link', hr', hret', hlink', ?_⟩
          rw [hpath]
          rw [List.length_append, List.length_singleton] at he'
          rw [show d.length + (i + 1 + 2) = d.length + 1 + (i + 2) by omega]
          exact he'
      · rw [List.getLast?_cons, hlast]
        rfl

/-- The first packet of a source route, the same for every run. -/
theorem SourceRoute.send {v₀ : Station} {vs : List Station} {h : IpHdr} {u : UdpHdr} {data : List Byte}
    (hr : SourceRoute v₀ vs h u data) :
    ∃ r daddr, v₀.send (h.bytes ++ (u.bytes ++ data)) = some r ∧ r.ret = 1 ∧ r.packet.length ≤ BUFFER_SIZE ∧
      EnRoute { version := MPOLSR_VERSION, protocol := h.protocol, empty := 0, hops := vs.length, cur := 1,
                first_node := h.saddr } (vs.map Station.main) (u.bytes ++ data) daddr h.options r.packet := by
  have hlen : (vs.map Station.main).length = vs.length := List.length_map _
  have hne : vs.map Station.main ≠ [] := fun h => hr.nonempty (List.map_eq_nil_iff.1 h)
  obtain ⟨r, daddr, hsend, hret, he⟩ := send_spec hr.wf (b := u.bytes ++ data)
    (by rw [List.length_append, UdpHdr.length_bytes]; exact hr.tot_len) hr.lookup hne
    (by rw [hlen]; exact hr.path_fits) (by rw [hlen]; exact hr.packet_fits)
  rw [hlen] at he
  refine ⟨r, daddr, hsend, hret, ?_, he⟩
  obtain ⟨h', -, -, -, hopts, -, hpacket⟩ := he
  have h1 := hr.tot_len
  have h2 := hr.packet_fits
  rw [IpHdr.length_bytes] at h1
  rw [hpacket]
  simp only [List.length_append, IpHdr.length_bytes, SerHeader.length_bytes, UdpHdr.length_bytes, length_pathBytes,
    hlen, hopts]
  omega

/-- A datagram sent along a path of stations with non-zero addresses, which find usable links, is delivered. -/
theorem source_routing {v₀ : Station} {vs : List Station} {h : IpHdr} {u : UdpHdr} {data : List Byte}
    (hr : SourceRoute v₀ vs h u data) (hmain : ∀ v ∈ vs, v.main ≠ 0)
    (hfirst : ∀ i, ∀ hi : i + 1 < vs.length, ∀ link, (vs[i].node).findLink vs[i + 1].main = some link →
      link.dst_alias_ip ≠ 0) : RoutesDatagram v₀ vs h u data := by
  obtain ⟨r₀, daddr, hsend, hret, hsize, he⟩ := hr.send
  have hlinks : Linked vs := by
    intro i hi
    obtain ⟨link, hmem, hdst, -⟩ := hr.links i hi
    cases hfind : (vs[i].node).findLink vs[i + 1].main with
    | none => exact absurd hdst (by simpa using List.find?_eq_none.1 hfind link hmem)
    | some link => exact ⟨link, rfl, hfirst i hi link hfind⟩
  obtain ⟨rs, hrs, hlen, hmid, hlast⟩ := relay_spec (d := []) hr.udp_len he hsize (Nat.zero_add _).symm rfl
    hr.nonempty hmain hlinks
  refine ⟨r₀, rs, hsend, hret, hrs, hlen, ?_, hlast⟩
  intro i hi
  obtain ⟨r, link, hget, hr0, hlink, he'⟩ := hmid i hi
  refine ⟨r, link, hget, hr0, hlink, ?_⟩
  rw [List.nil_append, List.length_nil, Nat.zero_add] at he'
  exact he'

/-- A datagram is not delivered when the first station of the path drops it. -/
theorem not_routesDatagram {v₀ v : Station} {vs : List Station} {h : IpHdr} {u : UdpHdr} {data : List Byte}
    {r₀ r : HookResult} (hsend : v₀.send (h.bytes ++ (u.bytes ++ data)) = some r₀)
    (hr : v.receive r₀.packet = some r) (hret : r.ret = -1) : ¬ RoutesDatagram v₀ (v :: vs) h u data := by
  intro hroutes
  obtain ⟨r₀', rs, hsend', _, hrs, _, _, rl, hlast, hlret, _⟩ := hroutes
  have h0 : r₀' = r₀ := Option.some.inj (hsend'.symm.trans hsend)
  subst h0
  have hrelay : relay (v :: vs) r₀'.packet = some [r] := by
    rw [relay, hr, Option.bind_eq_bind, Option.bind_some, if_pos (by omega)]
    rfl
  have hrs' : rs = [r] := Option.some.inj (hrs.symm.trans hrelay)
  subst hrs'
  have hrl : r = rl := by simpa using hlast
  subst hrl
  omega

/-! ### Small networks -/

/-- A station with cleared buffers. -/
def Station.fresh (node : Node .ilp32) : Station :=
  { node := node, path := List.replicate MAX_MPOLSR_PATH 0, newpayload := List.replicate BUFFER_SIZE 0,
    length_path := List.length_replicate, length_newpayload := List.length_replicate }

/-- The source: it has a link to the first hop of the only path it knows. -/
def demoSource (a : ip_v4_addr .ilp32) (path : List (ip_v4_addr .ilp32)) : Station :=
  .fresh ⟨10, [⟨a, 11⟩], fun _ _ => some (⟨path.length + 1, pathBytes (a :: path)⟩, true)⟩

/-- A station with the given main address and links. -/
def demoStation (addr : ip_v4_addr .ilp32) (links : List (LocalLink .ilp32)) : Station :=
  .fresh ⟨addr, links, fun _ _ => none⟩

def demoHdr : IpHdr :=
  { version_ihl := 0x45, tos := 0, tot_len := 29, id := 1, frag_off := 0, ttl := 64, protocol := IPPROTO_UDP,
    check := 0, saddr := 10, daddr := 2, options := [] }

def demoUdp : UdpHdr := { source := 5000, dest := 464, len := 9, check := 0 }

theorem demo_yields (a : ip_v4_addr .ilp32) (path : List (ip_v4_addr .ilp32)) :
    (demoSource a path).node.Yields demoHdr.saddr demoHdr.daddr (a :: path) := by
  refine ⟨true, rfl, fun _ => ⟨a, ⟨a, 11⟩, rfl, ?_, ?_⟩⟩
  on_goal 2 => show (11 : ip_v4_addr .ilp32) ≠ 0; decide
  show ([⟨a, 11⟩] : List (LocalLink .ilp32)).find? (fun link => link.dst_addr_ip = a) = _
  rw [List.find?_cons_of_pos (by simp)]

/-- A route of one hop. -/
theorem demo_route_one (addr : ip_v4_addr .ilp32) (links : List (LocalLink .ilp32)) :
    SourceRoute (demoSource addr []) [demoStation addr links] demoHdr demoUdp [65] where
  nonempty := by simp
  wf := rfl
  protocol := rfl
  tot_len := rfl
  udp_len := rfl
  lookup := demo_yields addr []
  links := fun i hi => absurd hi (by simp)
  path_fits := show 12 + 1 * 4 ≤ 2048 by decide
  packet_fits := show 29 + (12 + 1 * 4) ≤ 4096 by decide

/-- A route of two hops. -/
theorem demo_route_two (links : List (LocalLink .ilp32)) (hl : ∃ link ∈ links, link.dst_addr_ip = 2 ∧
    link.dst_alias_ip ≠ 0) :
    SourceRoute (demoSource 1 [2]) [demoStation 1 links, demoStation 2 []] demoHdr demoUdp [65] where
  nonempty := by simp
  wf := rfl
  protocol := rfl
  tot_len := rfl
  udp_len := rfl
  lookup := demo_yields 1 [2]
  links := by
    intro i hi
    have h0 : i = 0 := by have : i + 1 < 2 := hi; omega
    subst h0
    exact hl
  path_fits := show 12 + 2 * 4 ≤ 2048 by decide
  packet_fits := show 29 + (12 + 2 * 4) ≤ 4096 by decide

theorem source_routing_demo :
    RoutesDatagram (demoSource 1 [2]) [demoStation 1 [⟨2, 7⟩], demoStation 2 []] demoHdr demoUdp [65] := by
  refine source_routing (demo_route_two _ ⟨⟨2, 7⟩, by simp, rfl, by decide⟩) ?_ ?_
  · intro v hv
    rcases List.mem_pair.1 hv with rfl | rfl
    · show (1 : ip_v4_addr .ilp32) ≠ 0
      decide
    · show (2 : ip_v4_addr .ilp32) ≠ 0
      decide
  · intro i hi link hlink
    have h0 : i = 0 := by have : i + 1 < 2 := hi; omega
    subst h0
    have hl : some (⟨2, 7⟩ : LocalLink .ilp32) = some link := hlink
    cases hl
    decide

/-- A station with the address 0 drops the datagrams sent to it, and a station whose first link to the next one has no
address drops them even if another link has one. -/
theorem source_routing_fails :
    (SourceRoute (demoSource 0 []) [demoStation 0 []] demoHdr demoUdp [65] ∧
      ¬ RoutesDatagram (demoSource 0 []) [demoStation 0 []] demoHdr demoUdp [65]) ∧
    SourceRoute (demoSource 1 [2]) [demoStation 1 [⟨2, 0⟩, ⟨2, 7⟩], demoStation 2 []] demoHdr demoUdp [65] ∧
      ¬ RoutesDatagram (demoSource 1 [2]) [demoStation 1 [⟨2, 0⟩, ⟨2, 7⟩], demoStation 2 []] demoHdr demoUdp [65] := by
  refine ⟨⟨demo_route_one 0 [], ?_⟩, demo_route_two _ ⟨⟨2, 7⟩, by simp, rfl, by decide⟩, ?_⟩
  · obtain ⟨r, daddr, hsend, -, hsize, he⟩ := (demo_route_one 0 []).send
    obtain ⟨r', hr', hret⟩ := receive_zero (v := demoStation 0 []) (i := 0) he hsize rfl rfl (by simp) rfl
    exact not_routesDatagram hsend hr' hret
  · obtain ⟨r, daddr, hsend, -, hsize, he⟩ :=
      (demo_route_two [⟨2, 0⟩, ⟨2, 7⟩] ⟨⟨2, 7⟩, by simp, rfl, by decide⟩).send
    obtain ⟨r', hr', hret⟩ := receive_unusable (v := demoStation 1 [⟨2, 0⟩, ⟨2, 7⟩]) (i := 0) (l := ⟨2, 0⟩) he hsize
      rfl rfl (by simp) rfl (by show (1 : ip_v4_addr .ilp32) ≠ 0; decide)
      (by show (2 : ip_v4_addr .ilp32) ≠ 0; decide) rfl rfl
    exact not_routesDatagram hsend hr' hret

end MpOlsr
