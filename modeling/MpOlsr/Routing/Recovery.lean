import MpOlsr.Routing.Forward

/-!
# Route recovery

A station without a link to the next hop looks for a path from itself to the last node of the old path.
`hk_route_recovery_pre_routing` inserts the new path in front of the old MP-OLSR header and writes the fields of the
IP header to the packet received, not to the new one: the packet sent has two MP-OLSR headers, is addressed to the
station itself, and names the station as the first node (`receive_recovery`).  So the datagram is never recovered
(`recovery_fails`).
-/

namespace MpOlsr

open Buffer Bytes IpPacket MpOlsrPacket

/-- An MP-OLSR packet at an intermediate station `v` of its path, without a link to the next hop but with another
path to the last node. -/
structure NeedsRecovery (v : Station) (s : SerHeader .ilp32) (before : List (ip_v4_addr .ilp32))
    (next : ip_v4_addr .ilp32) (after : List (ip_v4_addr .ilp32)) (body : List Byte) (daddr : BitVec 32)
    (opts packet : List Byte) (newPath : List (ip_v4_addr .ilp32)) : Prop where
  enRoute : EnRoute s (before ++ v.main :: next :: after) body daddr opts packet
  size : packet.length ≤ BUFFER_SIZE
  empty : s.empty < 65536
  hops : s.hops = before.length + (after.length + 2)
  cur : s.cur = before.length + 1
  main_ne_zero : v.main ≠ 0
  next_ne_zero : next ≠ 0
  last_ne_zero : (next :: after).getLast (List.cons_ne_nil _ _) ≠ 0
  no_link : v.node.findLink next = none
  lookup : v.node.Yields daddr ((next :: after).getLast (List.cons_ne_nil _ _)) newPath
  newPath_ne_nil : newPath ≠ []
  path_fits : sizeof_ser_header .ilp32 + newPath.length * 4 ≤ MAX_MPOLSR_PATH

/-- The packet accepted is addressed to the first hop of the new path and carries the new path only, and the stations
of the new path deliver the datagram, with its source. -/
def Recovers (v : Station) (s : SerHeader .ilp32) (u : UdpHdr) (data opts packet : List Byte)
    (newPath : List (ip_v4_addr .ilp32)) : Prop :=
  ∃ r s' nextHop, v.receive packet = some r ∧ r.ret = 1 ∧
    EnRoute s' newPath (u.bytes ++ data) nextHop opts r.packet ∧
    (newPath.head? = some nextHop ∨
      ∃ a link, newPath.head? = some a ∧ v.node.findLink a = some link ∧ link.dst_alias_ip = nextHop) ∧
    ∀ vs : List Station, vs.map Station.main = newPath → (∀ w ∈ vs, w.main ≠ 0) → Linked vs →
      ∃ rs r', relay vs r.packet = some rs ∧ rs.getLast? = some r' ∧ r'.ret = 0 ∧
        Decapsulated s.protocol s.first_node opts u data r'.packet

/-! ### The header and the last address -/

theorem getLastAddr_eq {h : IpHdr} {s : SerHeader .ilp32} {p : List (ip_v4_addr .ilp32)} {b : List Byte}
    (hs : s.hops = p.length) (hh : s.hops < 65536) (hne : p ≠ []) :
    getLastAddr .ilp32 (h.bytes ++ (s.bytes ++ (pathBytes p ++ b))) h.bytes.length =
      some (p.getLast hne) := by
  have hpos := List.length_pos_iff.2 hne
  rw [getLastAddr, SerHeader.hops_eq h.bytes _ hh, Option.bind_eq_bind, Option.bind_some, List.getLast_eq_getElem]
  have hlast := getHopAddr_eq h.bytes b hs hh (i := p.length - 1) (by omega)
  rw [Nat.sub_add_cancel hpos] at hlast
  rw [hs]
  exact hlast

/-! ### The hook -/

/-- A packet that does not fit is refused. -/
theorem addMpOlsrHeader_refuses {h : IpHdr} {body sData newBuffer : List Byte} {dataSize bufferSize : ℤ}
    (hlt : h.tot_len < 65536) (hsize : bufferSize < h.tot_len + dataSize) :
    addMpOlsrHeader (h.bytes ++ body) sData dataSize newBuffer bufferSize = some (false, newBuffer) := by
  rw [addMpOlsrHeader, IpHdr.getIpTotalSize_eq hlt, Option.bind_eq_bind, Option.bind_some, if_pos hsize]
  rfl

variable {v : Station} {s : SerHeader .ilp32} {before after newPath : List (ip_v4_addr .ilp32)}
  {next : ip_v4_addr .ilp32} {body opts packet : List Byte} {daddr : BitVec 32}

/-- The result of the recovery hook is the result of the station. -/
theorem receive_of_recovery (hr : NeedsRecovery v s before next after body daddr opts packet newPath) {r : HookResult}
    (hrec : hk_route_recovery_pre_routing v.node v.path packet v.newpayload BUFFER_SIZE = some r) :
    v.receive packet = some r := by
  obtain ⟨h, hw, hp, rfl, rfl, htot, rfl⟩ := hr.enRoute
  let path := before ++ v.main :: next :: after
  have hlen : path.length = before.length + (after.length + 2) := by simp [path]
  have hs : s.hops = path.length := hr.hops.trans hlen.symm
  obtain ⟨hlt, hh, hnew⟩ := arrival hw htot hs hr.size
  have hcuraddr := getCurrentAddr_eq (h := h) (b := body) hs hh hr.cur (by omega)
  have hend := isEndOfPath_eq (h := h) (p := path) (b := body) hh hr.cur (by omega)
  have hnextaddr := getNextAddr_eq (h := h) (b := body) hs hh hr.cur (by omega)
  have hcur : path[before.length] = v.main := by simp [path]
  have hnext : path[before.length + 1] = next := by simp [path]
  have hcheck : pth_checkNextHop v.node next = (1, next) := by rw [pth_checkNextHop, hr.no_link]
  have hmain : pth_checkCurrentAddr v.node v.main = 0 := if_neg (not_not.2 rfl)
  rw [hcur] at hcuraddr
  rw [hnext] at hnextaddr
  rw [Station.receive, hk_process_datagram_pre_routing, hnew, Option.bind_eq_bind, Option.bind_some]
  refine Option.bind_eq_some_iff.2 ⟨_, hcuraddr, ?_⟩
  rw [if_neg hr.main_ne_zero, if_neg (not_not.2 hmain)]
  refine Option.bind_eq_some_iff.2 ⟨_, hend, ?_⟩
  rw [decide_eq_false (by omega), if_neg Bool.false_ne_true]
  refine Option.bind_eq_some_iff.2 ⟨_, h.load_daddr _, Option.bind_eq_some_iff.2 ⟨_, hnextaddr, ?_⟩⟩
  rw [if_neg hr.next_ne_zero, hcheck]
  exact hrec

/-- The old packet is the body of the packet sent. -/
theorem receive_recovery (hr : NeedsRecovery v s before next after body daddr opts packet newPath) :
    ∃ r, v.receive packet = some r ∧ (r.ret = -1 ∨ r.ret = 1 ∧
      EnRoute { s with version := MPOLSR_VERSION, hops := newPath.length, cur := 1, first_node := daddr } newPath
        (s.bytes ++ (pathBytes (before ++ v.main :: next :: after) ++ body)) daddr opts r.packet) := by
  suffices hrec : ∃ r, hk_route_recovery_pre_routing v.node v.path packet v.newpayload BUFFER_SIZE = some r ∧
      (r.ret = -1 ∨ r.ret = 1 ∧
      EnRoute { s with version := MPOLSR_VERSION, hops := newPath.length, cur := 1, first_node := daddr } newPath
        (s.bytes ++ (pathBytes (before ++ v.main :: next :: after) ++ body)) daddr opts r.packet) by
    obtain ⟨r, h, hret⟩ := hrec
    exact ⟨r, receive_of_recovery hr h, hret⟩
  obtain ⟨h, hw, hp, rfl, rfl, htot, rfl⟩ := hr.enRoute
  let path := before ++ v.main :: next :: after
  have hlen : path.length = before.length + (after.length + 2) := by simp [path]
  have hs : s.hops = path.length := hr.hops.trans hlen.symm
  obtain ⟨hlt, hh, hnew⟩ := arrival hw htot hs hr.size
  have hlast := getLastAddr_eq (h := h) (p := path) (b := body) hs hh (by simp [path])
  have hlast' : path.getLast (by simp [path]) = (next :: after).getLast (List.cons_ne_nil _ _) := by
    simp [path, List.getLast_cons]
  rw [hlast'] at hlast
  let old := s.bytes ++ (pathBytes path ++ body)
  have hload : loadSerHeader .ilp32 (h.bytes ++ old) h.bytes.length = some s :=
    loadSerHeader_eq h.bytes _ hr.empty hh (by have := hr.cur; omega)
  let header : SerHeader .ilp32 := { s with first_node := h.daddr }
  let s' : SerHeader .ilp32 := { header with version := MPOLSR_VERSION, hops := newPath.length, cur := 1 }
  obtain ⟨nextHop, junk, hlook⟩ := pth_find_datagram_path_spec (d := v.path) (n := MAX_MPOLSR_PATH)
    (m := 0) (g := header) hr.lookup hr.newPath_ne_nil (by rw [v.length_path]; exact hr.path_fits)
  let block := s'.bytes ++ pathBytes newPath
  have hblock : block.length = newPath.length * ip_v4_size + sizeof_ser_header .ilp32 := by
    rw [List.length_append, SerHeader.length_bytes, length_pathBytes]
    exact Nat.add_comm _ _
  have hne0 : ¬ newPath.length * ip_v4_size + sizeof_ser_header .ilp32 = 0 := by
    have : sizeof_ser_header .ilp32 = 12 := rfl
    omega
  have htot' : h.tot_len = h.bytes.length + old.length := by rw [htot, List.length_append]
  -- the hook up to the insertion of the new path
  have hstart : ∀ {r : HookResult} {x : Bool × List Byte},
      addMpOlsrHeader (h.bytes ++ old) (s'.bytes ++ (pathBytes newPath ++ junk)) block.length v.newpayload
        BUFFER_SIZE = some x →
      (if x.1 = false then some ⟨-1, h.bytes ++ old, x.2, BUFFER_SIZE⟩
        else (getIpTotalSize x.2).bind fun newpayloadlen => (store (h.bytes ++ old) 9 IPPROTO_MPOLSR).bind fun iph =>
          (store32 iph 16 nextHop).bind fun iph => (store32 iph 12 h.daddr).bind fun iph =>
          (updateIpChecksum x.2).bind fun newpayload => some ⟨1, iph, newpayload, newpayloadlen⟩) = some r →
      hk_route_recovery_pre_routing v.node v.path (h.bytes ++ old) v.newpayload BUFFER_SIZE = some r := by
    intro r x hadd hrest
    rw [hk_route_recovery_pre_routing, hnew, Option.bind_eq_bind, Option.bind_some]
    refine Option.bind_eq_some_iff.2 ⟨_, h.load_daddr _, Option.bind_eq_some_iff.2 ⟨_, hlast, ?_⟩⟩
    rw [if_neg hr.last_ne_zero]
    refine Option.bind_eq_some_iff.2 ⟨_, hload, Option.bind_eq_some_iff.2 ⟨_, hlook, ?_⟩⟩
    rw [if_neg (lt_irrefl (0 : ℤ)), if_neg hne0, ← hblock]
    exact Option.bind_eq_some_iff.2 ⟨_, hadd, hrest⟩
  by_cases hfit : h.tot_len + block.length ≤ BUFFER_SIZE
  · obtain ⟨c, rest, hadd, hrest⟩ := addMpOlsrHeader_spec hw (k := block) (j := junk)
      (n := v.newpayload) htot' hlt (by rw [v.length_newpayload]; exact hfit)
    rw [v.length_newpayload, List.append_assoc] at hadd
    let h1 : IpHdr := { h with tot_len := h.tot_len + block.length, protocol := IPPROTO_MPOLSR, check := c }
    have hw1 : h1.WF := hw
    have htot1 : h1.tot_len < 65536 := by
      show h.tot_len + block.length < 65536
      unfold BUFFER_SIZE at hfit
      omega
    have htotal := IpHdr.getIpTotalSize_eq htot1 (block ++ (old ++ rest))
    obtain ⟨c', hcheck⟩ := updateIpChecksum_spec hw1 (block ++ (old ++ rest))
    let h2 : IpHdr := { h1 with check := c' }
    let sent := h2.bytes ++ (s'.bytes ++ (pathBytes newPath ++ old))
    have hlen : sent.length = h1.tot_len := by
      show _ = h.tot_len + block.length
      simp only [sent, block, htot', List.length_append]
      show h.bytes.length + _ = _
      omega
    have hsent : h2.bytes ++ (block ++ (old ++ rest)) = sent ++ rest := by simp [sent, block, old]
    have hpacket : (h2.bytes ++ (block ++ (old ++ rest))).take h1.tot_len = sent := by
      rw [hsent, ← hlen, List.take_left]
    have hproto := h.store_protocol old IPPROTO_MPOLSR
    let h3 : IpHdr := { h with protocol := IPPROTO_MPOLSR }
    have hdaddr := h3.store_daddr old nextHop
    let h4 : IpHdr := { h3 with daddr := nextHop }
    have hsaddr := h4.store_saddr old h.daddr
    let h5 : IpHdr := { h4 with saddr := h.daddr }
    refine ⟨⟨1, h5.bytes ++ old, h2.bytes ++ (block ++ (old ++ rest)), h1.tot_len⟩, ?_, Or.inr ⟨rfl, ?_⟩⟩
    · refine hstart hadd ?_
      simp only [reduceCtorEq, if_false]
      exact Option.bind_eq_some_iff.2 ⟨_, htotal, Option.bind_eq_some_iff.2 ⟨_, hproto,
        Option.bind_eq_some_iff.2 ⟨_, hdaddr, Option.bind_eq_some_iff.2 ⟨_, hsaddr,
        Option.bind_eq_some_iff.2 ⟨_, hcheck, rfl⟩⟩⟩⟩⟩
    · rw [HookResult.packet, Int.toNat_natCast, hpacket]
      exact ⟨h2, hw, rfl, rfl, rfl, hlen.symm, rfl⟩
  · refine ⟨⟨-1, h.bytes ++ old, v.newpayload, BUFFER_SIZE⟩, ?_, Or.inl rfl⟩
    exact hstart (addMpOlsrHeader_refuses hlt (by omega)) rfl

/-- The packet accepted is longer than the packet with the new path only. -/
theorem not_recovers {u : UdpHdr} {data : List Byte} {r : HookResult} (hr : v.receive packet = some r)
    (hlong : r.ret = -1 ∨ r.ret = 1 ∧ ∃ s' old, EnRoute s' newPath old daddr opts r.packet ∧
      8 + data.length < old.length) : ¬ Recovers v s u data opts packet newPath := by
  intro hrec
  obtain ⟨r', s', nextHop, hr', hret, ⟨h', _, _, _, hopts', _, hpacket'⟩, _⟩ := hrec
  have hrr : r' = r := Option.some.inj (hr'.symm.trans hr)
  subst hrr
  rcases hlong with hneg | ⟨_, s'', old, ⟨h, _, _, _, hopts, _, hpacket⟩, hold⟩
  · omega
  · have hlen := congrArg List.length (hpacket.symm.trans hpacket')
    simp only [List.length_append, IpHdr.length_bytes, SerHeader.length_bytes, UdpHdr.length_bytes, hopts,
      hopts'] at hlen
    omega

/-- The packet sent contains the old header and the old path. -/
theorem NeedsRecovery.sent {u : UdpHdr} {data : List Byte}
    (hr : NeedsRecovery v s before next after (u.bytes ++ data) daddr opts packet newPath) :
    ∃ r, v.receive packet = some r ∧ (r.ret = -1 ∨ r.ret = 1 ∧ ∃ s' old, EnRoute s' newPath old daddr opts r.packet ∧
      8 + data.length < old.length) := by
  obtain ⟨r, hrec, hret⟩ := receive_recovery hr
  refine ⟨r, hrec, ?_⟩
  rcases hret with hneg | ⟨hret, he⟩
  · exact Or.inl hneg
  · refine Or.inr ⟨hret, _, _, he, ?_⟩
    simp only [List.length_append, SerHeader.length_bytes, UdpHdr.length_bytes]
    have : sizeof_ser_header .ilp32 = 12 := rfl
    omega

/-- No datagram is recovered. -/
theorem recovery_fails {u : UdpHdr} {data : List Byte}
    (hr : NeedsRecovery v s before next after (u.bytes ++ data) daddr opts packet newPath) :
    ¬ Recovers v s u data opts packet newPath := by
  obtain ⟨r, hrec, hlong⟩ := hr.sent
  exact not_recovers hrec hlong

/-! ### A small network -/

/-- The first hop of the path `1, 2, 3`: the link to 2 is lost, and 3 is reached through 4. -/
def demoStranded : Station := .fresh ⟨1, [⟨4, 40⟩], fun _ _ => some (⟨2, @pathBytes .ilp32 [4, 3]⟩, true)⟩

def demoSerHeader : SerHeader .ilp32 :=
  { version := MPOLSR_VERSION, protocol := IPPROTO_UDP, empty := 0, hops := 3, cur := 1, first_node := 10 }

def demoOuterHdr : IpHdr := { demoHdr with tot_len := 53, protocol := IPPROTO_MPOLSR, daddr := 1 }

/-- The packet for the path `1, 2, 3` with the datagram of one byte. -/
def demoPacket : List Byte :=
  demoOuterHdr.bytes ++ (demoSerHeader.bytes ++ (@pathBytes .ilp32 [1, 2, 3] ++ (demoUdp.bytes ++ [65])))

theorem demo_needsRecovery :
    NeedsRecovery demoStranded demoSerHeader [] 2 [3] (demoUdp.bytes ++ [65]) 1 [] demoPacket [4, 3] where
  enRoute := ⟨demoOuterHdr, rfl, rfl, rfl, rfl, rfl, rfl⟩
  size := by show 53 ≤ 4096; decide
  empty := by decide
  hops := rfl
  cur := rfl
  main_ne_zero := by show (1 : BitVec 32) ≠ 0; decide
  next_ne_zero := by show (2 : BitVec 32) ≠ 0; decide
  last_ne_zero := by show (3 : BitVec 32) ≠ 0; decide
  no_link := rfl
  lookup := ⟨true, rfl, fun _ => ⟨4, ⟨4, 40⟩, rfl, rfl, by show (40 : BitVec 32) ≠ 0; decide⟩⟩
  newPath_ne_nil := by simp
  path_fits := by show 12 + 2 * 4 ≤ 2048; decide

theorem recovery_fails_demo : ¬ Recovers demoStranded demoSerHeader demoUdp [65] [] demoPacket [4, 3] :=
  recovery_fails demo_needsRecovery

/-- The packet of a station that needs a recovery is not recovered. -/
theorem recovery_demo_not_recovered :
    NeedsRecovery demoStranded demoSerHeader [] 2 [3] (demoUdp.bytes ++ [65]) 1 [] demoPacket [4, 3] ∧
      ¬ Recovers demoStranded demoSerHeader demoUdp [65] [] demoPacket [4, 3] := by
  obtain ⟨r, hrec, hlong⟩ := demo_needsRecovery.sent
  exact ⟨demo_needsRecovery, not_recovers hrec hlong⟩

end MpOlsr
