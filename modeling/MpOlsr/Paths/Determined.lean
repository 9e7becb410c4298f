import MpOlsr.Paths.Capacity

/-!
# What the answer of a lookup depends on

`pth_copy_path` reads the address of the first hop back from the buffer, behind the header.  For a path without hops
this is what an earlier datagram left there, so the answer depends on it unless all addresses lead to the same alias
(`determined_iff`).
-/

namespace MpOlsr

open Buffer Bytes

variable {ws : WordSize}

namespace Daemon

variable (s : Daemon ws)

/-- The request is from the local node to itself. -/
def isLocal (srcAddr dstAddr : ip_v4_addr ws) : Prop :=
  mainAddrOf s.store srcAddr = some (s.store.g_local_addr_tab 0) ∧
    mainAddrOf s.store dstAddr = some (s.store.g_local_addr_tab 0)

/-- The address on the link to a neighbour, or 0 without a link. -/
def aliasOf (addr : ip_v4_addr ws) : ip_v4_addr ws := ((s.node.findLink addr).map LocalLink.dst_alias_ip).getD 0

/-- Once the path is selected, the answer does not depend on what the buffer holds before: the same return value, next
hop and size, and the same bytes up to the size.  If `failures` is true, the buffers may also be left as they were.  The
local node gets the empty path to itself. -/
def Determined (failures : Bool) (srcAddr dstAddr : ip_v4_addr ws) : Prop :=
  (s.select srcAddr dstAddr).isSome → ∀ (path_data path_data' : List Byte) (nextHop : ip_v4_addr ws)
    (header : SerHeader ws), path_data.length = MAX_MPOLSR_PATH → path_data'.length = MAX_MPOLSR_PATH → ∃ r r',
      s.pth_find_datagram_path path_data MAX_MPOLSR_PATH srcAddr dstAddr nextHop header = some r ∧
      s.pth_find_datagram_path path_data' MAX_MPOLSR_PATH srcAddr dstAddr nextHop header = some r' ∧
      r'.1.ret = r.1.ret ∧ r'.1.nextHop = r.1.nextHop ∧ r'.1.size = r.1.size ∧
      (r'.1.path_data.take r'.1.size = r.1.path_data.take r.1.size ∨
        failures = true ∧ r.1.path_data = path_data ∧ r'.1.path_data = path_data') ∧
      (s.isLocal srcAddr dstAddr → r.1.ret = 0 ∧ r.1.size = sizeof_ser_header ws)

/-- The path in turn fits the buffer.  If it has hops, the request is not from the local node to itself; if it has none,
the source is the local node, and all addresses have the same alias, which is not 0 for a request to itself. -/
def AnswersAlike (failures : Bool) (srcAddr dstAddr : ip_v4_addr ws) : Prop :=
  (s.select srcAddr dstAddr).isSome →
    match s.inTurn srcAddr dstAddr with
    | none => failures = true ∧ ¬ s.isLocal srcAddr dstAddr
    | some (src_local, 0) => src_local = true ∧
        (∀ x y : BitVec 32, s.aliasOf (x.setWidth ws.bits) = s.aliasOf (y.setWidth ws.bits)) ∧
        (s.isLocal srcAddr dstAddr → s.aliasOf 0 ≠ 0)
    | some (_, hops) => FitsBuffer ws hops ∧ ¬ s.isLocal srcAddr dstAddr

end Daemon

/-! ### The copy -/

/-- A path with hops determines the answer, but for the bytes behind it. -/
theorem copy_hops (node : Node ws) {path : OlsrPath} (hsized : path.Sized) (hfit : FitsBuffer ws path.path_hops)
    (hne : path.path_hops ≠ 0) (nextHop : ip_v4_addr ws) (src_local : Bool) (header : SerHeader ws) :
    ∃ (w : ℤ × ip_v4_addr ws) (block : List Byte), block.length = path.path_hops * ip_v4_size + sizeof_ser_header ws ∧
      ∀ path_data : List Byte, path_data.length = MAX_MPOLSR_PATH → ∃ junk,
        pth_copy_path node path path_data nextHop src_local header = some
          { ret := w.1, path_data := block ++ junk,
            size := path.path_hops * ip_v4_size + sizeof_ser_header ws, nextHop := w.2 } := by
  have hpath : path.path.length = path.path_hops * ip_v4_size := hsized
  have hroom : ip_v4_size ≤ path.path.length := by
    rw [hpath]
    exact Nat.le_mul_of_pos_left _ (Nat.pos_of_ne_zero hne)
  let d := path.path.take ip_v4_size
  have hd : d.length = ip_v4_size := List.length_take_of_le hroom
  refine ⟨node.firstHop src_local (BitVec.ofNat ws.bits (ofLe d)) nextHop,
    { header with version := MPOLSR_VERSION, hops := path.path_hops, cur := 1 }.bytes ++ path.path, ?_, ?_⟩
  · rw [List.length_append, SerHeader.length_bytes, hpath, Nat.add_comm]
  · intro path_data hlen
    have hfit : sizeof_ser_header ws + path.path_hops * ip_v4_size ≤ path_data.length := hlen ▸ hfit
    obtain ⟨b, c, junk, rfl, hb, hc⟩ := exists_split hfit
    refine ⟨junk, ?_⟩
    rw [pth_copy_path_eq node hsized nextHop src_local header hb hc hd
      (e := path.path.drop ip_v4_size ++ junk) (by rw [← List.append_assoc, List.take_append_drop]), List.append_assoc]

/-- Without hops, the address of the first hop is read from the buffer as it was. -/
theorem copy_empty (node : Node ws) {path : OlsrPath} (hsized : path.Sized) (hzero : path.path_hops = 0)
    (nextHop : ip_v4_addr ws) (src_local : Bool) (header : SerHeader ws) {b d j : List Byte}
    (hb : b.length = sizeof_ser_header ws) (hd : d.length = ip_v4_size) :
    pth_copy_path node path (b ++ (d ++ j)) nextHop src_local header = some
      { ret := (node.firstHop src_local (BitVec.ofNat ws.bits (ofLe d)) nextHop).1,
        path_data := { header with version := MPOLSR_VERSION, hops := path.path_hops, cur := 1 }.bytes ++ (d ++ j),
        size := path.path_hops * ip_v4_size + sizeof_ser_header ws,
        nextHop := (node.firstHop src_local (BitVec.ofNat ws.bits (ofLe d)) nextHop).2 } := by
  have hnil : path.path = [] := by
    rw [← List.length_eq_zero_iff, show path.path.length = path.path_hops * ip_v4_size from hsized, hzero, Nat.zero_mul]
  have hcopy := pth_copy_path_eq node hsized nextHop src_local header (c := []) (j := d ++ j) hb
    (by rw [hzero, Nat.zero_mul]; rfl) hd (by rw [hnil]; rfl)
  rw [hnil] at hcopy
  exact hcopy

/-! ### The answer -/

/-- Buffers that differ in one byte. -/
theorem exists_different (n : ℕ) (hn : n ≠ 0) : ∃ xs ys : List Byte, xs.length = n ∧ ys.length = n ∧
    ys.take n ≠ xs.take n := by
  refine ⟨List.replicate n 0, List.replicate n 1, List.length_replicate, List.length_replicate, fun h => ?_⟩
  rw [List.take_of_length_le List.length_replicate.le, List.take_of_length_le List.length_replicate.le,
    List.replicate_right_inj hn] at h
  exact absurd h (by decide)

/-- A buffer with an address behind the header. -/
theorem exists_buffer (ws : WordSize) (x : BitVec 32) : ∃ b d junk : List Byte, b.length = sizeof_ser_header ws ∧
    d.length = ip_v4_size ∧ (b ++ (d ++ junk)).length = MAX_MPOLSR_PATH ∧
    BitVec.ofNat ws.bits (ofLe d) = x.setWidth ws.bits := by
  refine ⟨List.replicate (sizeof_ser_header ws) 0, leBytes ip_v4_size x.toNat,
    List.replicate (MAX_MPOLSR_PATH - ip_v4_size - sizeof_ser_header ws) 0, List.length_replicate, length_leBytes _ _,
    ?_, ?_⟩
  · have hmax : sizeof_ser_header ws + ip_v4_size ≤ MAX_MPOLSR_PATH := by cases ws <;> decide
    rw [List.length_append, List.length_append, List.length_replicate, List.length_replicate, length_leBytes]
    omega
  · rw [ofLe_leBytes]
    have hlt : x.toNat % 256 ^ ip_v4_size = x.toNat := Nat.mod_eq_of_lt x.isLt
    rw [hlt, BitVec.ofNat_toNat]

/-- The address behind the header. -/
theorem exists_word (ws : WordSize) {path_data : List Byte} (hlen : path_data.length = MAX_MPOLSR_PATH) :
    ∃ b d junk, path_data = b ++ (d ++ junk) ∧ b.length = sizeof_ser_header ws ∧ d.length = ip_v4_size ∧
      ∃ x : BitVec 32, BitVec.ofNat ws.bits (ofLe d) = x.setWidth ws.bits := by
  have hmax : sizeof_ser_header ws + ip_v4_size ≤ path_data.length := by
    rw [hlen]
    cases ws <;> decide
  obtain ⟨b, d, junk, hsplit, hb, hd⟩ := exists_split hmax
  refine ⟨b, d, junk, hsplit, hb, hd, BitVec.ofNat 32 (ofLe d), ?_⟩
  have hlt : ofLe d < 2 ^ 32 := (ofLe_lt d).trans_eq (by rw [hd]; rfl)
  rw [← BitVec.ofNat_toNat, BitVec.toNat_ofNat, Nat.mod_eq_of_lt hlt]

theorem firstHop_local (s : Daemon ws) (addr nextHop : ip_v4_addr ws) : s.node.firstHop true addr nextHop =
    if s.aliasOf addr = 0 then (-1, nextHop) else (0, s.aliasOf addr) := rfl

/-- The selection, once for both buffers. -/
theorem determined_of_select {s s' : Daemon ws} {x y : ip_v4_addr ws} {sel : Option (Selection ws)}
    (hsel : s.select x y = some (sel, s')) (failures : Bool) : s.Determined failures x y ↔
      ∀ (path_data path_data' : List Byte) (nextHop : ip_v4_addr ws) (header : SerHeader ws),
        path_data.length = MAX_MPOLSR_PATH → path_data'.length = MAX_MPOLSR_PATH → ∃ r r',
          s.copySelection path_data MAX_MPOLSR_PATH nextHop header sel = some r ∧
          s.copySelection path_data' MAX_MPOLSR_PATH nextHop header sel = some r' ∧
          r'.ret = r.ret ∧ r'.nextHop = r.nextHop ∧ r'.size = r.size ∧
          (r'.path_data.take r'.size = r.path_data.take r.size ∨
            failures = true ∧ r.path_data = path_data ∧ r'.path_data = path_data') ∧
          (s.isLocal x y → r.ret = 0 ∧ r.size = sizeof_ser_header ws) := by
  have hnode : s'.node = s.node := by
    rw [Daemon.node, Daemon.node, (select_inTurn hsel).1]
  have hcopy : ∀ path_data nextHop header, s'.copySelection path_data MAX_MPOLSR_PATH nextHop header sel =
      s.copySelection path_data MAX_MPOLSR_PATH nextHop header sel := by
    intro path_data nextHop header
    cases sel with
    | none => rfl
    | some p => rw [Daemon.copySelection, Daemon.copySelection, hnode]
  constructor
  · intro hdet path_data path_data' nextHop header hlen hlen'
    obtain ⟨r, r', hr, hr', hsame⟩ := hdet (by rw [hsel]; rfl) path_data path_data' nextHop header hlen hlen'
    rw [pth_find_datagram_path_of_select hsel, hcopy] at hr hr'
    obtain ⟨t, ht, rfl⟩ := Option.map_eq_some_iff.1 hr
    obtain ⟨t', ht', rfl⟩ := Option.map_eq_some_iff.1 hr'
    exact ⟨t, t', ht, ht', hsame⟩
  · intro hdet _ path_data path_data' nextHop header hlen hlen'
    obtain ⟨r, r', hr, hr', hsame⟩ := hdet path_data path_data' nextHop header hlen hlen'
    refine ⟨(r, s'), (r', s'), ?_, ?_, hsame⟩
    · rw [pth_find_datagram_path_of_select hsel, hcopy, hr]
      rfl
    · rw [pth_find_datagram_path_of_select hsel, hcopy, hr']
      rfl

section Cases

variable {s s' : Daemon ws} {x y : ip_v4_addr ws} {failures : Bool} {p : Selection ws}

/-- A failure leaves the buffer as it was. -/
theorem determined_failed (hsel : s.select x y = some (none, s')) :
    s.Determined failures x y ↔ failures = true ∧ ¬ s.isLocal x y := by
  rw [determined_of_select hsel]
  constructor
  · intro hdet
    obtain ⟨xs, ys, hxs, hys, hne⟩ := exists_different MAX_MPOLSR_PATH (by decide)
    obtain ⟨r, r', hr, hr', -, -, -, hbytes, hloc⟩ := hdet xs ys 0 ⟨0, 0, 0, 0, 0, 0⟩ hxs hys
    cases hr
    cases hr'
    refine ⟨(hbytes.resolve_left hne).1, fun h => ?_⟩
    have hret : (-1 : ℤ) = 0 := (hloc h).1
    omega
  · rintro ⟨hfail, hloc⟩ path_data path_data' nextHop header - -
    exact ⟨_, _, rfl, rfl, rfl, rfl, rfl, Or.inr ⟨hfail, rfl, rfl⟩, fun h => (hloc h).elim⟩

/-- The copy of the selected path, if it returns, has fitted the buffer. -/
theorem fits_of_determined (hsel : s.select x y = some (some p, s')) (hdet : s.Determined failures x y) :
    FitsBuffer ws p.path.path_hops := by
  have hlen : (List.replicate MAX_MPOLSR_PATH (0 : Byte)).length = MAX_MPOLSR_PATH := List.length_replicate
  obtain ⟨r, -, hr, -⟩ := (determined_of_select hsel failures).1 hdet _ _ 0 ⟨0, 0, 0, 0, 0, 0⟩ hlen hlen
  have hfits := length_of_copy hr
  rw [hlen] at hfits
  exact hfits

/-- A path with hops gives the same answer whatever the buffer holds. -/
theorem determined_hops (hs : s.Sized) (hsel : s.select x y = some (some p, s')) (hne : p.path.path_hops ≠ 0) :
    s.Determined failures x y ↔ FitsBuffer ws p.path.path_hops ∧ ¬ s.isLocal x y := by
  have hsized : p.path.toOlsrPath.Sized := ((select_inTurn hsel).2.1 hs).2 p rfl
  constructor
  · intro hdet
    have hfit := fits_of_determined hsel hdet
    refine ⟨hfit, fun hlocal => ?_⟩
    have hlen : (List.replicate MAX_MPOLSR_PATH (0 : Byte)).length = MAX_MPOLSR_PATH := List.length_replicate
    obtain ⟨r, -, hr, -, -, -, -, -, hloc⟩ :=
      (determined_of_select hsel failures).1 hdet _ _ 0 ⟨0, 0, 0, 0, 0, 0⟩ hlen hlen
    obtain ⟨w, block, -, hcopy⟩ := copy_hops s.node hsized hfit hne 0 p.src_local ⟨0, 0, 0, 0, 0, 0⟩
    obtain ⟨junk, hjunk⟩ := hcopy _ hlen
    rw [Daemon.copySelection, hjunk] at hr
    cases hr
    have hsize : p.path.path_hops * 4 + sizeof_ser_header ws = sizeof_ser_header ws := (hloc hlocal).2
    omega
  · rintro ⟨hfit, hloc⟩
    rw [determined_of_select hsel]
    intro path_data path_data' nextHop header hlen hlen'
    obtain ⟨w, block, hblock, hcopy⟩ := copy_hops s.node hsized hfit hne nextHop p.src_local header
    obtain ⟨junk, hjunk⟩ := hcopy path_data hlen
    obtain ⟨junk', hjunk'⟩ := hcopy path_data' hlen'
    refine ⟨_, _, hjunk, hjunk', rfl, rfl, rfl, Or.inl ?_, fun h => (hloc h).elim⟩
    rw [← hblock, List.take_left, List.take_left]

/-- A path without hops gives the same answer if all addresses lead to the same alias. -/
theorem determined_empty (hs : s.Sized) (hsel : s.select x y = some (some p, s')) (hzero : p.path.path_hops = 0) :
    s.Determined failures x y ↔ p.src_local = true ∧
      (∀ a b : BitVec 32, s.aliasOf (a.setWidth ws.bits) = s.aliasOf (b.setWidth ws.bits)) ∧
      (s.isLocal x y → s.aliasOf 0 ≠ 0) := by
  have hsized : p.path.toOlsrPath.Sized := ((select_inTurn hsel).2.1 hs).2 p rfl
  have hcopy := fun nextHop header b d junk hb hd => copy_empty s.node hsized hzero nextHop p.src_local header
    (b := b) (d := d) (j := junk) hb hd
  rw [determined_of_select hsel]
  constructor
  · intro hdet
    -- two addresses behind the header
    have hpair : ∀ a b : BitVec 32,
        s.node.firstHop p.src_local (b.setWidth ws.bits) 0 = s.node.firstHop p.src_local (a.setWidth ws.bits) 0 ∧
          (s.isLocal x y → (s.node.firstHop p.src_local (a.setWidth ws.bits) 0).1 = 0) := by
      intro a b
      obtain ⟨b₁, d₁, j₁, hb₁, hd₁, hlen₁, ha₁⟩ := exists_buffer ws a
      obtain ⟨b₂, d₂, j₂, hb₂, hd₂, hlen₂, ha₂⟩ := exists_buffer ws b
      obtain ⟨r, r', hr, hr', hret, hhop, -, -, hloc⟩ := hdet _ _ 0 ⟨0, 0, 0, 0, 0, 0⟩ hlen₁ hlen₂
      rw [Daemon.copySelection, hcopy 0 _ b₁ d₁ j₁ hb₁ hd₁, ha₁] at hr
      rw [Daemon.copySelection, hcopy 0 _ b₂ d₂ j₂ hb₂ hd₂, ha₂] at hr'
      cases hr
      cases hr'
      exact ⟨Prod.ext hret hhop, fun h => (hloc h).1⟩
    cases hsrc : p.src_local with
    | false =>
      have hnext := congrArg Prod.snd (hpair 0 1).1
      rw [hsrc] at hnext
      have hnext : (1 : BitVec 32).setWidth ws.bits = (0 : BitVec 32).setWidth ws.bits := hnext
      cases ws <;> exact absurd hnext (by decide)
    | true =>
      refine ⟨rfl, fun a b => ?_, fun h hzero => ?_⟩
      · have hsame := (hpair a b).1
        rw [hsrc, firstHop_local, firstHop_local] at hsame
        split at hsame <;> split at hsame <;> simp_all
      · have hret := (hpair 0 0).2 h
        have hword : (0 : BitVec 32).setWidth ws.bits = 0 := BitVec.setWidth_zero _ _
        rw [hsrc, firstHop_local, hword, if_pos hzero] at hret
        have hret : (-1 : ℤ) = 0 := hret
        omega
  · rintro ⟨hsrc, halias, hloc⟩ path_data path_data' nextHop header hlen hlen'
    obtain ⟨b₁, d₁, j₁, rfl, hb₁, hd₁, a₁, ha₁⟩ := exists_word ws hlen
    obtain ⟨b₂, d₂, j₂, rfl, hb₂, hd₂, a₂, ha₂⟩ := exists_word ws hlen'
    have hword : (0 : BitVec 32).setWidth ws.bits = 0 := BitVec.setWidth_zero _ _
    have hhop : ∀ a : BitVec 32, s.node.firstHop p.src_local (a.setWidth ws.bits) nextHop =
        s.node.firstHop true 0 nextHop := by
      intro a
      rw [hsrc, firstHop_local, firstHop_local, halias a 0, hword]
    refine ⟨_, _, hcopy nextHop header b₁ d₁ j₁ hb₁ hd₁, hcopy nextHop header b₂ d₂ j₂ hb₂ hd₂, ?_, ?_, rfl,
      Or.inl ?_, fun h => ⟨?_, ?_⟩⟩
    · rw [ha₁, ha₂, hhop, hhop]
    · rw [ha₁, ha₂, hhop, hhop]
    · have hsize : p.path.path_hops * ip_v4_size + sizeof_ser_header ws = sizeof_ser_header ws := by
        rw [hzero, Nat.zero_mul, Nat.zero_add]
      rw [hsize]
      have hlen : ({ header with version := MPOLSR_VERSION, hops := p.path.path_hops, cur := 1 } :
          SerHeader ws).bytes.length = sizeof_ser_header ws := SerHeader.length_bytes _
      rw [← hlen, List.take_left, List.take_left]
    · rw [ha₁, hhop, firstHop_local, if_neg (hloc h)]
    · rw [hzero, Nat.zero_mul, Nat.zero_add]

end Cases

/-- The answer depends on the topology and the request alone if and only if the path in turn has hops and fits the
buffer, or it has none and all addresses lead to the same alias. -/
theorem determined_iff (s : Daemon ws) (hs : s.Sized) (failures : Bool) (srcAddr dstAddr : ip_v4_addr ws) :
    (ws = .ilp32 → (∃ g, Rep s.store g) → (s.select srcAddr dstAddr).isSome) ∧
      (s.Determined failures srcAddr dstAddr ↔ s.AnswersAlike failures srcAddr dstAddr) := by
  refine ⟨?_, ?_⟩
  · rintro rfl ⟨g, hr⟩
    exact select_total s hr srcAddr dstAddr
  · cases hsel : s.select srcAddr dstAddr with
    | none => simp [Daemon.Determined, Daemon.AnswersAlike, hsel]
    | some r =>
      obtain ⟨sel, s'⟩ := r
      have hturn := (select_inTurn hsel).2.2
      rw [Daemon.AnswersAlike, hsel, ← hturn]
      cases sel with
      | none =>
        rw [determined_failed hsel]
        simp
      | some p =>
        cases hhops : p.path.path_hops with
        | zero =>
          rw [determined_empty hs hsel hhops]
          simp [hhops]
        | succ n =>
          rw [determined_hops hs hsel (by omega)]
          simp [hhops]

/-- The local node 17 with a link to the node 18 of its network. -/
def neighbourEvents : List (OlsrEventMessage .ilp32) :=
  [.DEV_CMD_SET_LOCAL_ADDR 17 240, .DEV_CMD_ADD_NODE 17, .DEV_CMD_ADD_NODE 18, .DEV_CMD_ADD_LINK 17 18 10]

theorem neighbours_wellFormed : ∃ h, handleReads tc_init_data neighbourEvents = some h ∧
    ∃ g, WellFormed h g := by
  obtain ⟨h, hrun, hw⟩ := handleReads_wellFormed WellFormed.init neighbourEvents (by decide)
  exact ⟨h, hrun, _, hw⟩

/-- The request of the node 17 to the node 18. -/
theorem determined_demo : ∃ h, handleReads tc_init_data neighbourEvents = some h ∧
    ((⟨h, Scratch.zero, [], 0, ⟨1, 2, 3⟩⟩ : Daemon .ilp32).select 17 18).isSome ∧
    (⟨h, Scratch.zero, [], 0, ⟨1, 2, 3⟩⟩ : Daemon .ilp32).Determined false 17 18 := by
  have hvals : (handleReads tc_init_data neighbourEvents).map (fun h =>
      ((⟨h, Scratch.zero, [], 0, ⟨1, 2, 3⟩⟩ : Daemon .ilp32).inTurn 17 18, mainAddrOf h 18, h.g_local_addr_tab 0)) =
      some (some (true, 1), some 18, 17) := by decide
  obtain ⟨h, hrun, g, hw⟩ := neighbours_wellFormed
  rw [hrun, Option.map_some, Option.some_inj, Prod.mk.injEq, Prod.mk.injEq] at hvals
  obtain ⟨hturn, hmain, hlocal⟩ := hvals
  obtain ⟨htotal, hiff⟩ := determined_iff (⟨h, Scratch.zero, [], 0, ⟨1, 2, 3⟩⟩ : Daemon .ilp32)
    (fun entry hentry => (List.not_mem_nil hentry).elim) false 17 18
  refine ⟨h, hrun, htotal rfl ⟨g, hw.toRep⟩, hiff.2 fun _ => ?_⟩
  rw [hturn]
  refine ⟨?_, fun hloc => ?_⟩
  · show sizeof_ser_header .ilp32 + 1 * ip_v4_size ≤ MAX_MPOLSR_PATH
    decide
  · have hdst : mainAddrOf h 18 = some (h.g_local_addr_tab 0) := hloc.2
    rw [hmain, hlocal, Option.some_inj] at hdst
    exact absurd hdst (by decide)

/-- The request of the node 17 to itself: the answer depends on what the buffer holds. -/
theorem local_request_not_determined : ∃ h, handleReads tc_init_data neighbourEvents = some h ∧
    (⟨h, Scratch.zero, [], 0, ⟨1, 2, 3⟩⟩ : Daemon .ilp32).Sized ∧
    (⟨h, Scratch.zero, [], 0, ⟨1, 2, 3⟩⟩ : Daemon .ilp32).isLocal 17 17 ∧
    ¬ (⟨h, Scratch.zero, [], 0, ⟨1, 2, 3⟩⟩ : Daemon .ilp32).Determined true 17 17 := by
  have hvals : (handleReads tc_init_data neighbourEvents).map (fun h =>
      ((⟨h, Scratch.zero, [], 0, ⟨1, 2, 3⟩⟩ : Daemon .ilp32).inTurn 17 17, mainAddrOf h 17, h.g_local_addr_tab 0,
        (⟨h, Scratch.zero, [], 0, ⟨1, 2, 3⟩⟩ : Daemon .ilp32).aliasOf 18,
        (⟨h, Scratch.zero, [], 0, ⟨1, 2, 3⟩⟩ : Daemon .ilp32).aliasOf 0)) =
      some (some (true, 0), some 17, 17, 18, 0) := by decide
  obtain ⟨h, hrun, -⟩ := neighbours_wellFormed
  rw [hrun, Option.map_some, Option.some_inj, Prod.mk.injEq, Prod.mk.injEq, Prod.mk.injEq, Prod.mk.injEq] at hvals
  obtain ⟨hturn, hmain, hlocal, halias, hzero⟩ := hvals
  have hsized : (⟨h, Scratch.zero, [], 0, ⟨1, 2, 3⟩⟩ : Daemon .ilp32).Sized :=
    fun entry hentry => (List.not_mem_nil hentry).elim
  refine ⟨h, hrun, hsized, ?_, fun hdet => ?_⟩
  · have hloc : mainAddrOf h 17 = some (h.g_local_addr_tab 0) := by rw [hmain, hlocal]
    exact ⟨hloc, hloc⟩
  · obtain ⟨⟨sel, s'⟩, hsel⟩ := Option.isSome_iff_exists.1 (select_isSome hturn)
    have heq := (select_inTurn hsel).2.2
    rw [hturn] at heq
    obtain ⟨p, rfl, hp⟩ := Option.map_eq_some_iff.1 heq
    have hsame := ((determined_empty hsized hsel (congrArg Prod.snd hp)).1 hdet).2.1 18 0
    have hsame : (⟨h, Scratch.zero, [], 0, ⟨1, 2, 3⟩⟩ : Daemon .ilp32).aliasOf 18 =
      (⟨h, Scratch.zero, [], 0, ⟨1, 2, 3⟩⟩ : Daemon .ilp32).aliasOf 0 := hsame
    rw [halias, hzero] at hsame
    exact absurd hsame (by decide)

end MpOlsr
