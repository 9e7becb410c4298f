import MpOlsr.Paths.Capacity

/-!
# The layout of a path for both word sizes

The addresses of a path are numbers of four bytes in the block of the path, in the buffer of the hooks and in the packet
(`pathBytes`), but they are written and read through pointers to `unsigned long`.  Where these have eight bytes, the
loop back leaves the block unless the path has one hop, and the address of this hop is read together with the four bytes
behind it (`laidOut_iff`).
-/

namespace MpOlsr

open Buffer Bytes MpOlsrPacket

variable {ws : WordSize} {h : Store ws} {g : Shape ws}

/-- The addresses in the block of a path: the hops that the source had before are left zero. -/
def Shape.hopAddrs (g : Shape ws) (c : Scratch ws) (d : Ptr) (es : List (LinkInfo ws)) : List (ip_v4_addr ws) :=
  List.replicate (c.dijkstra_hops d - es.length) 0 ++ es.map fun l => g.mainOf l.dst

/-- What the hook for the output of a datagram has besides the path. -/
structure Outgoing (ws : WordSize) where
  node : Node ws
  path_data : List Byte
  nextHop : ip_v4_addr ws
  src_local : Bool
  header : SerHeader ws
  iph : IpHdr
  body : List Byte
  newpayload : List Byte
  path_data_length : path_data.length = MAX_MPOLSR_PATH
  newpayload_length : newpayload.length = BUFFER_SIZE
  wf : iph.WF
  tot_len : iph.tot_len = iph.bytes.length + body.length
  lt : iph.tot_len < 65536

namespace Outgoing

variable (o : Outgoing ws)

/-- The datagram with the header and a path of `n` hops fits the buffer for the packet. -/
def Room (n : ℕ) : Prop := o.iph.tot_len + (sizeof_ser_header ws + n * ip_v4_size) ≤ BUFFER_SIZE

/-- What stands in the packet behind a path of `n` hops. -/
def behind (n : ℕ) : List Byte :=
  o.body ++ o.newpayload.drop (o.iph.tot_len + (sizeof_ser_header ws + n * ip_v4_size))

/-- The path to `d` is written in its block, emitted in slots of four bytes behind the header, and read back from the
packet hop by hop. -/
def LaidOut (h : Store ws) (conf : Conf) (c : Scratch ws) (d : Ptr) (addrs : List (ip_v4_addr ws)) : Prop :=
  ∃ (path : OlsrPath) (c' : Scratch ws) (res : PathResult ws) (header : SerHeader ws) (junk : List Byte),
    retrievePath h conf d c = some (path, c') ∧ path.path_hops = addrs.length ∧
    path.path = pathBytes addrs ∧
    pth_copy_path o.node path o.path_data o.nextHop o.src_local o.header = some res ∧
    res.path_data = header.bytes ++ (pathBytes addrs ++ junk) ∧
    ∀ p, addMpOlsrHeader (o.iph.bytes ++ o.body) res.path_data res.size o.newpayload BUFFER_SIZE = some (true, p) →
      ∀ i (hi : i < addrs.length), getHopAddr ws p o.iph.bytes.length ((i + 1 : ℕ) : ℤ) = some addrs[i]

end Outgoing

/-! ### The block -/

theorem pathBytes_append (xs ys : List (ip_v4_addr ws)) : pathBytes (xs ++ ys) = pathBytes xs ++ pathBytes ys := by
  rw [pathBytes, pathBytes, pathBytes, List.flatMap_append]

theorem pathBytes_zeros (k : ℕ) : pathBytes (List.replicate k (0 : ip_v4_addr ws)) = List.replicate (k * ip_v4_size) 0 := by
  have hzero : leBytes 4 (0 : ip_v4_addr ws).toNat = List.replicate ip_v4_size 0 := by cases ws <;> decide
  induction k with
  | zero => simp [pathBytes]
  | succ k ih =>
    have hcons : pathBytes (List.replicate (k + 1) (0 : ip_v4_addr ws)) =
        leBytes 4 (0 : ip_v4_addr ws).toNat ++ pathBytes (List.replicate k (0 : ip_v4_addr ws)) := by
      simp [pathBytes, List.replicate_succ]
    rw [hcons, ih, hzero, ← List.replicate_add]
    congr 1
    unfold ip_v4_size
    omega

theorem pathBytes_hopAddrs (g : Shape ws) (c : Scratch ws) (d : Ptr) (es : List (LinkInfo ws)) :
    pathBytes (g.hopAddrs c d es) =
      List.replicate ((c.dijkstra_hops d - es.length) * ip_v4_size) 0 ++ g.hopBytes es := by
  rw [Shape.hopAddrs, pathBytes_append, pathBytes_zeros, pathBytes, List.flatMap_map]
  rfl

theorem Found.length_hopAddrs {c : Scratch ws} {srcAddr : ip_v4_addr ws} {r d : Ptr} {es : List (LinkInfo ws)}
    (hf : Found g c srcAddr r d es) : (g.hopAddrs c d es).length = c.dijkstra_hops d := by
  have hhops := hf.hops
  simp only [Shape.hopAddrs, List.length_append, List.length_replicate, List.length_map]
  omega

/-- The first copy of the loop back is that of the destination. -/
theorem copyBack_snoc (hr : Rep h g) {c : Scratch ws} {s v : Ptr} {es : List (LinkInfo ws)} (hne : es ≠ [])
    (hb : BackPath g c s v es) (k : ℕ) : ∃ l es', es = es' ++ [l] ∧ copyBack h c (s :: es.map LinkInfo.dst) k =
      (write (List.replicate (k * ip_v4_size) 0) (((k : ℤ) - 1) * ws.bytes) (leBytes ip_v4_size (g.mainOf l.dst).toNat)).bind
        fun path => (s :: es'.map LinkInfo.dst).reverse.foldlM (fun w node => copyAddr h c node w) (path, (k : ℤ) - 1 - 1) := by
  cases hb with
  | source => exact (hne rfl).elim
  | @link l es' hb hl hpred =>
    refine ⟨l, es', rfl, ?_⟩
    have hrev : (s :: (es' ++ [l]).map LinkInfo.dst).reverse = l.dst :: (s :: es'.map LinkInfo.dst).reverse := by simp
    rw [copyBack, hrev, List.foldlM_cons, copyAddr, hpred, hr.mainAddrIp_eq (hr.ends l hl).2]
    simp only [Option.bind_eq_bind, Option.bind_some, Option.bind_assoc]
    rfl

/-- Where an `unsigned long` has eight bytes, the loop back leaves the block of two or more hops. -/
theorem copyBack_lp64 {h : Store .lp64} {g : Shape .lp64} (hr : Rep h g) {c : Scratch .lp64} {s v : Ptr}
    {es : List (LinkInfo .lp64)} (hne : es ≠ []) (hb : BackPath g c s v es) {k : ℕ} (hk : 2 ≤ k) :
    copyBack h c (s :: es.map LinkInfo.dst) k = none := by
  obtain ⟨l, es', -, hcopy⟩ := copyBack_snoc hr hne hb k
  have hout : write (List.replicate (k * ip_v4_size) (0 : Byte)) (((k : ℤ) - 1) * (8 : ℕ))
      (leBytes ip_v4_size (g.mainOf l.dst).toNat) = none := by
    apply if_neg
    simp only [length_leBytes, List.length_replicate, ip_v4_size]
    omega
  have hbytes : WordSize.bytes .lp64 = 8 := rfl
  rw [hcopy, hbytes, hout, Option.bind_none]

/-- A path of one hop stays in its block. -/
theorem copyBack_one (hr : Rep h g) {c : Scratch ws} {s v : Ptr} {es : List (LinkInfo ws)} (hb : BackPath g c s v es)
    (hlen : es.length = 1) : copyBack h c (s :: es.map LinkInfo.dst) 1 = some (g.hopBytes es, -1) := by
  have hne : es ≠ [] := by
    rintro rfl
    cases hlen
  have hsource : ∀ {v}, BackPath g c s v [] → c.dijkstra_path s = none := by
    intro v hb
    generalize hes : ([] : List (LinkInfo ws)) = es at hb
    cases hb with
    | source hnone => exact hnone
    | link => simp at hes
  cases hb with
  | source => exact (hne rfl).elim
  | @link l es' hb hl hpred =>
    obtain ⟨l', es'', hsnoc, hcopy⟩ := copyBack_snoc hr hne (.link hb hl hpred) 1
    have hnil : es' = [] := by
      rw [List.length_append, List.length_singleton] at hlen
      exact List.length_eq_zero_iff.1 (by omega)
    subst hnil
    obtain ⟨rfl, hl'⟩ := List.append_inj' hsnoc rfl
    obtain rfl : l = l' := by simpa using hl'
    have hwrite : write (List.replicate (1 * ip_v4_size) (0 : Byte)) (((1 : ℕ) - 1 : ℤ) * ws.bytes)
        (leBytes ip_v4_size (g.mainOf l.dst).toNat) = some (leBytes ip_v4_size (g.mainOf l.dst).toNat ++ []) := by
      refine write_eq (a := []) (b := List.replicate ip_v4_size 0) (c := []) ?_ ?_ (by simp)
      · simp
      · simp
    rw [hcopy, hwrite, Option.bind_some, List.map_nil, List.reverse_singleton, List.foldlM_cons, copyAddr, hsource hb,
      Shape.hopBytes, List.append_nil, List.nil_append, List.flatMap_singleton]
    rfl

/-- A path with a link stays in its block if an `unsigned long` has four bytes, or there is one hop. -/
theorem retrievePath_block (hr : Rep h g) (conf : Conf) {c : Scratch ws} {srcAddr : ip_v4_addr ws} {r d : Ptr}
    {es : List (LinkInfo ws)} (hf : Found g c srcAddr r d es) (hne : es ≠ []) :
    (ws = .ilp32 ∨ c.dijkstra_hops d = 1 → ∃ c', retrievePath h conf d c =
      some (⟨c.dijkstra_hops d, pathBytes (g.hopAddrs c d es)⟩, c')) ∧
    (¬ (ws = .ilp32 ∨ c.dijkstra_hops d = 1) → retrievePath h conf d c = none) := by
  obtain ⟨cost, -, hretrieve⟩ := retrievePath_spec hr conf hf.mem hf.back (hr.trail_length hf.mem hf.back hf.simple)
  have hhops := hf.hops
  have hpos : 0 < es.length := List.length_pos_iff.2 hne
  rw [pathBytes_hopAddrs]
  constructor
  · intro hcond
    rcases hcond with rfl | hone
    · rw [copyBack_spec hr hf.back (by omega)] at hretrieve
      exact ⟨_, hretrieve⟩
    · have hlen : es.length = 1 := by omega
      rw [hone, copyBack_one hr hf.back hlen] at hretrieve
      rw [hone, hlen]
      exact ⟨_, hretrieve⟩
  · intro hcond
    obtain ⟨hws, hone⟩ := not_or.1 hcond
    cases ws with
    | ilp32 => exact (hws rfl).elim
    | lp64 =>
      rw [hretrieve, copyBack_lp64 hr hne hf.back (by omega)]
      rfl

/-! ### The packet -/

theorem leBytes_add (k m n : ℕ) : leBytes (k + m) n = leBytes k n ++ leBytes m (n / 256 ^ k) := by
  induction k generalizing n with
  | zero => simp [leBytes]
  | succ k ih =>
    have hdiv : n / 256 / 256 ^ k = n / 256 ^ (k + 1) := by
      rw [Nat.div_div_eq_div_mul, Nat.pow_succ']
    rw [Nat.succ_add, leBytes, leBytes, ih, hdiv, List.cons_append]

/-- The upper four bytes of an address with eight bytes. -/
def upperBytes (a : ip_v4_addr ws) : List Byte := leBytes 4 (a.toNat / 256 ^ 4)

/-- An address with eight bytes is read from a slot of four bytes if its upper bytes follow. -/
theorem loadLong_slot (pre tail : List Byte) (a : ip_v4_addr .lp64) :
    loadLong .lp64 (pre ++ (leBytes 4 a.toNat ++ tail)) pre.length = some a ↔
      read tail 0 4 = some (upperBytes a) := by
  have hlong : leBytes 8 a.toNat = leBytes 4 a.toNat ++ upperBytes a := leBytes_add 4 4 a.toNat
  have hread : read (pre ++ (leBytes 4 a.toNat ++ tail)) pre.length (8 : ℕ) =
      (read tail 0 4).map fun bs => leBytes 4 a.toNat ++ bs := by
    by_cases hlen : 4 ≤ tail.length
    · have hsplit : tail = tail.take 4 ++ tail.drop 4 := (List.take_append_drop 4 tail).symm
      have htake : (tail.take 4).length = 4 := List.length_take_of_le hlen
      have htail : read tail 0 4 = some (tail.take 4) := read_eq (a := []) hsplit rfl (by rw [htake]; rfl)
      rw [htail, Option.map_some]
      refine read_eq (b := leBytes 4 a.toNat ++ tail.take 4) (c := tail.drop 4) ?_ rfl ?_
      · rw [List.append_assoc, List.take_append_drop]
      · rw [List.length_append, length_leBytes, htake]
    · have htail : read tail 0 4 = none := if_neg (by omega)
      rw [htail, Option.map_none]
      apply if_neg
      simp only [List.length_append, length_leBytes]
      omega
  rw [loadLong]
  show Option.map _ (read _ _ (8 : ℕ)) = _ ↔ _
  rw [hread, Option.map_map]
  constructor
  · intro hload
    obtain ⟨bs, hbs, hval⟩ := Option.map_eq_some_iff.1 hload
    have hfour : bs.length = 4 := by
      have := length_of_read hbs
      omega
    have hof : ofLe (leBytes 4 a.toNat ++ bs) = a.toNat := by
      have hlt := ofLe_lt (leBytes 4 a.toNat ++ bs)
      rw [List.length_append, length_leBytes, hfour] at hlt
      have hlt : ofLe (leBytes 4 a.toNat ++ bs) < 2 ^ 64 := hlt
      have htoNat : (BitVec.ofNat 64 (ofLe (leBytes 4 a.toNat ++ bs))).toNat = a.toNat := congrArg BitVec.toNat hval
      rwa [BitVec.toNat_ofNat, Nat.mod_eq_of_lt hlt] at htoNat
    have hbytes := leBytes_ofLe (leBytes 4 a.toNat ++ bs)
    rw [hof, List.length_append, length_leBytes, hfour, hlong] at hbytes
    rw [hbs, List.append_cancel_left hbytes]
  · intro hbs
    rw [hbs, Option.map_some, Function.comp_apply, ← hlong]
    exact congrArg some (@SerHeader.ofLe_long .lp64 a)

/-- The packet that results: the header and the path behind the IP header, and then the datagram. -/
theorem Outgoing.packet_eq (o : Outgoing ws) {header : SerHeader ws} {addrs : List (ip_v4_addr ws)} {junk p : List Byte}
    (hroom : o.Room addrs.length)
    (hadd : addMpOlsrHeader (o.iph.bytes ++ o.body) (header.bytes ++ (pathBytes addrs ++ junk))
      (addrs.length * ip_v4_size + sizeof_ser_header ws : ℕ) o.newpayload BUFFER_SIZE = some (true, p)) :
    ∃ iph : IpHdr, iph.bytes.length = o.iph.bytes.length ∧
      p = iph.bytes ++ (header.bytes ++ (pathBytes addrs ++ o.behind addrs.length)) := by
  have hlen : (header.bytes ++ pathBytes addrs).length = addrs.length * ip_v4_size + sizeof_ser_header ws := by
    rw [List.length_append, SerHeader.length_bytes, length_pathBytes, Nat.add_comm]
    rfl
  have hroom' : o.iph.tot_len + (header.bytes ++ pathBytes addrs).length ≤ o.newpayload.length := by
    have hroom : o.iph.tot_len + (sizeof_ser_header ws + addrs.length * ip_v4_size) ≤ BUFFER_SIZE := hroom
    rw [hlen, o.newpayload_length]
    omega
  have heq := addMpOlsrHeader_eq (j := junk) o.wf o.tot_len o.lt hroom'
  let iph : IpHdr := { o.iph with
    tot_len := o.iph.tot_len + (header.bytes ++ pathBytes addrs).length, protocol := IPPROTO_MPOLSR }
  obtain ⟨check, hcheck⟩ := updateIpChecksum_spec (h := iph) o.wf ((header.bytes ++ pathBytes addrs) ++
    (o.body ++ o.newpayload.drop (o.iph.tot_len + (header.bytes ++ pathBytes addrs).length)))
  rw [hcheck, o.newpayload_length, List.append_assoc, hlen, hadd, Option.map_some, Option.some_inj, Prod.mk.injEq] at heq
  refine ⟨{ iph with check := check }, by simp [iph], heq.2.trans ?_⟩
  rw [Outgoing.behind, Nat.add_comm (sizeof_ser_header ws), List.append_assoc]

/-- Without room, no header is added. -/
theorem Outgoing.room_of_added (o : Outgoing ws) {n : ℕ} {path_data p : List Byte}
    (hadd : addMpOlsrHeader (o.iph.bytes ++ o.body) path_data (n * ip_v4_size + sizeof_ser_header ws : ℕ) o.newpayload
      BUFFER_SIZE = some (true, p)) : o.Room n := by
  by_contra hroom
  have hcond : (o.iph.tot_len : ℤ) + (n * ip_v4_size + sizeof_ser_header ws : ℕ) > BUFFER_SIZE := by
    have hroom : ¬ o.iph.tot_len + (sizeof_ser_header ws + n * ip_v4_size) ≤ BUFFER_SIZE := hroom
    omega
  rw [addMpOlsrHeader, Fault.bind_of_some (IpHdr.getIpTotalSize_eq o.lt o.body)] at hadd
  simp only [if_pos hcond] at hadd
  cases hadd

/-- With room, it is. -/
theorem Outgoing.added_of_room (o : Outgoing ws) {header : SerHeader ws} {addrs : List (ip_v4_addr ws)} {junk : List Byte}
    (hroom : o.Room addrs.length) :
    ∃ p, addMpOlsrHeader (o.iph.bytes ++ o.body) (header.bytes ++ (pathBytes addrs ++ junk))
      (addrs.length * ip_v4_size + sizeof_ser_header ws : ℕ) o.newpayload BUFFER_SIZE = some (true, p) := by
  have hlen : (header.bytes ++ pathBytes addrs).length = addrs.length * ip_v4_size + sizeof_ser_header ws := by
    rw [List.length_append, SerHeader.length_bytes, length_pathBytes, Nat.add_comm]
    rfl
  have hroom' : o.iph.tot_len + (header.bytes ++ pathBytes addrs).length ≤ o.newpayload.length := by
    have hroom : o.iph.tot_len + (sizeof_ser_header ws + addrs.length * ip_v4_size) ≤ BUFFER_SIZE := hroom
    rw [hlen, o.newpayload_length]
    omega
  obtain ⟨check, rest, hadd, -⟩ := addMpOlsrHeader_spec (j := junk) o.wf o.tot_len o.lt hroom'
  rw [hlen, o.newpayload_length, List.append_assoc] at hadd
  exact ⟨_, hadd⟩

/-- A path that fits the buffer is emitted behind the header. -/
theorem Outgoing.copy_eq (o : Outgoing ws) {addrs : List (ip_v4_addr ws)} (hfit : FitsBuffer ws addrs.length) :
    ∃ res junk, pth_copy_path o.node ⟨addrs.length, pathBytes addrs⟩ o.path_data o.nextHop o.src_local o.header =
        some res ∧
      res.path_data = SerHeader.bytes { o.header with version := MPOLSR_VERSION, hops := addrs.length, cur := 1 } ++
        (pathBytes addrs ++ junk) ∧
      res.size = addrs.length * ip_v4_size + sizeof_ser_header ws := by
  have hsized : OlsrPath.Sized ⟨addrs.length, pathBytes addrs⟩ := length_pathBytes addrs
  have hfit' : sizeof_ser_header ws + addrs.length * ip_v4_size ≤ o.path_data.length := by
    rw [o.path_data_length]
    exact hfit
  obtain ⟨b, c, junk, hdata, hb, hc⟩ := exists_split hfit'
  have hroom : ip_v4_size ≤ (pathBytes addrs ++ junk).length := by
    have hmax : sizeof_ser_header ws + ip_v4_size ≤ MAX_MPOLSR_PATH := by cases ws <;> decide
    have hlen := o.path_data_length
    rw [hdata] at hlen
    have hpath : (pathBytes addrs).length = addrs.length * ip_v4_size := hsized
    simp only [List.length_append] at hlen ⊢
    omega
  rw [hdata]
  refine ⟨_, junk, pth_copy_path_eq o.node hsized o.nextHop o.src_local o.header hb hc (List.length_take_of_le hroom)
    (List.take_append_drop _ _).symm, rfl, rfl⟩

/-- The only hop of a path is read together with what stands behind the path. -/
theorem getHopAddr_one {pre tail : List Byte} {header : SerHeader .lp64} (hh : header.hops = 1) (a : ip_v4_addr .lp64) :
    getHopAddr .lp64 (pre ++ (header.bytes ++ (pathBytes [a] ++ tail))) pre.length 1 = some a ↔
      read tail 0 4 = some (upperBytes a) := by
  have hslot : pathBytes [a] = leBytes 4 a.toNat := by simp [pathBytes]
  have hassoc : pre ++ (header.bytes ++ (pathBytes [a] ++ tail)) =
      (pre ++ header.bytes) ++ (leBytes 4 a.toNat ++ tail) := by rw [hslot, List.append_assoc]
  have hpos : (pre.length : ℤ) + sizeof_ser_header .lp64 + (1 - 1) * WordSize.bytes .lp64 =
      (pre ++ header.bytes).length := by
    rw [List.length_append, SerHeader.length_bytes]
    push_cast
    omega
  rw [getHopAddr, Fault.bind_of_some (SerHeader.hops_eq pre _ (by omega)), if_neg (by omega), hpos, hassoc]
  exact loadLong_slot _ _ _

/-- The address of the only hop is that of the destination. -/
theorem Found.hopAddrs_one {c : Scratch ws} {srcAddr : ip_v4_addr ws} {r d : Ptr} {es : List (LinkInfo ws)}
    (hf : Found g c srcAddr r d es) (hne : es ≠ []) (hone : c.dijkstra_hops d = 1) :
    g.hopAddrs c d es = [g.mainOf d] := by
  obtain ⟨-, -, hb, -, hhops⟩ := hf
  cases hb with
  | source => exact (hne rfl).elim
  | @link l es' hb hl hpred =>
    rw [List.length_append, List.length_singleton] at hhops
    have hnil : es' = [] := List.length_eq_zero_iff.1 (by omega)
    rw [Shape.hopAddrs, hone, hnil]
    rfl

/-- A path with a link is laid out alike in the block, the buffer and the packet if and only if it fits the buffer and
an `unsigned long` has four bytes, or there is one hop and its upper bytes follow the path in the packet. -/
theorem laidOut_iff (o : Outgoing ws) (hr : Rep h g) (conf : Conf) {c : Scratch ws} {srcAddr : ip_v4_addr ws} {r d : Ptr}
    {es : List (LinkInfo ws)} (hf : Found g c srcAddr r d es) (hne : es ≠ []) :
    o.LaidOut h conf c d (g.hopAddrs c d es) ↔ FitsBuffer ws (c.dijkstra_hops d) ∧
      (ws = .ilp32 ∨ c.dijkstra_hops d = 1 ∧ (o.Room 1 → read (o.behind 1) 0 4 = some (upperBytes (g.mainOf d)))) := by
  obtain ⟨hblock, hout⟩ := retrievePath_block hr conf hf hne
  have hone := hf.hopAddrs_one hne
  have hlen : (g.hopAddrs c d es).length = c.dijkstra_hops d := hf.length_hopAddrs
  generalize g.hopAddrs c d es = addrs at hblock hone hlen
  rw [← hlen] at hblock hout hone ⊢
  constructor
  · rintro ⟨path, c', res, header, junk, hpath, hhops, hbytes, hcopy, -, hread⟩
    have hcond : ws = .ilp32 ∨ addrs.length = 1 := by
      by_contra hcond
      rw [hout hcond] at hpath
      cases hpath
    have hfit : FitsBuffer ws addrs.length := by
      have hle := length_of_copy hcopy
      rw [o.path_data_length, hhops] at hle
      exact hle
    refine ⟨hfit, ?_⟩
    cases ws with
    | ilp32 => exact Or.inl rfl
    | lp64 =>
      have hlen₁ := hcond.resolve_left (by decide)
      refine Or.inr ⟨hlen₁, fun hroom => ?_⟩
      obtain rfl := hone hlen₁
      obtain ⟨res', junk', hcopy', hdata, hsize⟩ := o.copy_eq hfit
      obtain rfl : path = ⟨[g.mainOf d].length, pathBytes [g.mainOf d]⟩ := by
        cases path
        congr
      obtain rfl := Option.some.inj (hcopy.symm.trans hcopy')
      rw [hdata, hsize] at hread
      have hroom : o.Room [g.mainOf d].length := hroom
      obtain ⟨p, hadd⟩ := o.added_of_room hroom
      obtain ⟨iph, hiph, hp⟩ := o.packet_eq hroom hadd
      have hhop := hread p hadd 0 Nat.one_pos
      rw [hp, ← hiph] at hhop
      exact (getHopAddr_one rfl _).1 hhop
  · rintro ⟨hfit, hcond⟩
    obtain ⟨c', hpath⟩ := hblock (hcond.imp_right And.left)
    obtain ⟨res, junk, hcopy, hdata, hsize⟩ := o.copy_eq hfit
    refine ⟨_, c', res, _, junk, hpath, rfl, rfl, hcopy, hdata, fun p hadd i hi => ?_⟩
    rw [hdata, hsize] at hadd
    have hroom := o.room_of_added hadd
    obtain ⟨iph, hiph, hp⟩ := o.packet_eq hroom hadd
    have hhops : addrs.length < 65536 := by
      have hfit : sizeof_ser_header ws + addrs.length * ip_v4_size ≤ MAX_MPOLSR_PATH := hfit
      unfold ip_v4_size MAX_MPOLSR_PATH at hfit
      omega
    rw [hp, ← hiph]
    rcases hcond with rfl | ⟨hlen₁, hbehind⟩
    · exact getHopAddr_eq _ _ rfl hhops hi
    · obtain rfl := hone hlen₁
      obtain rfl : i = 0 := Nat.lt_one_iff.1 hi
      cases ws with
      | ilp32 => exact getHopAddr_eq _ _ rfl hhops hi
      | lp64 => exact (getHopAddr_one rfl _).2 (hbehind hroom)

/-- Every round that reaches a destination other than the source finds such a path, whatever the costs of the links. -/
theorem rounds_laidOut_iff (hr : Rep h g) (srcAddr : ip_v4_addr ws) (c : Scratch ws) {d : Ptr} (hd : d ∈ g.nodes)
    (hsrc : g.mainOf d ≠ srcAddr) : ∃ c₁, dijkstra h srcAddr c = some c₁ ∧
      (c₁.dijkstra_cost d ≠ ULONG_MAX → ∃ r es, Found g c₁ srcAddr r d es ∧ 1 ≤ c₁.dijkstra_hops d ∧
        ∀ (conf : Conf) (o : Outgoing ws), o.LaidOut h conf c₁ d (g.hopAddrs c₁ d es) ↔
          FitsBuffer ws (c₁.dijkstra_hops d) ∧ (ws = .ilp32 ∨ c₁.dijkstra_hops d = 1 ∧
            (o.Room 1 → read (o.behind 1) 0 4 = some (upperBytes (g.mainOf d))))) := by
  obtain ⟨c₁, hrun, -, -, -, hfound⟩ := round_spec hr srcAddr c
  refine ⟨c₁, hrun, fun htop => ?_⟩
  obtain ⟨r, es, hf⟩ := hfound d hd htop
  have hne : es ≠ [] := by
    rintro rfl
    have hmem := hf.back.end_mem
    rw [List.map_nil, List.mem_singleton] at hmem
    exact hsrc (hmem ▸ hf.root)
  have hpos : 0 < es.length := List.length_pos_iff.2 hne
  have hhops := hf.hops
  exact ⟨r, es, hf, by omega, fun conf o => laidOut_iff o hr conf hf hne⟩

/-- The path to the last node of the line, with four bytes. -/
theorem rounds_laidOut_demo : ∃ (h : Store .ilp32) (c₁ : Scratch .ilp32) (r : Ptr) (es : List (LinkInfo .ilp32)),
    handleReads tc_init_data lineEvents = some h ∧ dijkstra h 1 Scratch.zero = some c₁ ∧ Found line c₁ 1 r 4 es ∧
    ∀ (conf : Conf) (o : Outgoing .ilp32), o.LaidOut h conf c₁ 4 (line.hopAddrs c₁ 4 es) := by
  obtain ⟨h, hrun, hw⟩ := line_wellFormed
  obtain ⟨c₁, hdij, hround⟩ := rounds_laidOut_iff hw.toRep 1 Scratch.zero (d := 4) (by decide) (by decide)
  have hvals : ((handleReads tc_init_data lineEvents).bind fun h => dijkstra h 1 Scratch.zero).map
      (fun c₁ => (c₁.dijkstra_cost 4, c₁.dijkstra_hops 4)) = some (0, 2) := by decide
  rw [hrun, Option.bind_some, hdij, Option.map_some, Option.some.injEq, Prod.mk.injEq] at hvals
  obtain ⟨r, es, hf, -, hiff⟩ := hround (by rw [hvals.1]; decide)
  refine ⟨h, c₁, r, es, hrun, hdij, hf, fun conf o => (hiff conf o).2 ⟨?_, Or.inl rfl⟩⟩
  rw [hvals.2]
  show sizeof_ser_header .ilp32 + 2 * ip_v4_size ≤ MAX_MPOLSR_PATH
  decide

/-- Three nodes in a line, for eight bytes. -/
def longLine : List (OlsrEventMessage .lp64) :=
  [.DEV_CMD_ADD_NODE 1, .DEV_CMD_ADD_NODE 2, .DEV_CMD_ADD_NODE 3, .DEV_CMD_ADD_LINK 1 2 1, .DEV_CMD_ADD_LINK 2 3 1]

/-- With eight bytes, the first copy for a path of two hops is behind its block of eight bytes. -/
theorem two_hops_leave_block : ∃ (h : Store .lp64) (c₁ : Scratch .lp64), handleReads tc_init_data longLine = some h ∧
    dijkstra h 1 Scratch.zero = some c₁ ∧ c₁.dijkstra_cost 4 ≠ ULONG_MAX ∧ c₁.dijkstra_hops 4 = 2 ∧
    retrievePath h ⟨1, 2, 3⟩ 4 c₁ = none ∧
    ∀ (o : Outgoing .lp64) (addrs : List (ip_v4_addr .lp64)), ¬ o.LaidOut h ⟨1, 2, 3⟩ c₁ 4 addrs := by
  have hvals : ((handleReads tc_init_data longLine).bind fun h => (dijkstra h 1 Scratch.zero).map fun c₁ =>
      (c₁.dijkstra_cost 4, c₁.dijkstra_hops 4, (retrievePath h ⟨1, 2, 3⟩ 4 c₁).isSome)) = some (0, 2, false) := by decide
  obtain ⟨h, hrun, hvals⟩ := Option.bind_eq_some_iff.1 hvals
  obtain ⟨c₁, hdij, hvals⟩ := Option.map_eq_some_iff.1 hvals
  rw [Prod.mk.injEq, Prod.mk.injEq] at hvals
  obtain ⟨hcost, hhops, hpath⟩ := hvals
  have hnone : retrievePath h ⟨1, 2, 3⟩ 4 c₁ = none := by
    rw [← Option.isNone_iff_eq_none, ← Option.not_isSome, hpath]
    rfl
  refine ⟨h, c₁, hrun, hdij, by rw [hcost]; decide, hhops, hnone, ?_⟩
  rintro o addrs ⟨path, c', res, header, junk, hsome, -⟩
  rw [hnone] at hsome
  cases hsome

end MpOlsr
