import MpOlsr.Paths.Answers
import MpOlsr.Topology.Runs

/-!
# The capacity of the caller's buffer

`pth_copy_path` gets the size of the buffer and does not read it: it writes the header and all hops of the path.  So a
lookup stays within the buffer exactly if the path in turn fits it (`respectsBuffer_iff`), and the path from the first
node to the last of a line of 511 nodes does not (`line_overflows`).
-/

namespace MpOlsr

open Buffer Bytes

variable {ws : WordSize}

/-- A path that fits the buffer of the hooks, behind the header. -/
def FitsBuffer (ws : WordSize) (hops : ℕ) : Prop := sizeof_ser_header ws + hops * ip_v4_size ≤ MAX_MPOLSR_PATH

/-- What `pth_copy_path` returns for the address of the first hop: the return value and the next hop. -/
def Node.firstHop (node : Node ws) (src_local : Bool) (addr nextHop : ip_v4_addr ws) : ℤ × ip_v4_addr ws :=
  if src_local then
    if ((node.findLink addr).map LocalLink.dst_alias_ip).getD 0 = 0 then (-1, nextHop)
    else (0, ((node.findLink addr).map LocalLink.dst_alias_ip).getD 0)
  else (0, addr)

/-- Once the path is selected, a lookup with a buffer of the size `MAX_MPOLSR_PATH` returns, so that it writes nothing
behind the buffer, and a path that does not fit is an error that leaves the buffer alone. -/
def Daemon.RespectsBuffer (s : Daemon ws) (srcAddr dstAddr : ip_v4_addr ws) : Prop :=
  (s.select srcAddr dstAddr).isSome → ∀ (path_data : List Byte) (nextHop : ip_v4_addr ws) (header : SerHeader ws),
    path_data.length = MAX_MPOLSR_PATH → ∃ r,
      s.pth_find_datagram_path path_data MAX_MPOLSR_PATH srcAddr dstAddr nextHop header = some r ∧
      r.1.path_data.length = MAX_MPOLSR_PATH ∧
      ∀ v, s.inTurn srcAddr dstAddr = some v → ¬ FitsBuffer ws v.2 → r.1.ret = -1 ∧ r.1.path_data = path_data

/-! ### The copy -/

/-- In a buffer with enough room, the header and the path come first, and the address of the first hop is read behind
the header, whether there is a hop or not. -/
theorem pth_copy_path_eq (node : Node ws) {path : OlsrPath} (hsized : path.Sized) (nextHop : ip_v4_addr ws)
    (src_local : Bool) (header : SerHeader ws) {b c d e j : List Byte} (hb : b.length = sizeof_ser_header ws)
    (hc : c.length = path.path_hops * ip_v4_size) (hd : d.length = ip_v4_size) (hsplit : path.path ++ j = d ++ e) :
    pth_copy_path node path (b ++ (c ++ j)) nextHop src_local header = some
      { ret := (node.firstHop src_local (BitVec.ofNat ws.bits (ofLe d)) nextHop).1,
        path_data := { header with version := MPOLSR_VERSION, hops := path.path_hops, cur := 1 }.bytes ++
          (path.path ++ j),
        size := path.path_hops * ip_v4_size + sizeof_ser_header ws,
        nextHop := (node.firstHop src_local (BitVec.ofNat ws.bits (ofLe d)) nextHop).2 } := by
  let s : SerHeader ws := { header with version := MPOLSR_VERSION, hops := path.path_hops, cur := 1 }
  have hsized : path.path.length = path.path_hops * ip_v4_size := hsized
  have hheader : write (b ++ (c ++ j)) 0 s.bytes = some (s.bytes ++ (c ++ j)) :=
    write_eq (a := []) rfl rfl (by rw [SerHeader.length_bytes, hb])
  have hpath : memcpy (s.bytes ++ (c ++ j)) (sizeof_ser_header ws) path.path 0
      (path.path_hops * ip_v4_size : ℕ) = some (s.bytes ++ (path.path ++ j)) :=
    memcpy_eq (e := []) (f := []) rfl (by rw [SerHeader.length_bytes]) (by simp) rfl (by rw [hsized])
      (by rw [hsized, hc])
  have hread : Bytes.read (s.bytes ++ (path.path ++ j)) (sizeof_ser_header ws) ip_v4_size = some d :=
    read_eq (congrArg (s.bytes ++ ·) hsplit) (by rw [SerHeader.length_bytes]) (by rw [hd])
  refine Option.bind_eq_some_iff.2 ⟨_, hheader, Option.bind_eq_some_iff.2 ⟨_, hpath, ?_⟩⟩
  refine Option.bind_eq_some_iff.2 ⟨_, Option.map_eq_some_iff.2 ⟨_, hread, rfl⟩, ?_⟩
  cases src_local with
  | false => rfl
  | true =>
    simp only [Node.firstHop, if_true]
    split <;> rfl

/-- The copy never leaves the buffer, so it does not return if the buffer is too small. -/
theorem length_of_copy {node : Node ws} {path : OlsrPath} {path_data : List Byte} {nextHop : ip_v4_addr ws}
    {src_local : Bool} {header : SerHeader ws} {r : PathResult ws}
    (hrun : pth_copy_path node path path_data nextHop src_local header = some r) :
    sizeof_ser_header ws + path.path_hops * ip_v4_size ≤ path_data.length := by
  obtain ⟨p₁, hp₁, hrun⟩ := Option.bind_eq_some_iff.1 hrun
  obtain ⟨p₂, hp₂, -⟩ := Option.bind_eq_some_iff.1 hrun
  obtain ⟨hops, hread, hwrite⟩ := Option.bind_eq_some_iff.1 hp₂
  have hlen := length_of_read hread
  have h₁ := (length_write hp₁).1
  have h₂ := (length_write hwrite).2
  omega

theorem copy_of_fits (node : Node ws) {path : OlsrPath} (hsized : path.Sized) (hfit : FitsBuffer ws path.path_hops)
    {path_data : List Byte} (hlen : path_data.length = MAX_MPOLSR_PATH) (nextHop : ip_v4_addr ws) (src_local : Bool)
    (header : SerHeader ws) :
    ∃ r, pth_copy_path node path path_data nextHop src_local header = some r ∧
      r.path_data.length = MAX_MPOLSR_PATH := by
  have hfit : sizeof_ser_header ws + path.path_hops * ip_v4_size ≤ path_data.length := hlen ▸ hfit
  obtain ⟨b, c, junk, rfl, hb, hc⟩ := exists_split hfit
  have hpath : path.path.length = path.path_hops * ip_v4_size := hsized
  simp only [List.length_append] at hlen
  have hroom : ip_v4_size ≤ (path.path ++ junk).length := by
    have hmax : sizeof_ser_header ws + ip_v4_size ≤ MAX_MPOLSR_PATH := by cases ws <;> decide
    rw [List.length_append]
    omega
  refine ⟨_, pth_copy_path_eq node hsized nextHop src_local header hb hc (List.length_take_of_le hroom)
    (List.take_append_drop _ _).symm, ?_⟩
  simp only [List.length_append, SerHeader.length_bytes]
  omega

/-- A lookup is the selection, and the copy of the selected path. -/
theorem pth_find_datagram_path_of_select {s s' : Daemon ws} {x y nextHop : ip_v4_addr ws} {sel : Option (Selection ws)}
    (hsel : s.select x y = some (sel, s')) (path_data : List Byte) (size : ℕ) (header : SerHeader ws) :
    s.pth_find_datagram_path path_data size x y nextHop header =
      (s'.copySelection path_data size nextHop header sel).map fun r => (r, s') := by
  rw [Daemon.pth_find_datagram_path]
  refine (Fault.bind_of_some hsel _).trans ?_
  cases h : s'.copySelection path_data size nextHop header sel <;> simp [h]

/-- A lookup that stays within the buffer has a path in turn that fits it. -/
theorem Daemon.RespectsBuffer.fits {s : Daemon ws} {srcAddr dstAddr : ip_v4_addr ws}
    (hresp : s.RespectsBuffer srcAddr dstAddr) {v : Bool × ℕ} (hv : s.inTurn srcAddr dstAddr = some v) :
    FitsBuffer ws v.2 := by
  have hsome := select_isSome hv
  obtain ⟨⟨sel, s'⟩, hsel⟩ := Option.isSome_iff_exists.1 hsome
  obtain ⟨-, -, hturn⟩ := select_inTurn hsel
  rw [hv] at hturn
  obtain ⟨p, rfl, rfl⟩ := Option.map_eq_some_iff.1 hturn
  have hlen : (List.replicate MAX_MPOLSR_PATH (0 : Byte)).length = MAX_MPOLSR_PATH := List.length_replicate
  obtain ⟨r, hr, -⟩ := hresp hsome _ 0 ⟨0, 0, 0, 0, 0, 0⟩ hlen
  rw [pth_find_datagram_path_of_select hsel] at hr
  obtain ⟨r', hcopy, -⟩ := Option.map_eq_some_iff.1 hr
  have hfits := length_of_copy hcopy
  rw [hlen] at hfits
  exact hfits

/-- The lookup stays within the buffer if and only if the path in turn fits it.  On a store with a shape a path is
always selected, where an `unsigned long` has the size of an address. -/
theorem respectsBuffer_iff (s : Daemon ws) (hs : s.Sized) (srcAddr dstAddr : ip_v4_addr ws) :
    (ws = .ilp32 → (∃ g, Rep s.store g) → (s.select srcAddr dstAddr).isSome) ∧
      (s.RespectsBuffer srcAddr dstAddr ↔ ∀ v, s.inTurn srcAddr dstAddr = some v → FitsBuffer ws v.2) := by
  refine ⟨?_, ?_, ?_⟩
  · rintro rfl ⟨g, hr⟩
    exact select_total s hr srcAddr dstAddr
  · exact fun hresp v hv => hresp.fits hv
  · intro hfits hsome path_data nextHop header hlen
    obtain ⟨⟨sel, s'⟩, hsel⟩ := Option.isSome_iff_exists.1 hsome
    obtain ⟨-, hsized, hturn⟩ := select_inTurn hsel
    rw [pth_find_datagram_path_of_select hsel]
    cases sel with
    | none =>
      refine ⟨_, rfl, hlen, fun v hv => ?_⟩
      rw [hv] at hturn
      cases hturn
    | some p =>
      have hfit := hfits _ hturn.symm
      obtain ⟨r, hcopy, hkeep⟩ := copy_of_fits s'.node ((hsized hs).2 p rfl) hfit hlen nextHop p.src_local header
      refine ⟨(r, s'), by rw [Daemon.copySelection, hcopy]; rfl, hkeep, fun v hv hnot => ?_⟩
      rw [hv, Option.map_some, Option.some_inj] at hturn
      exact (hnot (hturn ▸ hfit)).elim

/-! ### A line of nodes -/

/-- The address of a node on the line. -/
def lineAddr (k : ℕ) : ip_v4_addr .ilp32 := BitVec.ofNat 32 k

/-- The nodes `1` to `k`, each with a link to the next one. -/
def lineOf : ℕ → List (OlsrEventMessage .ilp32)
  | 0 => []
  | k + 1 => lineOf k ++ [.DEV_CMD_ADD_NODE (lineAddr (k + 1)), .DEV_CMD_ADD_LINK (lineAddr k) (lineAddr (k + 1)) 1]

/-- The graph of the line. -/
structure IsLine (k : ℕ) (G : Multigraph (ip_v4_addr .ilp32) (ULong .ilp32)) : Prop where
  nodes : ∀ a, a ∈ G.nodes ↔ 0 < a.toNat ∧ a.toNat ≤ k
  length : G.nodes.length = k
  aliases : G.aliases = []
  links : ∀ l ∈ G.links, l.2.1.toNat = l.1.toNat + 1 ∧ l.2.2.toNat = 1
  next : ∀ a b, 0 < a.toNat → b.toNat = a.toNat + 1 → b.toNat ≤ k → ∃ c, (a, b, c) ∈ G.links

theorem lineAddr_toNat {k : ℕ} (hk : k < 2 ^ 32) : (lineAddr k).toNat = k := by
  exact (BitVec.toNat_ofNat k 32).trans (Nat.mod_eq_of_lt hk)

theorem owner_of_nodes {G : Multigraph (ip_v4_addr ws) (ULong ws)} (h : G.aliases = []) (a : ip_v4_addr ws) :
    G.owner a = if a ∈ G.nodes then some a else none := by
  rw [Multigraph.owner, h]
  rfl

theorem IsLine.step {k : ℕ} {G : Multigraph (ip_v4_addr .ilp32) (ULong .ilp32)} (h : IsLine k G)
    {a b : ip_v4_addr .ilp32} (ha : a.toNat = k) (hb : b.toNat = k + 1) {c : ULong .ilp32} (hc : c.toNat = 1) :
    IsLine (k + 1) ((G.addNode b).addLink a b c) := by
  have hnew : b ∉ G.nodes := by
    rw [h.nodes]
    omega
  have hadd : G.addNode b = { G with nodes := b :: G.nodes } := by
    rw [Multigraph.addNode, owner_of_nodes h.aliases, if_neg hnew]
  have hnodes : ∀ x, x ∈ b :: G.nodes ↔ 0 < x.toNat ∧ x.toNat ≤ k + 1 := by
    intro x
    rw [List.mem_cons, h.nodes, ← BitVec.toNat_inj, hb]
    omega
  have hlength : (b :: G.nodes).length = k + 1 := by
    rw [List.length_cons, h.length]
  have howner : ∀ x, Multigraph.owner { G with nodes := b :: G.nodes } x = if x ∈ b :: G.nodes then some x else none :=
    fun x => owner_of_nodes (G := { G with nodes := b :: G.nodes }) h.aliases x
  rw [hadd, Multigraph.addLink, howner, howner]
  by_cases hmem : a ∈ b :: G.nodes
  · rw [if_pos hmem, if_pos List.mem_cons_self]
    refine ⟨hnodes, hlength, h.aliases, ?_, ?_⟩
    · intro l hl
      rcases List.mem_cons.1 hl with rfl | hl
      · exact ⟨by rw [ha, hb], hc⟩
      · exact h.links l hl
    · intro x y hx hy hk
      by_cases hyk : y.toNat ≤ k
      · obtain ⟨c', hc'⟩ := h.next x y hx hy hyk
        exact ⟨c', List.mem_cons_of_mem _ hc'⟩
      · have hxa : x = a := BitVec.eq_of_toNat_eq (by omega)
        have hyb : y = b := BitVec.eq_of_toNat_eq (by omega)
        exact ⟨c, by rw [hxa, hyb]; exact List.mem_cons_self⟩
  · rw [if_neg hmem]
    rw [hnodes] at hmem
    refine ⟨hnodes, hlength, h.aliases, h.links, fun x y hx hy hk => h.next x y hx hy (by omega)⟩

theorem isLine_lineOf {k : ℕ} (hk : k < 2 ^ 32) : IsLine k ((lineOf k).foldl act Multigraph.empty) := by
  induction k with
  | zero =>
    refine ⟨fun a => ⟨fun h => (List.not_mem_nil h).elim, fun h => by omega⟩, rfl, rfl,
      fun l h => (List.not_mem_nil h).elim, fun a b _ _ h => by omega⟩
  | succ k ih =>
    rw [lineOf, List.foldl_append]
    exact (ih (by omega)).step (lineAddr_toNat (by omega)) (lineAddr_toNat hk) rfl

theorem lineOf_store {k : ℕ} (hk : k < 2 ^ 32) : ∃ h g, handleReads tc_init_data (lineOf k) = some h ∧ WellFormed h g ∧
    Distinct g.addrs ∧ IsLine k g.forget := by
  have hall : ∀ k, ∀ m ∈ lineOf k, ∀ h, allowed h m = true := by
    intro k
    induction k with
    | zero => exact fun m hm => (List.not_mem_nil hm).elim
    | succ k ih =>
      intro m hm h
      rcases List.mem_append.1 hm with hm | hm
      · exact ih m hm h
      · simp only [List.mem_cons, List.not_mem_nil, or_false] at hm
        rcases hm with rfl | rfl <;> rfl
  obtain ⟨h, hrun, ⟨g, hr, hd, hG⟩, -⟩ := store_refines (lineOf k) (Simulation.guarded_of_forall (hall k) _)
  exact ⟨h, g, hrun, .of_distinct hr hd, hd, hG ▸ isLine_lineOf hk⟩

/-- On a line the number of links of a path is the difference of the addresses. -/
theorem IsLine.back {k : ℕ} {g : Shape .ilp32} (h : IsLine k g.forget) {c : Scratch .ilp32} {r d : Ptr}
    {es : List (LinkInfo .ilp32)} (hb : BackPath g c r d es) :
    (g.mainOf d).toNat = (g.mainOf r).toNat + es.length := by
  induction hb with
  | source => rfl
  | @link l es _ hl _ ih =>
    have hstep := (h.links _ (List.mem_map_of_mem hl)).1
    have hstep : (g.mainOf l.dst).toNat = (g.mainOf l.src).toNat + 1 := hstep
    rw [hstep, ih, List.length_append, List.length_singleton]
    omega

/-- On a line every node after the first can be reached. -/
theorem IsLine.walk {k : ℕ} {h : Store .ilp32} {g : Shape .ilp32} (hl : IsLine k g.forget) (hw : WellFormed h g)
    (cost : Ptr → ULong .ilp32) {r : Ptr} (hr : r ∈ g.nodes) (n : ℕ) {d : Ptr} (hd : d ∈ g.nodes)
    (hn : (g.mainOf d).toNat = (g.mainOf r).toNat + n) : ∃ es, Dijkstra.Walk (g.graph cost) r d es := by
  induction n generalizing d with
  | zero =>
    have heq : d = r := hw.mains d hd r hr (BitVec.eq_of_toNat_eq hn)
    exact ⟨[], heq ▸ .nil⟩
  | succ n ih =>
    have hrk := (hl.nodes _).1 (List.mem_map_of_mem (f := g.mainOf) hr)
    have hdk := (hl.nodes _).1 (List.mem_map_of_mem (f := g.mainOf) hd)
    have hlt : (g.mainOf d).toNat < 2 ^ 32 := (g.mainOf d).isLt
    let a := lineAddr ((g.mainOf r).toNat + n)
    have ha : a.toNat = (g.mainOf r).toNat + n := lineAddr_toNat (by omega)
    obtain ⟨c, hc⟩ := hl.next a (g.mainOf d) (by omega) (by omega) hdk.2
    obtain ⟨l, hlmem, hleq⟩ := List.mem_map.1 hc
    simp only [Prod.mk.injEq] at hleq
    obtain ⟨hsrc, hdst, -⟩ := hleq
    have hld : l.dst = d := hw.mains _ (hw.ends l hlmem).2 d hd hdst
    obtain ⟨es, hes⟩ := ih (hw.ends l hlmem).1 (by rw [hsrc, ha])
    have hout : l ∈ (g.graph cost).out l.src := List.mem_filter.2 ⟨hlmem, decide_eq_true rfl⟩
    exact ⟨es ++ [l], hld ▸ .snoc hes hout⟩

theorem IsLine.resolve {k : ℕ} {h : Store .ilp32} {g : Shape .ilp32} (hl : IsLine k g.forget) (hr : Rep h g)
    (hd : Distinct g.addrs) {a : ip_v4_addr .ilp32} (ha : 0 < a.toNat ∧ a.toNat ≤ k) :
    ∃ e, MpOlsr.resolve g.addrs a = some e ∧ e.node ∈ g.nodes ∧ g.mainOf e.node = a := by
  have howner := hr.owner_forget hd a
  rw [owner_of_nodes hl.aliases, if_pos ((hl.nodes a).2 ha)] at howner
  obtain ⟨e, he, hmain⟩ := Option.map_eq_some_iff.1 howner.symm
  exact ⟨e, he, hr.resolve_node he, hmain⟩

/-- The path from the first node of a line to the last has as many hops as there are links. -/
theorem line_inTurn {k : ℕ} (hpos : 0 < k) (hk : k < 2 ^ 31) : ∃ h, handleReads tc_init_data (lineOf k) = some h ∧
    ∀ fe fp, ∃ b, (⟨h, Scratch.zero, [], 0, ⟨1, fe, fp⟩⟩ : Daemon .ilp32).inTurn (lineAddr 1) (lineAddr k) =
      some (b, k - 1) := by
  obtain ⟨h, g, hrun, hw, hd, hl⟩ := lineOf_store (k := k) (by omega)
  refine ⟨h, hrun, fun fe fp => ?_⟩
  have hr := hw.toRep
  have hfirst : (lineAddr 1).toNat = 1 := lineAddr_toNat (by omega)
  have hlast : (lineAddr k).toNat = k := lineAddr_toNat (by omega)
  obtain ⟨e, he, hen, hem⟩ := hl.resolve hr hd (a := lineAddr 1) (by omega)
  obtain ⟨e', he', hen', hem'⟩ := hl.resolve hr hd (a := lineAddr k) (by omega)
  let s : Daemon .ilp32 := ⟨h, Scratch.zero, [], 0, ⟨1, fe, fp⟩⟩
  obtain ⟨cost, p1, hreset, hcosts, hs⟩ := AtRound.reset (s := s) hr rfl
  -- the last node is reached
  have hshort : Dijkstra.Short (g.graph cost) BitVec.toNat ULONG_MAX e.node := by
    apply Dijkstra.Short.of_weights (N := g.nodes) (m := 1)
    · intro v l hlv
      have hlmem := (List.mem_filter.1 hlv).1
      refine ⟨(hr.ends l hlmem).2, ?_⟩
      have hone : l.cost.toNat = 1 := (hl.links _ (List.mem_map_of_mem hlmem)).2
      exact (congrArg BitVec.toNat (hcosts l hlmem)).trans_le hone.le
    · have hlen : g.nodes.length = k := (List.length_map _).symm.trans hl.length
      rw [hlen]
      show k * 1 < 4294967295
      omega
  obtain ⟨c₁, hdij, hall⟩ := dijkstra_shortest hw hen
    { Scratch.zero with link_cost := cost, link_cost_p1 := p1 } hshort
  obtain ⟨es, hwalk⟩ := hl.walk hw cost hen (k - 1) hen' (by rw [hem, hem', hfirst, hlast]; omega)
  have htop : c₁.dijkstra_cost e'.node ≠ ULONG_MAX := fun hc => (hall _ hen').1.1 hc ⟨es, hwalk⟩
  -- the only way there has all the links
  obtain ⟨c₂, hdij₂, hroot, -, hnext⟩ := hs.pathLoop_succ hr (lineAddr 1) hen'
  rw [← hem, hdij, Option.some_inj] at hdij₂
  subst hdij₂
  obtain ⟨r, fs, s₂, hfound, -, -, -, -, -, hloop⟩ := hnext htop
  have hlen := hl.back hfound.back
  have hhops : c₁.dijkstra_hops e'.node = k - 1 := by
    rw [hfound.hops, (hroot r hfound.mem hfound.root).1]
    rw [hfound.root, hem', hfirst, hlast] at hlen
    show 0 + fs.length = k - 1
    omega
  have hget : tc_get_node h (lineAddr k) = some (some e'.node) := by
    rw [hr.get_node, he']
    rfl
  have hmain : ∀ {a e}, MpOlsr.resolve g.addrs a = some e → mainAddrOf h a = some (g.mainOf e.node) := by
    intro a e he
    rw [hr.mainAddrOf_eq, he]
    rfl
  have hreports : s.reports (lineAddr 1) (lineAddr k) = true := by
    have hk : tc_k_dijstra s (lineAddr 1) (lineAddr k) = some (some (g.block c₁ e'.node fs 0), _) :=
      Option.bind_eq_some_iff.2 ⟨_, hget, Option.bind_eq_some_iff.2 ⟨_, hreset,
        Option.bind_eq_some_iff.2 ⟨_, hloop 0 [], rfl⟩⟩⟩
    rw [Daemon.reports, hk]
    rfl
  have hto : s.hopsTo (lineAddr 1) (lineAddr k) = some (k - 1) := by
    rw [hem] at hdij
    rw [Daemon.hopsTo, hget]
    refine Option.bind_eq_some_iff.2 ⟨_, rfl, Option.bind_eq_some_iff.2 ⟨_, hreset, ?_⟩⟩
    exact Option.bind_eq_some_iff.2 ⟨_, hdij, congrArg some hhops⟩
  have hturn : s.hopsInTurn (lineAddr 1) (lineAddr k) = some (k - 1) := by
    rw [Daemon.hopsInTurn, hto, hreports]
    rfl
  refine ⟨decide (lineAddr 1 = h.g_local_addr_tab 0), ?_⟩
  show s.inTurn _ _ = _
  rw [Daemon.inTurn, hmain he, hmain he', hem, hem']
  exact Option.bind_eq_some_iff.2 ⟨_, rfl, Option.bind_eq_some_iff.2 ⟨_, rfl,
    Option.bind_eq_some_iff.2 ⟨_, hturn, rfl⟩⟩⟩

/-- On a line of 511 nodes, the lookup from the first node to the last leaves the buffer. -/
theorem line_overflows : ∃ h, handleReads tc_init_data (lineOf 511) = some h ∧
    (⟨h, Scratch.zero, [], 0, ⟨1, 2, 3⟩⟩ : Daemon .ilp32).Sized ∧
    ¬ (⟨h, Scratch.zero, [], 0, ⟨1, 2, 3⟩⟩ : Daemon .ilp32).RespectsBuffer (lineAddr 1) (lineAddr 511) := by
  obtain ⟨h, hrun, hturn⟩ := line_inTurn (k := 511) (by omega) (by omega)
  refine ⟨h, hrun, fun entry hentry => (List.not_mem_nil hentry).elim, fun hresp => ?_⟩
  obtain ⟨b, hb⟩ := hturn 2 3
  have hfits : sizeof_ser_header .ilp32 + 510 * ip_v4_size ≤ MAX_MPOLSR_PATH := hresp.fits hb
  exact absurd hfits (by decide)

/-- On a line of 510 nodes, it does not. -/
theorem respectsBuffer_demo : ∃ h, handleReads tc_init_data (lineOf 510) = some h ∧
    ((⟨h, Scratch.zero, [], 0, ⟨1, 2, 3⟩⟩ : Daemon .ilp32).select (lineAddr 1) (lineAddr 510)).isSome ∧
    (⟨h, Scratch.zero, [], 0, ⟨1, 2, 3⟩⟩ : Daemon .ilp32).RespectsBuffer (lineAddr 1) (lineAddr 510) := by
  obtain ⟨h, g, hrun, hw, -⟩ := lineOf_store (k := 510) (by omega)
  obtain ⟨h', hrun', hturn⟩ := line_inTurn (k := 510) (by omega) (by omega)
  rw [hrun, Option.some_inj] at hrun'
  subst hrun'
  obtain ⟨htotal, hiff⟩ := respectsBuffer_iff (⟨h, Scratch.zero, [], 0, ⟨1, 2, 3⟩⟩ : Daemon .ilp32)
    (fun entry hentry => (List.not_mem_nil hentry).elim) (lineAddr 1) (lineAddr 510)
  refine ⟨h, hrun, htotal rfl ⟨g, hw.toRep⟩, hiff.2 fun v hv => ?_⟩
  obtain ⟨b, hb⟩ := hturn 2 3
  rw [hb] at hv
  cases hv
  show sizeof_ser_header .ilp32 + 509 * ip_v4_size ≤ MAX_MPOLSR_PATH
  decide

end MpOlsr
