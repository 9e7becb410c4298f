import MpOlsr.Paths.Capacity
import MpOlsr.Paths.Events
import MpOlsr.Paths.Trails
import MpOlsr.Topology.CoherentRuns

/-!
# The paths that are handed out

Commands and lookups in any order, where anything may happen between the two sections of a lookup.  All lookups are from
the same main address.  The path that a lookup takes from the cache is always one of the topology, and so is a computed
one, unless one of the two main addresses has become an alias since the first section (`paths_current`): the second
section only keeps the addresses, and `tc_k_dijstra` finds the destination by any of its addresses.
-/

namespace MpOlsr

variable {ws : WordSize}

/-- What a lookup keeps from its first section while it waits for the write lock. -/
structure WaitingLookup (ws : WordSize) where
  srcAddr : ip_v4_addr ws
  dstAddr : ip_v4_addr ws
  src_local : Bool

/-- The daemon, and the lookups that wait for the write lock. -/
structure Lookups (ws : WordSize) where
  daemon : Daemon ws
  waiting : List (WaitingLookup ws)

inductive LookupEvent (ws : WordSize) where
  | handleRead (m : OlsrEventMessage ws)
  | lookup (srcAddr_req dstAddr_req : ip_v4_addr ws)
  /-- a lookup that waits takes the write lock -/
  | compute (i : ℕ)

namespace Lookups

variable (s : Lookups ws)

def init (conf : Conf) : Lookups ws := ⟨Daemon.init conf, []⟩

/-- One section, and the path that is handed out at its end. -/
def run : LookupEvent ws → Option (Option (Selection ws) × Lookups ws)
  | .handleRead m => (s.daemon.handleRead m).map fun daemon => (none, { s with daemon := daemon })
  | .lookup x y => (s.daemon.lookup x y).map fun r =>
    match r.1 with
    | .failed => (none, { s with daemon := r.2 })
    | .cached selection => (some selection, { s with daemon := r.2 })
    | .missing srcAddr dstAddr src_local => (none, ⟨r.2, s.waiting ++ [⟨srcAddr, dstAddr, src_local⟩]⟩)
  | .compute i =>
    match s.waiting[i]? with
    | none => some (none, s)
    | some w => (s.daemon.compute w.srcAddr w.dstAddr w.src_local).map fun r => (r.1, ⟨r.2, s.waiting.eraseIdx i⟩)

def step (s : Lookups ws) (e : LookupEvent ws) : Option (Lookups ws) := (s.run e).map Prod.snd

/-- Commands are careful and give no address to two nodes, lookups are from one main address to another, and the costs
of the paths stay in range. -/
def Assumed (srcAddr : ip_v4_addr ws) (s : Lookups ws) : LookupEvent ws → Prop
  | .handleRead m => careful s.daemon.store m = true ∧ oneOwner s.daemon.store m = true
  | .lookup x y => (∀ a, mainAddrOf s.daemon.store x = some a → a = srcAddr) ∧
      mainAddrOf s.daemon.store y ≠ some srcAddr
  | .compute i => ∀ w, s.waiting[i]? = some w → s.daemon.CostsFit w.srcAddr w.dstAddr

end Lookups

/-- The addresses are those of the nodes after the source on a simple trail to the destination. -/
def CurrentPath (h : Store ws) (srcAddr dstAddr : ip_v4_addr ws) (addrs : List (ip_v4_addr ws)) : Prop :=
  ∃ r d es, mainAddrIp h r = some srcAddr ∧ SimpleTrail h r d es ∧
    (es.map fun e => mainAddrIp h e.2) = addrs.map some ∧ addrs.getLast? = some dstAddr

/-- The buffer of a lookup that returns 0 holds the header and the addresses. -/
def PathResult.Holds (r : PathResult ws) (header : SerHeader ws) (addrs : List (ip_v4_addr ws)) : Prop :=
  FitsBuffer ws addrs.length ∧ r.size = sizeof_ser_header ws + 4 * addrs.length ∧
    r.path_data.take r.size = { header with version := MPOLSR_VERSION, hops := addrs.length, cur := 1 }.bytes ++
      addrs.flatMap fun a => Bytes.leBytes ip_v4_size a.toNat

/-- The selected path is one of the topology, and so is what `pth_copy_path` makes of it. -/
def Daemon.HandsOut (s : Daemon ws) (p : Selection ws) : Prop :=
  ∃ addrs, CurrentPath s.store p.srcAddr p.dstAddr addrs ∧
    p.path.toOlsrPath = ⟨addrs.length, addrs.flatMap fun a => Bytes.leBytes ip_v4_size a.toNat⟩ ∧
    ∀ path_data size nextHop header r, path_data.length = MAX_MPOLSR_PATH →
      s.copySelection path_data size nextHop header (some p) = some r → r.ret = 0 → r.Holds header addrs

/-- Links lead from the node that one address finds to the node that another one finds. -/
def Reachable (h : Store ws) (srcAddr dstAddr : ip_v4_addr ws) : Prop :=
  ∃ n m es, tc_get_node h srcAddr = some (some n) ∧ tc_get_node h dstAddr = some (some m) ∧ Trail h n m es

namespace Lookups

/-- The selection is for the main addresses that the lookup has found. -/
def IsFor (s : Lookups ws) (e : LookupEvent ws) (p : Selection ws) : Prop :=
  match e with
  | .handleRead _ => False
  | .lookup x y => mainAddrOf s.daemon.store x = some p.srcAddr ∧ mainAddrOf s.daemon.store y = some p.dstAddr
  | .compute i => ∃ w, s.waiting[i]? = some w ∧ w.srcAddr = p.srcAddr ∧ w.dstAddr = p.dstAddr

/-- A path that is handed out is one of the topology, and a computation finds a path if there is one. -/
structure Answers (s : Lookups ws) (e : LookupEvent ws) (handed : Option (Selection ws)) (s' : Lookups ws) :
    Prop where
  current : ∀ p, handed = some p → s.IsFor e p ∧ s'.daemon.HandsOut p
  found : ∀ i w, e = .compute i → s.waiting[i]? = some w → Reachable s.daemon.store w.srcAddr w.dstAddr →
    handed.isSome = true

/-- Where the main addresses of a lookup that waits still find nodes, and links lead from one to the other, they are the
main addresses of these nodes. -/
def Settled (s : Lookups ws) : LookupEvent ws → Prop
  | .compute i => ∀ w, s.waiting[i]? = some w → ∀ n m es, tc_get_node s.daemon.store w.srcAddr = some (some n) →
      tc_get_node s.daemon.store w.dstAddr = some (some m) → Trail s.daemon.store n m es →
      mainAddrIp s.daemon.store n = some w.srcAddr ∧ mainAddrIp s.daemon.store m = some w.dstAddr
  | _ => True

/-- The invariant of the runs.  A path of the cache leads to the node whose main address its entry is for, if there is
such a node. -/
structure Sound (srcAddr : ip_v4_addr ws) (conf : Conf) (s : Lookups ws) (g : Shape ws) : Prop where
  wellFormed : WellFormed s.daemon.store g
  owners : OneOwner g.addrs
  conf_eq : s.daemon.conf = conf
  zero : g.FromZero srcAddr s.daemon.scratch
  cached : ∀ entry ∈ s.daemon.g_path_buffer, ∀ path ∈ entry.lst_path, ∃ d,
    g.Leads entry.src_addr_ip d path.toOlsrPath ∧ ∀ n ∈ g.nodes, g.mainOf n = entry.dst_addr_ip → n = d
  waiting : ∀ w ∈ s.waiting, w.srcAddr = srcAddr ∧ w.dstAddr ≠ srcAddr

end Lookups

/-! ### Commands -/

section Commands

variable {h : Store ws} {g : Shape ws}

/-- A command that does not reset the cache keeps the nodes, their main addresses, and the links. -/
theorem Rep.act_keeps (hr : Rep h g) {m : OlsrEventMessage ws} (hm : careful h m = true) (hf : flushes h m = false) :
    (g.act h.brk m).nodes = g.nodes ∧ (g.act h.brk m).links = g.links ∧
      ∀ n ∈ g.nodes, (g.act h.brk m).mainOf n = g.mainOf n := by
  have hkeep : (g.act h.brk m).nodes = g.nodes ∧ (g.act h.brk m).links = g.links := by
    cases m with
    | DEV_CMD_RESET_TC => cases hf
    | DEV_CMD_ADD_NODE a =>
      rw [flushes, hr.get_node] at hf
      cases ha : resolve g.addrs a with
      | none =>
        rw [ha] at hf
        cases hf
      | some e => simp only [Shape.act, ha, and_self]
    | DEV_CMD_REMOVE_NODE a =>
      rw [flushes, hr.get_node] at hf
      cases ha : resolve g.addrs a with
      | none => simp only [Shape.act, ha, and_self]
      | some e =>
        rw [ha] at hf
        cases hf
    | DEV_CMD_ADD_LINK s d c => cases hf
    | DEV_CMD_REMOVE_LINK s d => cases hf
    | DEV_CMD_ADD_ALIAS a b =>
      rw [Shape.act]
      split
      · exact ⟨rfl, rfl⟩
      · split
        · exact ⟨rfl, rfl⟩
        · exact ⟨rfl, rfl⟩
    | DEV_CMD_REMOVE_ALIAS a b =>
      rw [Shape.act]
      split
      · exact ⟨rfl, rfl⟩
      · exact ⟨rfl, rfl⟩
    | DEV_CMD_SET_LOCAL_ADDR a k => exact ⟨rfl, rfl⟩
    | DEV_CMD_SET_ALIAS_ADDR a k => exact ⟨rfl, rfl⟩
  refine ⟨hkeep.1, hkeep.2, fun n hn => ?_⟩
  rcases hr.act_node hm (hkeep.1 ▸ hn) with ⟨-, hmain⟩ | ⟨rfl, -⟩
  · exact hmain
  · exact (hr.fresh_node hn).elim

/-- The nodes with the source address still have no hops: a new node has none. -/
theorem Rep.fromZero_act (hr : Rep h g) {m : OlsrEventMessage ws} (hm : careful h m = true) {srcAddr : ip_v4_addr ws}
    {c : Scratch ws} (hzero : g.FromZero srcAddr c) : (g.act h.brk m).FromZero srcAddr (c.clearFrom h.brk) := by
  intro r hrn hroot
  rcases hr.act_node hm hrn with ⟨hold, hmain⟩ | ⟨rfl, -⟩
  · exact (if_pos (hr.nodesRep.bound r hold)).trans (hzero r hold (hmain.symm.trans hroot))
  · exact if_neg (Nat.lt_irrefl _)

end Commands

/-! ### Paths that lead to a node -/

section Leads

variable {h : Store ws} {g : Shape ws}

/-- A path to a node with another main address than the source is handed out as a path of the topology. -/
theorem Shape.Leads.handsOut {s : Daemon ws} (hr : Rep s.store g) {a : ip_v4_addr ws} {d : Ptr} {path : PathBlock}
    (hp : g.Leads a d path.toOlsrPath) (hne : g.mainOf d ≠ a) (src_local : Bool) :
    s.HandsOut ⟨a, g.mainOf d, src_local, path⟩ := by
  obtain ⟨r, hrn, hroot, es, hw, hnodup, hpath⟩ := hp
  have hmem := (hr.walk_mem hrn hw).2
  let addrs := es.map fun l => g.mainOf l.dst
  have hlen : addrs.length = es.length := List.length_map _
  have hbytes : g.hopBytes es = addrs.flatMap fun a => Bytes.leBytes ip_v4_size a.toNat := by
    rw [List.flatMap_map]
    rfl
  have hlast : addrs.getLast? = some (g.mainOf d) := by
    cases hw with
    | nil => exact (hne hroot).elim
    | @snoc v l es _ _ =>
      show ((es ++ [l]).map fun l => g.mainOf l.dst).getLast? = _
      rw [List.map_append, List.map_singleton, List.getLast?_concat]
      rfl
  have htrail : SimpleTrail s.store r d (es.map LinkInfo.step) := by
    refine ⟨(hr.trail_iff _).2 ⟨es, hw, rfl⟩, ?_⟩
    rw [map_step_snd]
    exact hnodup
  have hmains : ((es.map LinkInfo.step).map fun e => mainAddrIp s.store e.2) = addrs.map some := by
    rw [List.map_map, List.map_map]
    exact List.map_congr_left fun l hl => hr.mainAddrIp_eq (hmem l hl)
  refine ⟨addrs, ⟨r, d, _, by rw [hr.mainAddrIp_eq hrn, hroot], htrail, hmains, hlast⟩, ?_, ?_⟩
  · rw [hpath, hlen, hbytes]
  · intro path_data size nextHop header res hmax hcopy hret
    have hcopy : pth_copy_path s.node path.toOlsrPath path_data nextHop src_local header = some res := hcopy
    have hroom := length_of_copy hcopy
    obtain ⟨b, c, junk, rfl, hb, hc⟩ := Bytes.exists_split hroom
    have hpos : 0 < es.length := by
      rw [← hlen]
      exact List.length_pos_of_mem (List.mem_of_mem_getLast? hlast)
    have hsized : path.toOlsrPath.Sized := by
      rw [OlsrPath.Sized, hpath]
      show (g.hopBytes es).length = es.length * ip_v4_size
      rw [Shape.hopBytes, List.length_flatMap]
      simp
    have hfirst : ip_v4_size ≤ (path.path ++ junk).length := by
      have hsized : path.path.length = path.path_hops * ip_v4_size := hsized
      have hhops : path.path_hops = es.length := congrArg OlsrPath.path_hops hpath
      rw [List.length_append, hsized, hhops]
      exact Nat.le_add_right_of_le (Nat.le_mul_of_pos_left _ hpos)
    rw [pth_copy_path_eq s.node hsized nextHop src_local header hb hc (List.length_take_of_le hfirst)
      (List.take_append_drop _ _).symm, Option.some_inj] at hcopy
    subst hcopy
    have hhops : path.path_hops = addrs.length := (congrArg OlsrPath.path_hops hpath).trans hlen.symm
    have hdata : path.path = addrs.flatMap fun a => Bytes.leBytes ip_v4_size a.toNat :=
      (congrArg OlsrPath.path hpath).trans hbytes
    have hsize : path.path_hops * ip_v4_size + sizeof_ser_header ws =
        (SerHeader.bytes { header with version := MPOLSR_VERSION, hops := path.path_hops, cur := 1 } ++
          path.path).length := by
      rw [List.length_append, SerHeader.length_bytes, hsized]
      exact Nat.add_comm _ _
    refine ⟨?_, ?_, ?_⟩
    · rw [FitsBuffer, ← hhops, ← hmax]
      exact hroom
    · show path.path_hops * ip_v4_size + sizeof_ser_header ws = sizeof_ser_header ws + 4 * addrs.length
      rw [hhops, Nat.add_comm, Nat.mul_comm]
      rfl
    · show List.take (path.path_hops * ip_v4_size + sizeof_ser_header ws) _ = _
      rw [← List.append_assoc, hsize, List.take_left, hhops, hdata]

/-- The bytes of a path tell the main address of the node where it leads. -/
theorem Shape.Leads.last_eq {g : Shape .ilp32} {a b : ip_v4_addr .ilp32} {d : Ptr}
    {addrs : List (ip_v4_addr .ilp32)} (hlast : addrs.getLast? = some b)
    (hp : g.Leads a d ⟨addrs.length, addrs.flatMap fun a => Bytes.leBytes ip_v4_size a.toNat⟩) : g.mainOf d = b := by
  obtain ⟨r, -, -, es, hw, -, hpath⟩ := hp
  obtain ⟨hlen, hbytes⟩ := OlsrPath.mk.inj hpath
  obtain ⟨init, rfl⟩ := List.getLast?_eq_some_iff.1 hlast
  cases hw with
  | nil => simp at hlen
  | @snoc v l es _ _ =>
    rw [Shape.hopBytes, List.flatMap_append, List.flatMap_append, List.flatMap_singleton, List.flatMap_singleton] at hbytes
    obtain ⟨-, hend⟩ := List.append_inj' hbytes (by simp)
    have hval := congrArg Bytes.ofLe hend
    rw [Bytes.ofLe_leBytes, Bytes.ofLe_leBytes] at hval
    have hb := b.isLt
    have hl := (g.mainOf l.dst).isLt
    have hval : b.toNat % 4294967296 = (g.mainOf l.dst).toNat % 4294967296 := hval
    have hb : b.toNat < 4294967296 := hb
    have hl : (g.mainOf l.dst).toNat < 4294967296 := hl
    exact BitVec.eq_of_toNat_eq (by rw [Nat.mod_eq_of_lt hb, Nat.mod_eq_of_lt hl] at hval; exact hval.symm)

/-- Where an address has one owner, the main address of a node finds the node. -/
theorem Rep.get_main (hr : Rep h g) (ho : OneOwner g.addrs) {n : Ptr} (hn : n ∈ g.nodes) :
    tc_get_node h (g.mainOf n) = some (some n) := by
  obtain ⟨e, he, hnode, -, haddr⟩ := hr.mainEntry hn
  rw [hr.get_node]
  cases hres : resolve g.addrs (g.mainOf n) with
  | none => exact (resolve_eq_none.1 hres e he haddr).elim
  | some e' =>
    obtain ⟨he', haddr'⟩ := resolve_mem hres
    rw [Option.map_some, ho e' he' e he (haddr'.trans haddr.symm), hnode]

end Leads

/-! ### One section -/

namespace Lookups

variable {s : Lookups .ilp32} {g : Shape .ilp32} {srcAddr : ip_v4_addr .ilp32} {conf : Conf}

theorem Sound.handleRead (hs : Sound srcAddr conf s g) {m : OlsrEventMessage .ilp32}
    (hm : s.Assumed srcAddr (.handleRead m)) : ∃ daemon, s.daemon.handleRead m = some daemon ∧
      Sound srcAddr conf { s with daemon := daemon } (g.act s.daemon.store.brk m) := by
  have hr := hs.wellFormed.toRep
  obtain ⟨hcare, hone⟩ := hm
  obtain ⟨h', hrun, hw'⟩ := handleRead_wellFormed hs.wellFormed hcare
  refine ⟨_, congrArg _ hrun, hw', hr.oneOwner_act hs.owners hone, hs.conf_eq, hr.fromZero_act hcare hs.zero, ?_,
    hs.waiting⟩
  intro entry hentry path hpath
  cases hf : flushes s.daemon.store m with
  | true =>
    simp only [hf, if_true] at hentry
    exact (List.not_mem_nil hentry).elim
  | false =>
    simp only [hf, Bool.false_eq_true, if_false] at hentry
    obtain ⟨hnodes, hlinks, hmain⟩ := hr.act_keeps hcare hf
    obtain ⟨d, hleads, hend⟩ := hs.cached entry hentry path hpath
    refine ⟨d, hleads.congr hr hnodes hlinks hmain, fun n hn hnd => hend n (hnodes ▸ hn) ?_⟩
    rw [← hmain n (hnodes ▸ hn), hnd]

/-- The lookup in the cache: a path that is handed out leads to the node of the destination. -/
theorem Sound.lookup (hs : Sound srcAddr conf s g) {x y : ip_v4_addr .ilp32}
    (hxy : s.Assumed srcAddr (.lookup x y)) : ∃ handed s', s.run (.lookup x y) = some (handed, s') ∧
      Sound srcAddr conf s' g ∧ ∀ p, handed = some p → s.IsFor (.lookup x y) p ∧ s'.daemon.HandsOut p := by
  have hr := hs.wellFormed.toRep
  obtain ⟨hsrc, hdst⟩ := hxy
  rw [run, lookup_spec hr]
  cases hx : mainAddrOf s.daemon.store x with
  | none => exact ⟨none, s, rfl, hs, fun p hp => (by cases hp)⟩
  | some a =>
    cases hy : mainAddrOf s.daemon.store y with
    | none => exact ⟨none, s, rfl, hs, fun p hp => (by cases hp)⟩
    | some b =>
      obtain rfl := hsrc a hx
      have hba : b ≠ a := fun hba => hdst (hba ▸ hy)
      simp only [Daemon.answer]
      cases hring : s.daemon.ring a b with
      | none =>
        refine ⟨none, _, rfl, ⟨hs.wellFormed, hs.owners, hs.conf_eq, hs.zero, hs.cached, fun w hw => ?_⟩,
          fun p hp => (by cases hp)⟩
        rcases List.mem_append.1 hw with hw | hw
        · exact hs.waiting w hw
        · rw [List.mem_singleton.1 hw]
          exact ⟨rfl, hba⟩
      | some ring =>
        cases ring with
        | nil => exact ⟨none, s, rfl, hs, fun p hp => (by cases hp)⟩
        | cons path ring =>
          refine ⟨_, _, rfl, ⟨hs.wellFormed, hs.owners, hs.conf_eq, hs.zero, fun entry hentry q hq => ?_, hs.waiting⟩,
            fun p hp => ?_⟩
          · obtain ⟨entry', hentry', hmem, hsrc', hdst'⟩ := mem_nextPathFor hentry hq
            rw [← hsrc', ← hdst']
            exact hs.cached entry' hentry' q hmem
          · obtain rfl := Option.some_inj.1 hp
            refine ⟨⟨hx, hy⟩, ?_⟩
            obtain ⟨entry, hfind, hpaths⟩ := Option.map_eq_some_iff.1 hring
            have hfor := List.find?_some (p := fun entry : PathBuffer .ilp32 => entry.isFor a b) hfind
            obtain ⟨hea, heb⟩ := of_decide_eq_true hfor
            obtain ⟨d, hleads, hend⟩ := hs.cached entry (List.mem_of_find?_eq_some hfind) path
              (hpaths ▸ List.mem_cons_self)
            rw [hea] at hleads
            rw [heb] at hend
            -- the node of the destination has the main address that the entry is for
            rw [hr.mainAddrOf_eq] at hy
            obtain ⟨e, he, hmain⟩ := Option.map_eq_some_iff.1 hy
            obtain rfl := hend e.node (hr.resolve_node he) hmain
            subst hmain
            exact hleads.handsOut hr hba _

/-- The computation: it answers the lookup if and only if the main addresses have not become aliases. -/
theorem Sound.compute (hs : Sound srcAddr conf s g) (hconf : 1 ≤ conf.g_conf_path) {i : ℕ}
    (hi : s.Assumed srcAddr (.compute i)) : ∃ handed s', s.run (.compute i) = some (handed, s') ∧
      Sound srcAddr conf s' g ∧ (s.Answers (.compute i) handed s' ↔ s.Settled (.compute i)) := by
  have hr := hs.wellFormed.toRep
  rw [run]
  cases hw : s.waiting[i]? with
  | none =>
    refine ⟨none, s, rfl, hs, iff_of_true ⟨fun p hp => (by cases hp), fun j w hj hjw => ?_⟩ fun w hiw => ?_⟩
    · cases hj
      rw [hw] at hjw
      cases hjw
    · rw [hw] at hiw
      cases hiw
  | some w =>
    obtain ⟨a, b, src_local⟩ := w
    obtain ⟨rfl, hba⟩ := hs.waiting _ (List.mem_of_getElem? hw)
    obtain ⟨path, ring, c, brk, hk, hzero, hpath, hleads, hfound⟩ :=
      tc_k_dijstra_leads hs.wellFormed hs.zero b
    have hcompute : s.daemon.compute a b src_local = some (path.map fun p => ⟨a, b, src_local, p⟩, _) :=
      Option.map_eq_some_iff.2 ⟨_, hk, rfl⟩
    refine ⟨_, _, Option.map_eq_some_iff.2 ⟨_, hcompute, rfl⟩, ⟨hs.wellFormed, hs.owners, hs.conf_eq, hzero, ?_, fun w hw => ?_⟩, ?_⟩
    · intro entry hentry p hp
      rcases List.mem_cons.1 hentry with rfl | hentry
      · obtain ⟨e, he, hlead⟩ := hleads p hp
        refine ⟨e.node, hlead, fun n hn hnb => ?_⟩
        have hget := hr.get_main hs.owners hn
        rw [hnb, hr.get_node, he] at hget
        exact (Option.some_inj.1 (Option.some_inj.1 hget)).symm
      · exact hs.cached entry hentry p hp
    · exact hs.waiting w (List.mem_of_mem_eraseIdx hw)
    · have hreach : ∀ n m es, tc_get_node s.daemon.store a = some (some n) →
          tc_get_node s.daemon.store b = some (some m) → Trail s.daemon.store n m es → n ∈ g.nodes ∧
          ∃ e, resolve g.addrs b = some e ∧ m = e.node ∧ ∃ ls, Dijkstra.Walk (g.graph fun _ => 0) n e.node ls := by
        intro n m es hn hm ht
        rw [hr.get_node, Option.some_inj] at hn hm
        obtain ⟨e', he', rfl⟩ := Option.map_eq_some_iff.1 hn
        obtain ⟨e, he, rfl⟩ := Option.map_eq_some_iff.1 hm
        obtain ⟨ls, hwalk, -⟩ := (hr.trail_iff _).1 ht
        exact ⟨hr.resolve_node he', e, he, rfl, ls, hwalk⟩
      constructor
      · intro hans w hiw n m es hn hm ht
        rw [hw, Option.some_inj] at hiw
        subst hiw
        obtain ⟨hnode, e, he, rfl, ls, hwalk⟩ := hreach n m es hn hm ht
        have hsome := hans.found i _ rfl hw ⟨n, _, es, hn, hm, ht⟩
        obtain ⟨p, hp⟩ := Option.isSome_iff_exists.1 hsome
        obtain ⟨q, rfl, rfl⟩ := Option.map_eq_some_iff.1 hp
        obtain ⟨-, addrs, ⟨-, -, -, -, -, -, hlast⟩, hdata, -⟩ := hans.current _ hp
        obtain ⟨e₁, he₁, hlead⟩ := hleads q (hpath q rfl)
        obtain rfl := Option.some_inj.1 (he.symm.trans he₁)
        have hdata : q.toOlsrPath = ⟨addrs.length, addrs.flatMap fun a => Bytes.leBytes ip_v4_size a.toNat⟩ := hdata
        obtain ⟨r, hrn, hroot, -⟩ := id hlead
        have hget := hr.get_main hs.owners hrn
        rw [hroot, hn, Option.some_inj, Option.some_inj] at hget
        subst hget
        refine ⟨by rw [hr.mainAddrIp_eq hrn, hroot], ?_⟩
        rw [hr.mainAddrIp_eq (hr.resolve_node he), Shape.Leads.last_eq hlast (hdata ▸ hlead)]
      · intro hset
        refine ⟨fun p hp => ?_, fun j w hj hjw hw' => ?_⟩
        · obtain ⟨q, rfl, rfl⟩ := Option.map_eq_some_iff.1 hp
          obtain ⟨e, he, hlead⟩ := hleads q (hpath q rfl)
          obtain ⟨r, hrn, hroot, es, hwalk, -⟩ := id hlead
          have hsrc := hr.get_main hs.owners hrn
          rw [hroot] at hsrc
          have hdst : tc_get_node s.daemon.store b = some (some e.node) := by
            rw [hr.get_node, he]
            rfl
          obtain ⟨-, hmain⟩ := hset _ hw r e.node _ hsrc hdst ((hr.trail_iff _).2 ⟨es, hwalk, rfl⟩)
          rw [hr.mainAddrIp_eq (hr.resolve_node he), Option.some_inj] at hmain
          refine ⟨⟨_, hw, rfl, rfl⟩, ?_⟩
          have hmain : g.mainOf e.node = b := hmain
          subst hmain
          exact hlead.handsOut hr hba src_local
        · cases hj
          rw [hw, Option.some_inj] at hjw
          subst hjw
          obtain ⟨n, m, es, hn, hm, ht⟩ := hw'
          obtain ⟨hnode, e, he, rfl, ls, hwalk⟩ := hreach n m es hn hm ht
          obtain ⟨hmain, -⟩ := hset _ hw n _ es hn hm ht
          rw [hr.mainAddrIp_eq hnode, Option.some_inj] at hmain
          rw [Option.isSome_map]
          exact hfound n e ls hnode hmain he hwalk (hi _ hw) (hs.conf_eq ▸ hconf)

/-- One section returns and keeps the invariant, and answers the lookup if and only if it is settled. -/
theorem Sound.run (hs : Sound srcAddr conf s g) (hconf : 1 ≤ conf.g_conf_path) {e : LookupEvent .ilp32}
    (he : s.Assumed srcAddr e) : ∃ handed s' g', s.run e = some (handed, s') ∧ Sound srcAddr conf s' g' ∧
      (s.Answers e handed s' ↔ s.Settled e) := by
  cases e with
  | handleRead m =>
    obtain ⟨daemon, hrun, hs'⟩ := hs.handleRead he
    refine ⟨none, _, _, Option.map_eq_some_iff.2 ⟨_, hrun, rfl⟩, hs', iff_of_true ⟨?_, ?_⟩ trivial⟩
    · intro p hp
      cases hp
    · intro i w hi
      cases hi
  | lookup x y =>
    obtain ⟨handed, s', hrun, hs', hcurrent⟩ := hs.lookup he
    exact ⟨handed, s', g, hrun, hs', iff_of_true ⟨hcurrent, fun i w hi => (by cases hi)⟩ trivial⟩
  | compute i =>
    obtain ⟨handed, s', hrun, hs', hiff⟩ := hs.compute hconf he
    exact ⟨handed, s', g, hrun, hs', hiff⟩

theorem Sound.init (srcAddr : ip_v4_addr .ilp32) (conf : Conf) :
    Sound srcAddr conf (Lookups.init conf) ⟨[], [], []⟩ where
  wellFormed := WellFormed.init
  owners := fun _ he => (List.not_mem_nil he).elim
  conf_eq := rfl
  zero := fun _ hr => (List.not_mem_nil hr).elim
  cached := fun _ hentry => (List.not_mem_nil hentry).elim
  waiting := fun _ hw => (List.not_mem_nil hw).elim

end Lookups

/-! ### Runs -/

open Simulation

theorem reached_sound {conf : Conf} (hconf : 1 ≤ conf.g_conf_path) {srcAddr : ip_v4_addr .ilp32} {s : Lookups .ilp32}
    (hs : Reached Lookups.step (Lookups.Assumed srcAddr) (Lookups.init conf) s) :
    ∃ g, Lookups.Sound srcAddr conf s g := by
  refine hs.invariant (P := fun s => ∃ g, Lookups.Sound srcAddr conf s g) ⟨_, .init srcAddr conf⟩ ?_
  rintro s m s' ⟨g, hg⟩ hm hstep
  obtain ⟨handed, t, g', hrun, hg', -⟩ := hg.run hconf hm
  rw [Lookups.step, hrun, Option.map_some, Option.some_inj] at hstep
  exact ⟨g', hstep ▸ hg'⟩

/-- Whatever commands and lookups came before, every section returns, a path from the cache is one of the topology, and
a computation answers its lookup if and only if the main addresses found in the first section have not become aliases:
the path handed out is one of the topology, and there is one if the destination can be reached. -/
theorem paths_current (conf : Conf) (hconf : 1 ≤ conf.g_conf_path) (srcAddr : ip_v4_addr .ilp32)
    {s : Lookups .ilp32} (hs : Reached Lookups.step (Lookups.Assumed srcAddr) (Lookups.init conf) s)
    {e : LookupEvent .ilp32} (he : s.Assumed srcAddr e) :
    ∃ handed s', s.run e = some (handed, s') ∧ (s.Answers e handed s' ↔ s.Settled e) := by
  obtain ⟨g, hg⟩ := reached_sound hconf hs
  obtain ⟨handed, s', g', hrun, -, hiff⟩ := hg.run hconf he
  exact ⟨handed, s', hrun, hiff⟩

/-- The events of a run without computations, as far as they can be tested. -/
def Lookups.assumed (srcAddr : ip_v4_addr ws) (s : Lookups ws) : LookupEvent ws → Bool
  | .handleRead m => careful s.daemon.store m && oneOwner s.daemon.store m
  | .lookup x y => decide (mainAddrOf s.daemon.store x = some srcAddr ∧ mainAddrOf s.daemon.store y ≠ some srcAddr)
  | .compute _ => false

theorem Lookups.assumed_sound {srcAddr : ip_v4_addr ws} (s : Lookups ws) (e : LookupEvent ws)
    (he : s.assumed srcAddr e = true) : s.Assumed srcAddr e := by
  cases e with
  | handleRead m => exact Bool.and_eq_true_iff.1 he
  | lookup x y =>
    obtain ⟨hx, hy⟩ := of_decide_eq_true he
    exact ⟨fun a ha => Option.some_inj.1 (ha.symm.trans hx), hy⟩
  | compute i => cases he

/-- A computation of one path may be made where the links are cheap. -/
theorem Lookups.Sound.assumed_compute {s : Lookups .ilp32} {g : Shape .ilp32} {srcAddr : ip_v4_addr .ilp32}
    {conf : Conf} (hs : Sound srcAddr conf s g) (hone : conf.g_conf_path = 1) (i : ℕ)
    (hm : ∀ p < s.daemon.store.brk, ((s.daemon.store.link_blocks p).all fun b => b.cost.toNat ≤ 1) = true)
    (hbrk : s.daemon.store.brk < 4294967295) : s.Assumed srcAddr (.compute i) := by
  intro w _
  have hr := hs.wellFormed.toRep
  refine Daemon.costsFit_of_costs hr (hs.conf_eq ▸ hone) (m := 1) (fun l hl => ?_) ?_ _ _
  · have hl' := hm l.name (hr.linksRep.bound l hl)
    rw [hr.linksRep.blocks l hl] at hl'
    exact of_decide_eq_true hl'
  · rw [Nat.mul_one]
    exact hbrk

/-- A lookup from the local node 17 for the alias 21 of its neighbour 18. -/
def aliasLookup : List (LookupEvent .ilp32) :=
  [.handleRead (.DEV_CMD_SET_LOCAL_ADDR 17 240), .handleRead (.DEV_CMD_ADD_NODE 17), .handleRead (.DEV_CMD_ADD_NODE 18),
    .handleRead (.DEV_CMD_ADD_ALIAS 18 21), .handleRead (.DEV_CMD_ADD_LINK 17 18 1), .lookup 17 21]

/-- One lookup waits, all links are cheap, and there are few blocks. -/
def Lookups.ready (s : Lookups .ilp32) (srcAddr dstAddr : ip_v4_addr .ilp32) : Bool :=
  (s.waiting.map fun w => (w.srcAddr, w.dstAddr)) = [(srcAddr, dstAddr)] ∧ s.daemon.store.brk < 4294967295 ∧
    ∀ p < s.daemon.store.brk, ((s.daemon.store.link_blocks p).all fun b => b.cost.toNat ≤ 1) = true

/-- The state before a computation of one path. -/
theorem Lookups.ready_spec (events : List (LookupEvent .ilp32)) (a b : ip_v4_addr .ilp32) (fe fp : ℤ)
    (hok : guarded step (Lookups.assumed a) (init ⟨1, fe, fp⟩) events = true)
    (hready : (events.foldlM step (init ⟨1, fe, fp⟩)).any (fun s => s.ready a b) = true) :
    ∃ s loc, events.foldlM step (init ⟨1, fe, fp⟩) = some s ∧ s.waiting = [⟨a, b, loc⟩] ∧
      Reached step (Lookups.Assumed a) (init ⟨1, fe, fp⟩) s ∧ s.Assumed a (.compute 0) := by
  obtain ⟨s, hrun, hs⟩ := (Option.any_eq_true _ _).1 hready
  obtain ⟨hwaiting, hbrk, hcheap⟩ := of_decide_eq_true hs
  have hreached := Reached.of_guarded assumed_sound .start hok hrun
  obtain ⟨g, hg⟩ := reached_sound (Int.le_refl 1) hreached
  have hone : ∃ loc, s.waiting = [⟨a, b, loc⟩] := by
    cases hw : s.waiting with
    | nil =>
      rw [hw] at hwaiting
      cases hwaiting
    | cons w ws =>
      rw [hw, List.map_cons] at hwaiting
      obtain ⟨hhead, htail⟩ := List.cons.inj hwaiting
      obtain ⟨srcAddr, dstAddr, loc⟩ := w
      obtain ⟨rfl, rfl⟩ := Prod.mk.inj hhead
      rw [List.map_eq_nil_iff.1 htail]
      exact ⟨loc, rfl⟩
  obtain ⟨loc, hone⟩ := hone
  exact ⟨s, loc, hrun, hone, hreached, hg.assumed_compute rfl 0 hcheap hbrk⟩

/-- The lookup from the local node for the alias of its neighbour is handed the link to the neighbour. -/
theorem paths_current_demo : ∃ (s s' : Lookups .ilp32) (p : Selection .ilp32),
    aliasLookup.foldlM Lookups.step (Lookups.init ⟨1, 2, 3⟩) = some s ∧ s.run (.compute 0) = some (some p, s') ∧
    p.dstAddr = 18 ∧ s'.daemon.HandsOut p := by
  obtain ⟨s, loc, hrun, hwaiting, hreached, hassumed⟩ := Lookups.ready_spec aliasLookup 17 18 2 3
    (by decide) (by decide)
  obtain ⟨handed, s', hcompute, hiff⟩ := paths_current ⟨1, 2, 3⟩ (Int.le_refl 1) 17 hreached hassumed
  have hget : (aliasLookup.foldlM Lookups.step (Lookups.init ⟨1, 2, 3⟩)).any (fun s =>
      tc_get_node s.daemon.store 17 = some (some 0) ∧ tc_get_node s.daemon.store 18 = some (some 2) ∧
      mainAddrIp s.daemon.store 0 = some 17 ∧ mainAddrIp s.daemon.store 2 = some 18 ∧
      (s.daemon.store.link_blocks 5).any (fun b => b.src_node = some 0 ∧ b.dst_node = some 2)) = true := by
    decide
  rw [hrun, Option.any_some] at hget
  obtain ⟨hsrc, hdst, hmain, hmain', hlink⟩ := of_decide_eq_true hget
  obtain ⟨b, hb, hends⟩ := (Option.any_eq_true _ _).1 hlink
  obtain ⟨hb₁, hb₂⟩ := of_decide_eq_true hends
  have hsettled : s.Settled (.compute 0) := by
    intro w hw n m es hn hm _
    rw [hwaiting] at hw
    cases hw
    rw [hsrc] at hn
    rw [hdst] at hm
    cases hn
    cases hm
    exact ⟨hmain, hmain'⟩
  have hanswers := hiff.2 hsettled
  have hfound := hanswers.found 0 ⟨17, 18, loc⟩ rfl (by rw [hwaiting]; rfl)
    ⟨0, 2, _, hsrc, hdst, .snoc .nil hb hb₁ hb₂⟩
  obtain ⟨p, rfl⟩ := Option.isSome_iff_exists.1 hfound
  obtain ⟨⟨w, hw, -, hdstAddr⟩, hout⟩ := hanswers.current p rfl
  rw [hwaiting] at hw
  cases hw
  exact ⟨s, s', p, hrun, hcompute, hdstAddr.symm, hout⟩

/-- Before the second section, the neighbour is removed, its main address becomes an alias of a new neighbour 19, and
its alias a node of its own. -/
def reboundLookup : List (LookupEvent .ilp32) :=
  aliasLookup ++ [.handleRead (.DEV_CMD_REMOVE_NODE 18), .handleRead (.DEV_CMD_ADD_NODE 19),
    .handleRead (.DEV_CMD_ADD_NODE 21), .handleRead (.DEV_CMD_ADD_ALIAS 19 18), .handleRead (.DEV_CMD_ADD_LINK 17 19 1)]

/-- The lookup returns 0 with the path to 19, which is not the main address 18 that the lookup has found, nor that of the
node that has the address asked for. -/
theorem paths_misdirected : ∃ (s s' : Lookups .ilp32) (p : Selection .ilp32) (r : PathResult .ilp32),
    reboundLookup.foldlM Lookups.step (Lookups.init ⟨1, 2, 3⟩) = some s ∧
    Reached Lookups.step (Lookups.Assumed 17) (Lookups.init ⟨1, 2, 3⟩) s ∧ s.Assumed 17 (.compute 0) ∧
    s.run (.compute 0) = some (some p, s') ∧ p.dstAddr = 18 ∧ mainAddrOf s'.daemon.store 21 = some 21 ∧
    s'.daemon.copySelection (List.replicate MAX_MPOLSR_PATH 0) MAX_MPOLSR_PATH 0 ⟨0, 0, 0, 0, 0, 0⟩ (some p) = some r ∧
    r.ret = 0 ∧ r.size = sizeof_ser_header .ilp32 + 4 ∧
    (r.path_data.drop (sizeof_ser_header .ilp32)).take 4 = Bytes.leBytes 4 19 ∧ ¬ s'.daemon.HandsOut p := by
  obtain ⟨s, loc, hrun, -, hreached, hassumed⟩ := Lookups.ready_spec reboundLookup 17 18 2 3
    (by decide) (by decide)
  have hrest : ((reboundLookup.foldlM Lookups.step (Lookups.init ⟨1, 2, 3⟩)).bind fun s => s.run (.compute 0)).any
      (fun t => t.1.any fun p => p.dstAddr = 18 ∧ mainAddrOf t.2.daemon.store 21 = some 21 ∧
        p.path.path_hops = 1 ∧ p.path.path = Bytes.leBytes 4 19 ∧
        (t.2.daemon.copySelection (List.replicate MAX_MPOLSR_PATH 0) MAX_MPOLSR_PATH 0 ⟨0, 0, 0, 0, 0, 0⟩
          (some p)).any fun r => r.ret = 0 ∧ r.size = sizeof_ser_header .ilp32 + 4 ∧
            (r.path_data.drop (sizeof_ser_header .ilp32)).take 4 = Bytes.leBytes 4 19) = true := by
    decide +kernel
  rw [hrun, Option.bind_some] at hrest
  obtain ⟨⟨handed, s'⟩, hcompute, hrest⟩ := (Option.any_eq_true _ _).1 hrest
  obtain ⟨p, rfl, hrest⟩ := (Option.any_eq_true _ _).1 hrest
  obtain ⟨hdst, hmain, hhops, hpath, hcopy⟩ := of_decide_eq_true hrest
  obtain ⟨r, hr, hrest⟩ := (Option.any_eq_true _ _).1 hcopy
  obtain ⟨hret, hsize, hdata⟩ := of_decide_eq_true hrest
  refine ⟨s, s', p, r, hrun, hreached, hassumed, hcompute, hdst, hmain, hr, hret, hsize, hdata, ?_⟩
  rintro ⟨addrs, ⟨-, -, -, -, -, -, hlast⟩, hshape, -⟩
  obtain ⟨hlen, hbytes⟩ := OlsrPath.mk.inj hshape
  rw [hhops] at hlen
  obtain ⟨a, rfl⟩ := List.length_eq_one_iff.1 hlen.symm
  rw [hdst, List.getLast?_singleton, Option.some_inj] at hlast
  rw [hpath, List.flatMap_singleton, hlast] at hbytes
  exact absurd hbytes (by decide)

end MpOlsr
