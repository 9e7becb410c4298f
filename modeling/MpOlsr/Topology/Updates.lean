import MpOlsr.Lib.Updates
import MpOlsr.Topology.CoherentRuns
import MpOlsr.Topology.Runs
import MpOlsr.Topology.Weak

/-!
# Updates of the store

A store that is told the nodes, the links and the aliases of another multigraph.  An update that is safe is a command
without a fault, and the store has the updated multigraph (`Keeps.handleReads`).  A reset gives an empty store after
any run (`reset_keeps`).
-/

namespace MpOlsr

open DoublyLinked

variable {ws : WordSize} {h h' : Store ws} {g : Shape ws} {β : Type} {f : β → ip_v4_addr ws}

/-! ### What the lists of a store hold -/

namespace Store

def HasNode (h : Store ws) (addr_ip : ip_v4_addr ws) : Prop :=
  ∃ n, h.node_lst.Reach () n ∧ mainIp h n = some addr_ip

/-- The main addresses of the nodes on the list. -/
def nodeAddrs (h : Store ws) : List (ip_v4_addr ws) :=
  (h.node_lst.cells h.brk (h.node_lst.head ())).filterMap (mainIp h)

/-- The link is on the list of its source, between two main addresses. -/
def LinkOf (h : Store ws) (addr_src addr_dst : ip_v4_addr ws) (link : Ptr) : Prop :=
  ∃ n b d, h.node_lst.Reach () n ∧ mainIp h n = some addr_src ∧ h.src.Reach n link ∧ h.link_blocks link = some b ∧
    b.dst_node = some d ∧ mainIp h d = some addr_dst

def HasLink (h : Store ws) (addr_src addr_dst : ip_v4_addr ws) : Prop := ∃ link, h.LinkOf addr_src addr_dst link

/-- The alias is in the table of the node, not at the first position. -/
def HasAlias (h : Store ws) (addr_ip addr_alias : ip_v4_addr ws) : Prop :=
  ∃ n nd i p a, h.node_lst.Reach () n ∧ mainIp h n = some addr_ip ∧ h.nodes n = some nd ∧ i ≠ 0 ∧
    nd.addr_tab i = some p ∧ h.node_addrs p = some a ∧ a.addr_ip = addr_alias

/-- No two links have the same ends. -/
def LinksOnce (h : Store ws) : Prop :=
  ∀ s d link link', h.LinkOf s d link → h.LinkOf s d link' → link = link'

end Store

theorem Rep.reach_iff (hr : Rep h g) {n : Ptr} : h.node_lst.Reach () n ↔ n ∈ g.nodes := hr.nodesRep.list.reach_iff

theorem Rep.hasNode_iff (hr : Rep h g) {a : ip_v4_addr ws} : h.HasNode a ↔ a ∈ g.forget.nodes := by
  rw [Store.HasNode, Shape.forget, List.mem_map]
  refine exists_congr fun n => ?_
  rw [hr.reach_iff]
  refine and_congr_right fun hn => ?_
  rw [hr.mainIp_eq hn, Option.some_inj]

theorem Rep.mem_nodeAddrs (hr : Rep h g) {a : ip_v4_addr ws} : a ∈ h.nodeAddrs ↔ h.HasNode a := by
  have hlength : g.nodes.length ≤ h.brk := length_le_of_bound (hr.nodesRep.list.nodup ()) hr.nodesRep.bound
  rw [Store.nodeAddrs, Store.HasNode, List.mem_filterMap]
  exact exists_congr fun n => and_congr_left' (hr.nodesRep.list.mem_cells hlength)

theorem Rep.linkOf_iff (hr : Rep h g) {s d : ip_v4_addr ws} {link : Ptr} : h.LinkOf s d link ↔
    ∃ l ∈ g.links, l.name = link ∧ g.mainOf l.src = s ∧ g.mainOf l.dst = d := by
  constructor
  · rintro ⟨n, b, t, hn, hs, hlink, hb, ht, hd⟩
    rw [hr.reach_iff] at hn
    rw [hr.linksRep.src.reach_iff] at hlink
    obtain ⟨l, hl, rfl, rfl⟩ := mem_group.1 hlink
    obtain rfl := Option.some_inj.1 ((hr.linksRep.blocks l hl).symm.trans hb)
    obtain rfl := Option.some_inj.1 ht
    rw [hr.mainIp_eq hn, Option.some_inj] at hs
    rw [hr.mainIp_eq (hr.ends l hl).2, Option.some_inj] at hd
    exact ⟨l, hl, rfl, hs, hd⟩
  · rintro ⟨l, hl, rfl, rfl, rfl⟩
    obtain ⟨hs, hd⟩ := hr.ends l hl
    exact ⟨l.src, l.block, l.dst, hr.reach_iff.2 hs, hr.mainIp_eq hs,
      hr.linksRep.src.reach_iff.2 (mem_group.2 ⟨l, hl, rfl, rfl⟩), hr.linksRep.blocks l hl, rfl, hr.mainIp_eq hd⟩

theorem Rep.hasLink_iff (hr : Rep h g) {s d : ip_v4_addr ws} : h.HasLink s d ↔ (s, d) ∈ g.forget.ends := by
  rw [Store.HasLink, Multigraph.ends, Shape.forget, List.map_map, List.mem_map]
  constructor
  · rintro ⟨link, hlink⟩
    obtain ⟨l, hl, -, rfl, rfl⟩ := hr.linkOf_iff.1 hlink
    exact ⟨l, hl, rfl⟩
  · rintro ⟨l, hl, heq⟩
    obtain ⟨hs, hd⟩ := Prod.mk.inj heq
    exact ⟨l.name, hr.linkOf_iff.2 ⟨l, hl, rfl, hs, hd⟩⟩

theorem Rep.hasAlias_iff (hr : Rep h g) {a b : ip_v4_addr ws} : h.HasAlias a b ↔ (b, a) ∈ g.forget.aliases := by
  rw [Shape.forget, List.mem_map]
  constructor
  · rintro ⟨n, nd, i, p, blk, hn, ha, hnd, hi, hp, hblk, rfl⟩
    rw [hr.reach_iff] at hn
    rw [hr.mainIp_eq hn, Option.some_inj] at ha
    rw [hr.addrsRep.tab n hn nd hnd] at hp
    obtain ⟨e, hentry, rfl⟩ := Option.map_eq_some_iff.1 hp
    obtain ⟨he, rfl, rfl⟩ := entryAt_mem hentry
    obtain rfl := Option.some_inj.1 ((hr.addrsRep.blocks e he).symm.trans hblk)
    exact ⟨e, List.mem_filter.2 ⟨he, decide_eq_true hi⟩, Prod.ext rfl ha⟩
  · rintro ⟨e, he, heq⟩
    obtain ⟨rfl, rfl⟩ := Prod.mk.inj heq
    obtain ⟨he, hpos⟩ := List.mem_filter.1 he
    have hn := hr.addrsRep.nodes e he
    obtain ⟨nd, hnd⟩ := hr.node hn
    refine ⟨e.node, nd, e.pos, e.name, e.block, hr.reach_iff.2 hn, hr.mainIp_eq hn, hnd, of_decide_eq_true hpos, ?_,
      hr.addrsRep.blocks e he, rfl⟩
    rw [hr.addrsRep.tab _ hn nd hnd, hr.addrsRep.entryAt_eq he]
    rfl

theorem Rep.linksOnce (hr : Rep h g) (honce : g.forget.ends.Nodup) : h.LinksOnce := by
  intro s d link link' hlink hlink'
  obtain ⟨l, hl, rfl, rfl, rfl⟩ := hr.linkOf_iff.1 hlink
  obtain ⟨l', hl', rfl, hs, hd⟩ := hr.linkOf_iff.1 hlink'
  rw [Multigraph.ends, Shape.forget, List.map_map] at honce
  rw [List.inj_on_of_nodup_map honce hl hl' (Prod.ext hs.symm hd.symm)]

/-! ### Updates as commands -/

/-- An update as a command. -/
def tell (f : β → ip_v4_addr ws) : Multigraph.Update β ℤ → OlsrEventMessage ws
  | .addNode a => .DEV_CMD_ADD_NODE (f a)
  | .removeNode a => .DEV_CMD_REMOVE_NODE (f a)
  | .addLink s d c => .DEV_CMD_ADD_LINK (f s) (f d) c
  | .removeLink s d => .DEV_CMD_REMOVE_LINK (f s) (f d)
  | .addAlias a b => .DEV_CMD_ADD_ALIAS (f a) (f b)
  | .removeAlias a b => .DEV_CMD_REMOVE_ALIAS (f a) (f b)

/-- The costs as they are stored. -/
def costs (ws : WordSize) : ℤ → ULong ws := BitVec.ofInt ws.bits

theorem act_tell (G : Multigraph (ip_v4_addr ws) (ULong ws)) (u : Multigraph.Update β ℤ) :
    act G (tell f u) = G.update 4 (u.map f (costs ws)) := by
  cases u <;> rfl

/-- A command that the store allows. -/
theorem Rep.allowed_act (hr : Rep h g) (hd : Distinct g.addrs) {m : OlsrEventMessage ws} (hm : allowed h m = true) :
    careful h m = true ∧ Distinct (g.act h.brk m).addrs ∧ (g.act h.brk m).forget = act g.forget m :=
  ⟨hr.careful_of_allowed hd hm, hr.forget_act hd hm⟩

theorem Rep.resolve_none (hr : Rep h g) (hd : Distinct g.addrs) {a : ip_v4_addr ws} :
    g.forget.owner a = none ↔ resolve g.addrs a = none := by
  rw [hr.owner_forget hd, Option.map_eq_none_iff]

/-- The multigraph follows the shape also where an alias is refused. -/
theorem Rep.add_alias_act (hr : Rep h g) (hd : Distinct g.addrs) {a b : ip_v4_addr ws}
    (hsafe : g.forget.owner a = none ∨ g.forget.owner b = none) :
    Distinct (g.act h.brk (.DEV_CMD_ADD_ALIAS a b)).addrs ∧
      (g.act h.brk (.DEV_CMD_ADD_ALIAS a b)).forget = g.forget.addAlias 4 a b := by
  rcases hsafe with ha | hb
  · have hres := (hr.resolve_none hd).1 ha
    rw [Shape.act, hres, Multigraph.addAlias, ha]
    exact ⟨hd, rfl⟩
  · have hallowed : allowed h (.DEV_CMD_ADD_ALIAS a b) = true := by
      rw [allowed, tc_find_addr_spec hr.addrsRep, (hr.resolve_none hd).1 hb]
      rfl
    exact hr.forget_act hd hallowed

theorem Rep.remove_alias_act (hr : Rep h g) (hd : Distinct g.addrs) {a b : ip_v4_addr ws}
    (hsafe : ∀ n, g.forget.owner a = some n → g.forget.owner b = none ∨ (b, n) ∈ g.forget.aliases) :
    careful h (.DEV_CMD_REMOVE_ALIAS a b) = true ∧ Distinct (g.act h.brk (.DEV_CMD_REMOVE_ALIAS a b)).addrs ∧
      (g.act h.brk (.DEV_CMD_REMOVE_ALIAS a b)).forget = g.forget.removeAlias a b := by
  rw [careful, Shape.act, Multigraph.removeAlias, hr.get_node, tc_find_addr_spec hr.addrsRep]
  cases ha : resolve g.addrs a with
  | none =>
    rw [(hr.resolve_none hd).2 ha]
    exact ⟨rfl, hd, rfl⟩
  | some e =>
    have howner : g.forget.owner a = some (g.mainOf e.node) := by rw [hr.owner_forget hd, ha, Option.map_some]
    rw [howner]
    cases hb : resolve g.addrs b with
    | none =>
      refine ⟨rfl, hd, ?_⟩
      have hnone := (Multigraph.owner_eq_none.1 ((hr.resolve_none hd).2 hb)).2
      have hkeep : (g.forget.aliases.filter fun p => p.1 ≠ b) = g.forget.aliases :=
        List.filter_eq_self.2 fun p hp => decide_eq_true (hnone p hp)
      rw [hkeep]
    | some e' =>
      -- the entry is an alias of the node
      have hmem : (b, g.mainOf e.node) ∈ g.forget.aliases := by
        refine (hsafe _ howner).resolve_left fun hnone => ?_
        rw [(hr.resolve_none hd).1 hnone] at hb
        cases hb
      obtain ⟨x, hx, heq⟩ := List.mem_map.1 hmem
      obtain ⟨hx, hpos⟩ := List.mem_filter.1 hx
      obtain ⟨he', haddr⟩ := resolve_mem hb
      obtain rfl := hd.eq hx he' ((Prod.mk.inj heq).1.trans haddr.symm)
      have hpos := of_decide_eq_true hpos
      have hblock := hr.addrsRep.blocks x hx
      refine ⟨by simpa [hblock, AddrInfo.block] using hpos, hd.filter _, ?_⟩
      rw [hr.forget_dropEntry hd hx hpos, haddr]

/-- The store keeps the multigraph of the sender. -/
def Keeps (f : β → ip_v4_addr ws) (h : Store ws) (G : Multigraph β ℤ) : Prop :=
  Represents h (G.map f (costs ws))

variable [DecidableEq β] {G H : Multigraph β ℤ}

theorem Keeps.handleRead (hf : Function.Injective f) (hG : Keeps f h G) {u : Multigraph.Update β ℤ}
    (hu : G.Safe u) : ∃ h', handleRead h (tell f u) = some h' ∧ Keeps f h' (G.update 4 u) := by
  obtain ⟨g, hr, hd, hforget⟩ := hG
  have hsafe := hu.map (g := costs ws) hf
  rw [← hforget] at hsafe
  have hact : careful h (tell f u) = true ∧ Distinct (g.act h.brk (tell f u)).addrs ∧
      (g.act h.brk (tell f u)).forget = act g.forget (tell f u) := by
    cases u with
    | addAlias a b => exact ⟨rfl, hr.add_alias_act hd hsafe⟩
    | removeAlias a b => exact hr.remove_alias_act hd hsafe
    | addNode a => exact hr.allowed_act hd rfl
    | removeNode a => exact hr.allowed_act hd rfl
    | addLink s d c => exact hr.allowed_act hd rfl
    | removeLink s d => exact hr.allowed_act hd rfl
  obtain ⟨hcare, hd', hforget'⟩ := hact
  obtain ⟨h', hrun, hr'⟩ := handleRead_spec hr hcare
  refine ⟨h', hrun, _, hr', hd', ?_⟩
  rw [hforget', act_tell, hforget, Multigraph.update_map hf]

/-- Updates that are safe lead the store to the updated multigraph. -/
theorem Keeps.handleReads (hf : Function.Injective f) {us : List (Multigraph.Update β ℤ)} (hus : G.Leads 4 us H)
    (hG : Keeps f h G) : ∃ h', handleReads h (us.map (tell f)) = some h' ∧ Keeps f h' H := by
  induction hus generalizing h with
  | nil => exact ⟨h, rfl, hG⟩
  | cons hu _ ih =>
    obtain ⟨h₁, hrun₁, hG₁⟩ := hG.handleRead hf hu
    obtain ⟨h₂, hrun₂, hH⟩ := ih hG₁
    refine ⟨h₂, ?_, hH⟩
    rw [List.map_cons, MpOlsr.handleReads, List.foldlM_cons, hrun₁]
    exact hrun₂

/-! ### A store after a reset -/

theorem WeakRep.tc_add_node (hw : WeakRep h g) {a : ip_v4_addr ws} (hrun : MpOlsr.tc_add_node h a = some h') :
    ∃ g', WeakRep h' g' := by
  cases ha : resolve g.addrs a with
  | some e =>
    have hsame : MpOlsr.tc_add_node h a = some h := by
      rw [MpOlsr.tc_add_node, hw.get_node, ha]
      rfl
    obtain rfl := Option.some_inj.1 (hsame.symm.trans hrun)
    exact ⟨g, hw⟩
  | none =>
    obtain ⟨s, D, hadd, hinsert, hw'⟩ := hw.enterNode a
    have hrun' : MpOlsr.tc_add_node h a = some { s with node_lst := D } := by
      rw [MpOlsr.tc_add_node, hw.get_node, ha, Option.map_none, Option.bind_eq_bind, Option.bind_some]
      exact Option.bind_eq_some_iff.2 ⟨_, hadd, Option.bind_eq_some_iff.2 ⟨_, hinsert, rfl⟩⟩
    obtain rfl := Option.some_inj.1 (hrun'.symm.trans hrun)
    exact ⟨_, hw'⟩

/-- Every command that returns leaves a store with a shape. -/
theorem WeakRep.handleRead (hw : WeakRep h g) {m : OlsrEventMessage ws} (hrun : MpOlsr.handleRead h m = some h') :
    ∃ g', WeakRep h' g' := by
  cases m with
  | DEV_CMD_RESET_TC =>
    obtain ⟨s, hrun', hs⟩ := tc_free_data_spec hw
    obtain rfl := Option.some_inj.1 (hrun'.symm.trans hrun)
    exact ⟨_, hs.weak⟩
  | DEV_CMD_ADD_NODE a => exact hw.tc_add_node hrun
  | DEV_CMD_REMOVE_NODE a =>
    have hget := hw.get_node a
    cases ha : resolve g.addrs a with
    | none =>
      rw [ha] at hget
      have hsame : MpOlsr.tc_remove_node h a = some h := by
        rw [MpOlsr.tc_remove_node, hget]
        rfl
      obtain rfl := Option.some_inj.1 (hsame.symm.trans hrun)
      exact ⟨g, hw⟩
    | some e =>
      rw [ha] at hget
      exact hw.tc_remove_node hget hrun
  | DEV_CMD_ADD_LINK s d c => exact hw.tc_add_link hrun
  | DEV_CMD_REMOVE_LINK s d => exact hw.tc_remove_link hrun
  | DEV_CMD_ADD_ALIAS a b => exact hw.tc_add_alias hrun
  | DEV_CMD_REMOVE_ALIAS a b => exact hw.tc_remove_alias hrun
  | DEV_CMD_SET_LOCAL_ADDR a m =>
    obtain rfl := Option.some_inj.1 hrun
    exact ⟨g, hw.withLocal _ _ _⟩
  | DEV_CMD_SET_ALIAS_ADDR a m =>
    obtain rfl := Option.some_inj.1 hrun
    rw [tc_set_local_alias]
    split
    · exact ⟨g, hw⟩
    · exact ⟨g, hw.withLocal _ _ _⟩

theorem WeakRep.handleReads (hw : WeakRep h g) {ms : List (OlsrEventMessage ws)}
    (hrun : MpOlsr.handleReads h ms = some h') : ∃ g', WeakRep h' g' := by
  induction ms generalizing h g with
  | nil =>
    obtain rfl := Option.some_inj.1 hrun
    exact ⟨g, hw⟩
  | cons m ms ih =>
    obtain ⟨h₁, hrun₁, hrun⟩ := Option.bind_eq_some_iff.1 hrun
    obtain ⟨g₁, hw₁⟩ := hw.handleRead hrun₁
    exact ih hw₁ hrun

/-- The addresses of the interfaces are kept apart from the topology. -/
theorem Represents.setsLocal {G : Multigraph (ip_v4_addr ws) (ULong ws)} (hG : Represents h G)
    {ms : List (OlsrEventMessage ws)} (hms : ∀ m ∈ ms, setsLocal m = true) : ∃ h', handleReads h ms = some h' ∧
    Represents h' G := by
  induction ms generalizing h with
  | nil => exact ⟨h, rfl, hG⟩
  | cons m ms ih =>
    obtain ⟨g, hr, hd, rfl⟩ := hG
    have hlocal := hms m List.mem_cons_self
    have hstep : careful h m = true ∧ g.act h.brk m = g := by
      cases m <;> first | exact ⟨rfl, rfl⟩ | cases hlocal
    obtain ⟨h₁, hrun₁, hr₁⟩ := handleRead_spec hr hstep.1
    rw [hstep.2] at hr₁
    obtain ⟨h', hrun, hG'⟩ := ih ⟨g, hr₁, hd, rfl⟩ fun m' hm' => hms m' (List.mem_cons_of_mem _ hm')
    refine ⟨h', ?_, hG'⟩
    rw [handleReads, List.foldlM_cons, hrun₁]
    exact hrun

/-- After a reset and the addresses of the interfaces, the store is empty. -/
theorem reset_keeps (hw : WeakRep h g) {ms : List (OlsrEventMessage ws)} (hms : ∀ m ∈ ms, setsLocal m = true) : ∃ h',
    handleReads h (.DEV_CMD_RESET_TC :: ms) = some h' ∧ Represents h' Multigraph.empty := by
  obtain ⟨h₁, hrun₁, hr₁⟩ := tc_free_data_spec hw
  obtain ⟨h', hrun, hG⟩ := Represents.setsLocal ⟨_, hr₁, List.nodup_nil, rfl⟩ hms
  refine ⟨h', ?_, hG⟩
  rw [handleReads, List.foldlM_cons, handleRead, hrun₁]
  exact hrun

/-! ### What the store has of the sender -/

omit [DecidableEq β] in
theorem Keeps.hasNode_iff (hG : Keeps f h G) {a : ip_v4_addr ws} : h.HasNode a ↔ ∃ x ∈ G.nodes, f x = a := by
  obtain ⟨g, hr, -, hforget⟩ := hG
  rw [hr.hasNode_iff, hforget, Multigraph.map, List.mem_map]

omit [DecidableEq β] in
theorem Keeps.mem_nodeAddrs (hf : Function.Injective f) (hG : Keeps f h G) {x : β} :
    f x ∈ h.nodeAddrs ↔ x ∈ G.nodes := by
  obtain ⟨g, hr, -, -⟩ := id hG
  rw [hr.mem_nodeAddrs, hG.hasNode_iff]
  constructor
  · rintro ⟨y, hy, heq⟩
    exact hf heq ▸ hy
  · exact fun hx => ⟨x, hx, rfl⟩

omit [DecidableEq β] in
theorem Keeps.hasLink_iff (hG : Keeps f h G) {s d : ip_v4_addr ws} :
    h.HasLink s d ↔ ∃ e ∈ G.ends, f e.1 = s ∧ f e.2 = d := by
  obtain ⟨g, hr, -, hforget⟩ := hG
  rw [hr.hasLink_iff, hforget, Multigraph.ends, Multigraph.ends, Multigraph.map, List.map_map]
  simp

omit [DecidableEq β] in
theorem Keeps.hasAlias_iff (hG : Keeps f h G) {a b : ip_v4_addr ws} :
    h.HasAlias a b ↔ ∃ p ∈ G.aliases, f p.2 = a ∧ f p.1 = b := by
  obtain ⟨g, hr, -, hforget⟩ := hG
  rw [hr.hasAlias_iff, hforget, Multigraph.map, List.mem_map]
  refine exists_congr fun p => and_congr_right fun _ => ?_
  rw [Prod.mk.injEq]
  exact and_comm

omit [DecidableEq β] in
theorem Keeps.linksOnce (hf : Function.Injective f) (hG : Keeps f h G) (honce : G.ends.Nodup) : h.LinksOnce := by
  obtain ⟨g, hr, -, hforget⟩ := hG
  refine hr.linksOnce ?_
  rw [hforget]
  have hends : (G.map f (costs ws)).ends = G.ends.map fun e => (f e.1, f e.2) := by
    rw [Multigraph.ends, Multigraph.ends, Multigraph.map, List.map_map, List.map_map]
    rfl
  rw [hends]
  refine honce.map fun e e' heq => ?_
  obtain ⟨hs, hd⟩ := Prod.mk.inj heq
  exact Prod.ext (hf hs) (hf hd)

end MpOlsr
