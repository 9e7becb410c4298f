import MpOlsr.Lib.Fault
import MpOlsr.Lib.MarkSweep
import MpOlsr.Lib.Records
import MpOlsr.Plugin.Tables
import MpOlsr.Topology.Shape

/-!
# The marks in the tables

The tables of the plugin are described by the list of their nodes and the list of their links, the most recent first
(`Table`).  The chains are groups of these lists (`Threaded`), and `tc_addLink` touches the two ends of a link and the
link, unless it refuses it (`tc_addLink_spec`).
-/

namespace MpOlsr

open DoublyLinked Records MarkSweep

/-- An edge is refused if its source is local and its destination is not a symmetric neighbour. -/
def Snapshot.accepts (ifnet : List OlsrIpAddr) (S : Snapshot) (e : OlsrIpAddr × OlsrIpAddr) : Bool :=
  !(tc_is_addr_local ifnet e.1 && !tc_is_in_neighbourhood S.neighbortable e.2)

/-- A node of the tables with its block. -/
structure TcNode where
  name : Ptr
  block : SerTcEntry

/-- A link of the tables, with the node where it starts. -/
structure TcLink where
  name : Ptr
  src : Ptr
  src_addr : OlsrIpAddr
  block : SerTcEntryDst

def TcNode.addr (n : TcNode) : OlsrIpAddr := n.block.src_addr

/-- The chain of a node. -/
def TcNode.key (n : TcNode) : HashKey := olsr_ip_hashing n.addr

def TcLink.pair (l : TcLink) : OlsrIpAddr × OlsrIpAddr := (l.src_addr, l.block.dst_addr)

/-- The chain of a link. -/
def TcLink.key (l : TcLink) : Ptr × HashKey := (l.src, olsr_ip_hashing l.block.dst_addr)

/-- What the tables hold. -/
structure Table where
  nodes : List TcNode
  links : List TcLink

namespace Table

def entries (T : Table) : Ptr → Option SerTcEntry := blocks TcNode.name TcNode.block T.nodes

def dsts (T : Table) : Ptr → Option SerTcEntryDst := blocks TcLink.name TcLink.block T.links

/-- The addresses of the nodes with their marks. -/
def nodeMarks (T : Table) : List (OlsrIpAddr × Bool) := T.nodes.map fun n => (n.addr, n.block.is_active)

/-- The ends of the links with their marks. -/
def linkMarks (T : Table) : List ((OlsrIpAddr × OlsrIpAddr) × Bool) :=
  T.links.map fun l => (l.pair, l.block.is_active)

def setNode (T : Table) (x : Ptr) (f : SerTcEntry → SerTcEntry) : Table :=
  { T with nodes := modify TcNode.name x (fun n => { n with block := f n.block }) T.nodes }

def setLink (T : Table) (x : Ptr) (f : SerTcEntryDst → SerTcEntryDst) : Table :=
  { T with links := modify TcLink.name x (fun l => { l with block := f l.block }) T.links }

/-! ### Parts of a table -/

/-- The part of a node that does not change. -/
def nodeFrame (n : TcNode) : Ptr × OlsrIpAddr × Bool := (n.name, n.addr, n.block.is_src_local)

def linkFrame (l : TcLink) : Ptr × Ptr × OlsrIpAddr × OlsrIpAddr := (l.name, l.src, l.src_addr, l.block.dst_addr)

def frame (T : Table) : List (Ptr × OlsrIpAddr × Bool) × List (Ptr × Ptr × OlsrIpAddr × OlsrIpAddr) :=
  (T.nodes.map nodeFrame, T.links.map linkFrame)

def unmarkNode (n : TcNode) : TcNode := { n with block := { n.block with is_active := false } }

def unmarkLink (l : TcLink) : TcLink := { l with block := { l.block with is_active := false } }

/-- The table without its marks. -/
def unmarked (T : Table) : Table := ⟨T.nodes.map unmarkNode, T.links.map unmarkLink⟩

variable {T T' : Table} {x : Ptr}

theorem frame_unmarked : T.unmarked.frame = T.frame := by
  simp [unmarked, frame, Function.comp_def, nodeFrame, linkFrame, unmarkNode, unmarkLink, TcNode.addr]

theorem frame_of_unmarked (h : T'.unmarked = T.unmarked) : T'.frame = T.frame := by
  rw [← frame_unmarked, h, frame_unmarked]

theorem keys_nodeMarks : keys T.nodeMarks = T.nodes.map TcNode.addr := by
  simp [keys, nodeMarks, Function.comp_def]

theorem keys_linkMarks : keys T.linkMarks = T.links.map TcLink.pair := by
  simp [keys, linkMarks, Function.comp_def]

theorem keys_nodeMarks_frame (h : T'.frame = T.frame) : keys T'.nodeMarks = keys T.nodeMarks := by
  have haddrs := congrArg (List.map fun s : Ptr × OlsrIpAddr × Bool => s.2.1) (congrArg Prod.fst h)
  rw [frame, frame, List.map_map, List.map_map] at haddrs
  rw [keys_nodeMarks, keys_nodeMarks]
  exact haddrs

theorem keys_linkMarks_frame (h : T'.frame = T.frame) : keys T'.linkMarks = keys T.linkMarks := by
  have hpairs := congrArg (List.map fun s : Ptr × Ptr × OlsrIpAddr × OlsrIpAddr => (s.2.2.1, s.2.2.2))
    (congrArg Prod.snd h)
  rw [frame, frame, List.map_map, List.map_map] at hpairs
  rw [keys_linkMarks, keys_linkMarks]
  exact hpairs

theorem map_setNode {β : Type} {f : SerTcEntry → SerTcEntry} (g : TcNode → β)
    (hg : ∀ n : TcNode, g { n with block := f n.block } = g n) : (T.setNode x f).nodes.map g = T.nodes.map g :=
  modify_map g hg

theorem map_setLink {β : Type} {f : SerTcEntryDst → SerTcEntryDst} (g : TcLink → β)
    (hg : ∀ l : TcLink, g { l with block := f l.block } = g l) : (T.setLink x f).links.map g = T.links.map g :=
  modify_map g hg

theorem frame_setNode {f : SerTcEntry → SerTcEntry}
    (hf : ∀ e, (f e).src_addr = e.src_addr ∧ (f e).is_src_local = e.is_src_local) :
    (T.setNode x f).frame = T.frame := by
  have hmap : (T.setNode x f).nodes.map nodeFrame = T.nodes.map nodeFrame := by
    refine map_setNode nodeFrame fun n => ?_
    simp [nodeFrame, TcNode.addr, hf]
  exact congrArg (·, T.links.map linkFrame) hmap

theorem frame_setLink {f : SerTcEntryDst → SerTcEntryDst} (hf : ∀ d, (f d).dst_addr = d.dst_addr) :
    (T.setLink x f).frame = T.frame := by
  have hmap : (T.setLink x f).links.map linkFrame = T.links.map linkFrame := by
    refine map_setLink linkFrame fun l => ?_
    simp [linkFrame, hf]
  exact congrArg (T.nodes.map nodeFrame, ·) hmap

theorem unmarked_setNode {b : Bool} : (T.setNode x fun e => { e with is_active := b }).unmarked = T.unmarked :=
  congrArg (Table.mk · (T.links.map unmarkLink)) (map_setNode unmarkNode fun _ => rfl)

theorem unmarked_setLink {b : Bool} : (T.setLink x fun d => { d with is_active := b }).unmarked = T.unmarked :=
  congrArg (Table.mk (T.nodes.map unmarkNode)) (map_setLink unmarkLink fun _ => rfl)

end Table

namespace Plugin

variable {ws : WordSize} (p : Plugin ws) (T T' : Table)

/-- The plugin with other blocks. -/
def withTable : Plugin ws := { p with entries := T.entries, dsts := T.dsts }

@[simp]
theorem withTable_withTable : (p.withTable T).withTable T' = p.withTable T' := rfl

variable {p}

theorem setEntry_of {x : Ptr} {e : SerTcEntry} (h : p.entries x = some e) (f : SerTcEntry → SerTcEntry) :
    p.setEntry x f = some { p with entries := Function.update p.entries x (some (f e)) } := by
  rw [setEntry, h]
  rfl

end Plugin

variable {ws : WordSize} {ifnet : List OlsrIpAddr} {p p' : Plugin ws} {T T' : Table}

/-- The tables hold the nodes and the links, with different addresses, in allocated blocks, and no other block is
allocated.  The links are on the chains of their nodes. -/
structure Stored (ifnet : List OlsrIpAddr) (p : Plugin ws) (T : Table) : Prop where
  dst_tab : Holds p.dst_tab (group TcLink.key TcLink.name T.links)
  entries : p.entries = T.entries
  dsts : p.dsts = T.dsts
  names : (T.nodes.map TcNode.name).Nodup
  linkNames : (T.links.map TcLink.name).Nodup
  bound : ∀ x ∈ T.nodes.map TcNode.name, x < p.brk
  linkBound : ∀ x ∈ T.links.map TcLink.name, x < p.brk
  addrs : (T.nodes.map TcNode.addr).Nodup
  pairs : (T.links.map TcLink.pair).Nodup
  sources : ∀ e ∈ T.links.map fun l => (l.src, l.src_addr), e ∈ T.nodes.map fun n => (n.name, n.addr)
  isLocal : ∀ e ∈ T.nodes.map fun n => (n.addr, n.block.is_src_local), e.2 = tc_is_addr_local ifnet e.1

/-- The nodes are on the chains of their hash keys. -/
structure Threaded (ifnet : List OlsrIpAddr) (p : Plugin ws) (T : Table) : Prop extends Stored ifnet p T where
  tab : Holds p.tab (group TcNode.key TcNode.name T.nodes)

namespace Stored

/-! ### Lookups -/

theorem withTable_self (ht : Stored ifnet p T) : p.withTable T = p := by
  rw [Plugin.withTable, ← ht.entries, ← ht.dsts]

theorem node (ht : Stored ifnet p T) {n : TcNode} (hn : n ∈ T.nodes) : p.entries n.name = some n.block := by
  rw [ht.entries]
  exact blocks_of_mem ht.names hn

theorem link (ht : Stored ifnet p T) {l : TcLink} (hl : l ∈ T.links) : p.dsts l.name = some l.block := by
  rw [ht.dsts]
  exact blocks_of_mem ht.linkNames hl

theorem liveEntry (ht : Stored ifnet p T) {n : TcNode} (hn : n ∈ T.nodes) : p.liveEntry n.name = true := by
  rw [Plugin.liveEntry, ht.node hn]
  rfl

theorem liveDst (ht : Stored ifnet p T) {l : TcLink} (hl : l ∈ T.links) : p.liveDst l.name = true := by
  rw [Plugin.liveDst, ht.link hl]
  rfl

theorem chain_length (ht : Stored ifnet p T) (k : HashKey) :
    (group TcNode.key TcNode.name T.nodes k).length ≤ p.brk := by
  have hnodup : (group TcNode.key TcNode.name T.nodes k).Nodup :=
    ht.names.sublist (List.filter_sublist.map TcNode.name)
  refine length_le_of_bound hnodup fun x hx => ?_
  obtain ⟨n, hn, -, rfl⟩ := mem_group.1 hx
  exact ht.bound _ (List.mem_map_of_mem hn)

theorem dst_length (ht : Stored ifnet p T) (k : Ptr × HashKey) :
    (group TcLink.key TcLink.name T.links k).length ≤ p.brk := by
  refine length_le_of_bound (ht.dst_tab.nodup k) fun x hx => ?_
  obtain ⟨l, hl, -, rfl⟩ := mem_group.1 hx
  exact ht.linkBound _ (List.mem_map_of_mem hl)

theorem source (ht : Stored ifnet p T) {l : TcLink} (hl : l ∈ T.links) : ∃ n ∈ T.nodes, n.name = l.src ∧
    n.addr = l.src_addr := by
  obtain ⟨n, hn, heq⟩ := List.mem_map.1 (ht.sources _ (List.mem_map_of_mem hl))
  exact ⟨n, hn, Prod.mk.inj heq⟩

theorem src_eq (ht : Stored ifnet p T) {n : TcNode} {l : TcLink} (hn : n ∈ T.nodes) (hl : l ∈ T.links) :
    l.src = n.name ↔ l.src_addr = n.addr := by
  obtain ⟨n', hn', hname, haddr⟩ := ht.source hl
  rw [← hname, ← haddr]
  constructor
  · intro h
    rw [List.inj_on_of_nodup_map ht.names hn' hn h]
  · intro h
    rw [List.inj_on_of_nodup_map ht.addrs hn' hn h]

/-- The lookup along a chain of a node finds the link to an address. -/
theorem get_link (ht : Stored ifnet p T) {n : TcNode} (hn : n ∈ T.nodes) (d : OlsrIpAddr) :
    search (p.dst_tab.getNext p.liveDst) (fun x => (p.dsts x).map fun b => decide (d = b.dst_addr)) p.brk
      (p.dst_tab.head (n.name, olsr_ip_hashing d)) =
        some ((T.links.find? fun l => l.pair = (n.addr, d)).map TcLink.name) := by
  rw [search_group (q := fun l => decide (d = l.block.dst_addr)) ht.dst_tab (fun l hl => ht.liveDst hl)
    (fun l hl => by rw [ht.link hl]; rfl) (ht.dst_length _)]
  congr 2
  refine List.find?_congr fun l hl => ?_
  have hsrc := ht.src_eq hn hl
  by_cases hd : l.block.dst_addr = d
  · simp [hd, TcLink.key, TcLink.pair, hsrc]
  · simp [hd, Ne.symm hd, TcLink.pair]

/-! ### Changes to a block -/

theorem addMessage (ht : Stored ifnet p T) (msg : OlsrEventMessage ws) : Stored ifnet (p.addMessage msg) T :=
  ⟨ht.dst_tab, ht.entries, ht.dsts, ht.names, ht.linkNames, ht.bound, ht.linkBound, ht.addrs, ht.pairs, ht.sources,
    ht.isLocal⟩

/-- Only the part that does not change matters. -/
theorem reframe (ht : Stored ifnet p T) (h : T'.frame = T.frame) : Stored ifnet (p.withTable T') T' := by
  have hn : T'.nodes.map Table.nodeFrame = T.nodes.map Table.nodeFrame := congrArg Prod.fst h
  have hl : T'.links.map Table.linkFrame = T.links.map Table.linkFrame := congrArg Prod.snd h
  have nodeMap : ∀ {β : Type} (f : Ptr × OlsrIpAddr × Bool → β),
      T'.nodes.map (f ∘ Table.nodeFrame) = T.nodes.map (f ∘ Table.nodeFrame) := by
    intro β f
    rw [← List.map_map, hn, List.map_map]
  have linkMap : ∀ {β : Type} (f : Ptr × Ptr × OlsrIpAddr × OlsrIpAddr → β),
      T'.links.map (f ∘ Table.linkFrame) = T.links.map (f ∘ Table.linkFrame) := by
    intro β f
    rw [← List.map_map, hl, List.map_map]
  have hname := nodeMap Prod.fst
  have hlname := linkMap Prod.fst
  have haddr := nodeMap fun s => s.2.1
  have hpair := linkMap fun s => (s.2.2.1, s.2.2.2)
  refine ⟨?_, rfl, rfl, ?_, ?_, ?_, ?_, ?_, ?_, ?_, ?_⟩
  · have hgroup : group TcLink.key TcLink.name T'.links = group TcLink.key TcLink.name T.links := by
      have hmap : ∀ L : List TcLink, group (fun s : Ptr × Ptr × OlsrIpAddr × OlsrIpAddr =>
          (s.2.1, olsr_ip_hashing s.2.2.2)) Prod.fst (L.map Table.linkFrame) = group TcLink.key TcLink.name L :=
        fun _ => group_map Table.linkFrame
      exact (hmap T'.links).symm.trans ((congrArg _ hl).trans (hmap T.links))
    exact hgroup ▸ ht.dst_tab
  · exact hname ▸ ht.names
  · exact hlname ▸ ht.linkNames
  · exact hname ▸ ht.bound
  · exact hlname ▸ ht.linkBound
  · exact haddr ▸ ht.addrs
  · exact hpair ▸ ht.pairs
  · have hsrc := linkMap fun s => (s.2.1, s.2.2.1)
    have hdst := nodeMap fun s => (s.1, s.2.1)
    exact hsrc ▸ hdst ▸ ht.sources
  · have hloc := nodeMap fun s => (s.2.1, s.2.2)
    exact hloc ▸ ht.isLocal

theorem entries_setNode (ht : Stored ifnet p T) {n : TcNode} (hn : n ∈ T.nodes) (f : SerTcEntry → SerTcEntry) :
    (T.setNode n.name f).entries = Function.update p.entries n.name (some (f n.block)) := by
  rw [ht.entries]
  exact blocks_modify (g := fun n : TcNode => { n with block := f n.block }) ht.names (fun _ => rfl) (fun _ => rfl) hn

theorem setEntry (ht : Stored ifnet p T) {n : TcNode} (hn : n ∈ T.nodes) (f : SerTcEntry → SerTcEntry) :
    p.setEntry n.name f = some (p.withTable (T.setNode n.name f)) := by
  have hdsts : (T.setNode n.name f).dsts = p.dsts := ht.dsts.symm
  rw [Plugin.setEntry_of (ht.node hn), Plugin.withTable, ht.entries_setNode hn, hdsts]

theorem setDst (ht : Stored ifnet p T) {l : TcLink} (hl : l ∈ T.links) (f : SerTcEntryDst → SerTcEntryDst) :
    p.setDst l.name f = some (p.withTable (T.setLink l.name f)) := by
  have hblocks : (T.setLink l.name f).dsts = Function.update p.dsts l.name (some (f l.block)) := by
    rw [ht.dsts]
    exact blocks_modify (g := fun l : TcLink => { l with block := f l.block }) ht.linkNames (fun _ => rfl)
      (fun _ => rfl) hl
  have hentries : (T.setLink l.name f).entries = p.entries := ht.entries.symm
  rw [Plugin.setDst, ht.link hl, Plugin.withTable, hblocks, hentries]
  rfl

end Stored

namespace Threaded

theorem addMessage (ht : Threaded ifnet p T) (msg : OlsrEventMessage ws) : Threaded ifnet (p.addMessage msg) T :=
  ⟨ht.toStored.addMessage msg, ht.tab⟩

theorem reframe (ht : Threaded ifnet p T) (h : T'.frame = T.frame) : Threaded ifnet (p.withTable T') T' := by
  refine ⟨ht.toStored.reframe h, ?_⟩
  have hn : T'.nodes.map Table.nodeFrame = T.nodes.map Table.nodeFrame := congrArg Prod.fst h
  have hgroup : group TcNode.key TcNode.name T'.nodes = group TcNode.key TcNode.name T.nodes := by
    have hmap : ∀ L : List TcNode, group (fun s : Ptr × OlsrIpAddr × Bool => olsr_ip_hashing s.2.1) Prod.fst
        (L.map Table.nodeFrame) = group TcNode.key TcNode.name L := fun _ => group_map Table.nodeFrame
    exact (hmap T'.nodes).symm.trans ((congrArg _ hn).trans (hmap T.nodes))
  exact hgroup ▸ ht.tab

/-- The lookup along a chain finds the node with an address. -/
theorem get_node (ht : Threaded ifnet p T) (a : OlsrIpAddr) :
    p.tc_get_node a = some ((T.nodes.find? fun n => n.addr = a).map TcNode.name) := by
  rw [Plugin.tc_get_node, search_group (q := fun n => decide (a = n.addr)) ht.tab (fun n hn => ht.liveEntry hn)
    (fun n hn => by rw [ht.node hn]; rfl) (ht.chain_length _)]
  congr 2
  refine List.find?_congr fun n _ => ?_
  by_cases hna : n.addr = a
  · simp [hna, TcNode.key]
  · simp [hna, Ne.symm hna]

end Threaded

/-! ### Steps that touch -/

/-- The messages for new nodes. -/
def nodeMessages (ws : WordSize) (as : List OlsrIpAddr) : List (OlsrEventMessage ws) :=
  as.map fun a => .DEV_CMD_ADD_NODE (Plugin.toLong a)

/-- The messages for new links. -/
def linkMessages (ws : WordSize) (es : List (OlsrIpAddr × OlsrIpAddr)) : List (OlsrEventMessage ws) :=
  es.map fun e => .DEV_CMD_ADD_LINK (Plugin.toLong e.1) (Plugin.toLong e.2) 1

theorem nodeMessages_append (as as' : List OlsrIpAddr) :
    nodeMessages ws (as ++ as') = nodeMessages ws as ++ nodeMessages ws as' := List.map_append

/-- The ends of links. -/
def endpoints (es : List (OlsrIpAddr × OlsrIpAddr)) : List OlsrIpAddr := es.flatMap fun e => [e.1, e.2]

/-- The messages for links that are touched one after the other. -/
def announce (ws : WordSize) (N : List (OlsrIpAddr × Bool)) (L : List ((OlsrIpAddr × OlsrIpAddr) × Bool)) :
    List (OlsrIpAddr × OlsrIpAddr) → List (OlsrEventMessage ws)
  | [] => []
  | e :: es => nodeMessages ws (newcomers N [e.1, e.2]) ++ linkMessages ws (newcomers L [e]) ++
      announce ws (touch (touch N e.1) e.2) (touch L e) es

/-- A step that touches some nodes and some links, and sends messages.  If there is nothing new, only marks change. -/
structure Touches (ifnet : List OlsrIpAddr) (as : List OlsrIpAddr) (es : List (OlsrIpAddr × OlsrIpAddr))
    (msgs : List (OlsrEventMessage ws)) (p p' : Plugin ws) (T T' : Table) : Prop where
  threaded : Threaded ifnet p' T'
  nodes : T'.nodeMarks = as.foldl touch T.nodeMarks
  links : T'.linkMarks = es.foldl touch T.linkMarks
  mids : p'.g_cur_mid_tc = p.g_cur_mid_tc
  queue : p'.msgQueue_ = p.msgQueue_ ++ msgs
  stays : ∀ n ∈ T.nodes, ∃ n' ∈ T'.nodes, n'.name = n.name ∧ n'.addr = n.addr
  quiet : (∀ a ∈ as, a ∈ keys T.nodeMarks) → (∀ e ∈ es, e ∈ keys T.linkMarks) →
    p' = p.withTable T' ∧ T'.unmarked = T.unmarked

namespace Touches

variable {as as' : List OlsrIpAddr} {es es' : List (OlsrIpAddr × OlsrIpAddr)} {msgs msgs' : List (OlsrEventMessage ws)}
  {q r : Plugin ws} {U V : Table}

theorem refl (ht : Threaded ifnet p T) : Touches ifnet [] [] [] p p T T :=
  ⟨ht, rfl, rfl, rfl, (List.append_nil _).symm, fun n hn => ⟨n, hn, rfl, rfl⟩, fun _ _ => ⟨ht.withTable_self.symm, rfl⟩⟩

theorem trans (h : Touches ifnet as es msgs p q T U) (h' : Touches ifnet as' es' msgs' q r U V) :
    Touches ifnet (as ++ as') (es ++ es') (msgs ++ msgs') p r T V := by
  refine ⟨h'.threaded, ?_, ?_, h'.mids.trans h.mids, ?_, ?_, ?_⟩
  · rw [h'.nodes, h.nodes, List.foldl_append]
  · rw [h'.links, h.links, List.foldl_append]
  · rw [h'.queue, h.queue, List.append_assoc]
  · intro n hn
    obtain ⟨n', hn', hname, haddr⟩ := h.stays n hn
    obtain ⟨n'', hn'', hname', haddr'⟩ := h'.stays n' hn'
    exact ⟨n'', hn'', hname'.trans hname, haddr'.trans haddr⟩
  · intro has hes
    obtain ⟨hq, hU⟩ := h.quiet (fun a ha => has a (List.mem_append_left _ ha))
      (fun e he => hes e (List.mem_append_left _ he))
    have hframe := Table.frame_of_unmarked hU
    obtain ⟨hr, hV⟩ := h'.quiet
      (fun a ha => Table.keys_nodeMarks_frame hframe ▸ has a (List.mem_append_right _ ha))
      (fun e he => Table.keys_linkMarks_frame hframe ▸ hes e (List.mem_append_right _ he))
    exact ⟨by rw [hr, hq, Plugin.withTable_withTable], hV.trans hU⟩

/-- A node that is touched twice. -/
theorem once {a : OlsrIpAddr} (h : Touches ifnet [a, a] es msgs p p' T T') : Touches ifnet [a] es msgs p p' T T' := by
  refine ⟨h.threaded, h.nodes.trans touch_touch, h.links, h.mids, h.queue, h.stays, fun has => h.quiet ?_⟩
  simpa using has

end Touches

namespace Threaded

/-! ### Nodes -/

theorem name_eq (ht : Threaded ifnet p T) {n n' : TcNode} (hn : n ∈ T.nodes) (hn' : n' ∈ T.nodes) :
    n'.name = n.name ↔ n'.addr = n.addr := by
  constructor
  · intro h
    rw [List.inj_on_of_nodup_map ht.names hn' hn h]
  · intro h
    rw [List.inj_on_of_nodup_map ht.addrs hn' hn h]

theorem nodeMarks_setNode (ht : Threaded ifnet p T) {n : TcNode} (hn : n ∈ T.nodes) :
    (T.setNode n.name fun e => { e with is_active := true }).nodeMarks = touch T.nodeMarks n.addr := by
  rw [touch, if_pos (Table.keys_nodeMarks ▸ List.mem_map_of_mem hn), Table.nodeMarks, Table.nodeMarks, Table.setNode,
    Records.modify, List.map_map, List.map_map]
  refine List.map_congr_left fun n' hn' => ?_
  have heq := ht.name_eq hn hn'
  by_cases h : n'.name = n.name
  · have haddr := heq.1 h
    simp only [Function.comp_apply, if_pos h, if_pos haddr]
    rw [← haddr]
    rfl
  · simp only [Function.comp_apply, if_neg h, if_neg fun ha => h (heq.2 ha)]

theorem mark_node (ht : Threaded ifnet p T) {n : TcNode} (hn : n ∈ T.nodes) : ∃ p' T',
    (p.setEntry n.name fun e => { e with is_active := true }) = some p' ∧
      Touches ifnet [n.addr] [] [] p p' T T' := by
  refine ⟨_, T.setNode n.name fun e => { e with is_active := true }, ht.setEntry hn _, ?_⟩
  refine ⟨ht.reframe (Table.frame_setNode fun _ => ⟨rfl, rfl⟩), ht.nodeMarks_setNode hn, rfl, rfl,
    (List.append_nil _).symm, ?_, fun _ _ => ⟨rfl, Table.unmarked_setNode⟩⟩
  intro m hm
  refine ⟨_, mem_modify.2 ⟨m, hm, rfl⟩, ?_⟩
  split
  · exact ⟨rfl, rfl⟩
  · exact ⟨rfl, rfl⟩

theorem create_node (ht : Threaded ifnet p T) {a : OlsrIpAddr} (ha : a ∉ T.nodes.map TcNode.addr) : ∃ p' T',
    p.tc_create_node ifnet a = some (p', p.brk) ∧ Touches ifnet [a] [] (nodeMessages ws [a]) p p' T T' ∧
      ∃ n ∈ T'.nodes, n.name = p.brk ∧ n.addr = a := by
  let e : SerTcEntry := { src_addr := a, nb_dst := 0, is_active := true, is_src_local := tc_is_addr_local ifnet a }
  let n : TcNode := ⟨p.brk, e⟩
  let T' : Table := { T with nodes := n :: T.nodes }
  have hnew : p.brk ∉ T.nodes.map TcNode.name := fun hmem => Nat.lt_irrefl _ (ht.bound _ hmem)
  have hgroup : ∀ k, p.brk ∉ group TcNode.key TcNode.name T.nodes k := by
    intro k hmem
    obtain ⟨m, hm, -, hname⟩ := mem_group.1 hmem
    exact hnew (hname ▸ List.mem_map_of_mem hm)
  have hentries : (p.allocEntry e).entries = T'.entries := by
    rw [Table.entries, blocks_cons, ← Table.entries, ← ht.entries]
    rfl
  have hlive : ∀ m ∈ T'.nodes, (p.allocEntry e).liveEntry m.name = true := by
    intro m hm
    rw [Plugin.liveEntry, hentries, Table.entries, blocks_isSome]
    exact List.mem_map_of_mem hm
  have hclear : Holds (p.tab.clear p.brk) (group TcNode.key TcNode.name T.nodes) := ht.tab.clear hgroup
  have hchain : ∀ y ∈ group TcNode.key TcNode.name T.nodes (olsr_ip_hashing a),
      (p.allocEntry e).liveEntry y = true := by
    intro y hy
    obtain ⟨m, hm, -, rfl⟩ := mem_group.1 hy
    exact hlive m (List.mem_cons_of_mem _ hm)
  have hpush : (p.tab.clear p.brk).insertCell (p.allocEntry e).liveEntry (fun _ => true) (olsr_ip_hashing a) p.brk =
      some ((p.tab.clear p.brk).push (olsr_ip_hashing a) p.brk) :=
    hclear.insertCell hchain rfl (hlive n List.mem_cons_self)
  refine ⟨_, T', Option.bind_eq_some_iff.2 ⟨_, hpush, rfl⟩, ?_, n, List.mem_cons_self, rfl, rfl⟩
  refine ⟨?_, ?_, rfl, rfl, rfl, fun m hm => ⟨m, List.mem_cons_of_mem _ hm, rfl, rfl⟩, fun has => ?_⟩
  · apply Threaded.addMessage
    refine ⟨⟨?_, hentries, ht.dsts, ?_, ht.linkNames, ?_, ?_, ?_, ht.pairs, ?_, ?_⟩, ?_⟩
    · -- no link starts at the new block
      refine ht.dst_tab.congr (fun k => ?_) (fun _ _ _ => rfl) fun _ _ _ => rfl
      by_cases hk : k.1 = p.brk
      · refine (if_pos hk).trans ?_
        rw [ht.dst_tab.head k, eq_comm, List.head?_eq_none_iff, List.eq_nil_iff_forall_not_mem]
        intro x hx
        obtain ⟨l, hl, rfl, -⟩ := mem_group.1 hx
        obtain ⟨m, hm, heq⟩ := List.mem_map.1 (ht.sources _ (List.mem_map_of_mem hl))
        have hsrc : m.name = p.brk := (Prod.mk.inj heq).1.trans hk
        exact hnew (hsrc ▸ List.mem_map_of_mem hm)
      · exact if_neg hk
    · exact List.nodup_cons.2 ⟨hnew, ht.names⟩
    · intro x hx
      rcases List.mem_cons.1 hx with rfl | hx
      · exact Nat.lt_succ_self _
      · exact Nat.lt_succ_of_lt (ht.bound x hx)
    · exact fun x hx => Nat.lt_succ_of_lt (ht.linkBound x hx)
    · exact List.nodup_cons.2 ⟨ha, ht.addrs⟩
    · exact fun l hl => List.mem_cons_of_mem _ (ht.sources l hl)
    · intro m hm
      rcases List.mem_cons.1 hm with rfl | hm
      · rfl
      · exact ht.isLocal m hm
    · rw [group_cons]
      exact hclear.push hgroup (Function.update_self _ _ _) _
  · rw [List.foldl_cons, touch, if_neg (Table.keys_nodeMarks ▸ ha)]
    rfl
  · exact absurd (Table.keys_nodeMarks ▸ has a List.mem_cons_self) ha

theorem find_addr (ht : Threaded ifnet p T) {n : TcNode} (hn : n ∈ T.nodes) :
    T.nodes.find? (fun n' => n'.addr = n.addr) = some n := find_name ht.addrs hn

theorem find_pair (ht : Threaded ifnet p T) {l : TcLink} (hl : l ∈ T.links) :
    T.links.find? (fun l' => l'.pair = l.pair) = some l := find_name ht.pairs hl

/-- A node that is there is found and marked. -/
theorem touch_found (ht : Threaded ifnet p T) {n : TcNode} (hn : n ∈ T.nodes) : ∃ p' T',
    p.tc_get_node n.addr = some (some n.name) ∧
      (p.setEntry n.name fun e => { e with is_active := true }) = some p' ∧
      Touches ifnet [n.addr] [] (nodeMessages ws (newcomers T.nodeMarks [n.addr])) p p' T T' ∧
      ∃ n' ∈ T'.nodes, n'.name = n.name ∧ n'.addr = n.addr := by
  obtain ⟨p', T', hset, hT'⟩ := ht.mark_node hn
  have hget : p.tc_get_node n.addr = some (some n.name) := by
    rw [ht.get_node, ht.find_addr hn]
    rfl
  refine ⟨p', T', hget, hset, ?_, hT'.stays n hn⟩
  rw [newcomers, if_pos (Table.keys_nodeMarks ▸ List.mem_map_of_mem hn)]
  exact hT'

/-- A node that is not there is created. -/
theorem touch_new (ht : Threaded ifnet p T) {a : OlsrIpAddr} (ha : a ∉ T.nodes.map TcNode.addr) : ∃ q p' T' x,
    p.tc_get_node a = some none ∧ p.tc_create_node ifnet a = some (q, x) ∧
      (q.setEntry x fun e => { e with is_active := true }) = some p' ∧
      Touches ifnet [a] [] (nodeMessages ws (newcomers T.nodeMarks [a])) p p' T T' ∧
      ∃ n ∈ T'.nodes, n.name = x ∧ n.addr = a := by
  obtain ⟨q, U, hcreate, hU, n, hn, hname, haddr⟩ := ht.create_node ha
  obtain ⟨p', T', hset, hT'⟩ := hU.threaded.mark_node hn
  have hget : p.tc_get_node a = some none := by
    rw [ht.get_node, List.find?_eq_none.2]
    · rfl
    · intro m hm hma
      exact ha (of_decide_eq_true hma ▸ List.mem_map_of_mem hm)
  obtain ⟨n', hn', hname', haddr'⟩ := hT'.stays n hn
  refine ⟨q, p', T', p.brk, hget, hcreate, hname ▸ hset, ?_, n', hn', hname'.trans hname, haddr'.trans haddr⟩
  rw [newcomers, if_neg (Table.keys_nodeMarks ▸ ha)]
  rw [haddr] at hT'
  exact (hU.trans hT').once

/-! ### The ends of a link -/

theorem findSrc_spec (ht : Threaded ifnet p T) {S : Snapshot} {a d : OlsrIpAddr} (hacc : S.accepts ifnet (a, d) = true) :
    ∃ p' T' x, p.findSrc ifnet S a d = some (some (p', x)) ∧
      Touches ifnet [a] [] (nodeMessages ws (newcomers T.nodeMarks [a])) p p' T T' ∧
      ∃ n ∈ T'.nodes, n.name = x ∧ n.addr = a := by
  have hrefuse : (tc_is_addr_local ifnet a && !tc_is_in_neighbourhood S.neighbortable d) = false := by
    rwa [Snapshot.accepts, Bool.not_eq_true'] at hacc
  by_cases ha : a ∈ T.nodes.map TcNode.addr
  · obtain ⟨n, hn, rfl⟩ := List.mem_map.1 ha
    obtain ⟨p', T', hget, hset, hT', hnode⟩ := ht.touch_found hn
    have hlocal : n.block.is_src_local = tc_is_addr_local ifnet n.addr := ht.isLocal _ (List.mem_map_of_mem hn)
    refine ⟨p', T', n.name, ?_, hT', hnode⟩
    rw [Plugin.findSrc, Fault.bind_of_some hget]
    simp only [Fault.bind_of_some (ht.node hn), hlocal, hrefuse, Bool.false_eq_true, if_false]
    exact Option.bind_eq_some_iff.2 ⟨_, hset, rfl⟩
  · obtain ⟨q, p', T', x, hget, hcreate, hset, hT', hnode⟩ := ht.touch_new ha
    refine ⟨p', T', x, ?_, hT', hnode⟩
    rw [Plugin.findSrc, Fault.bind_of_some hget]
    simp only [hrefuse, Bool.false_eq_true, if_false]
    exact Option.bind_eq_some_iff.2 ⟨_, hcreate, Option.bind_eq_some_iff.2 ⟨_, hset, rfl⟩⟩

theorem findSrc_refused (ht : Threaded ifnet p T) {S : Snapshot} {a d : OlsrIpAddr}
    (hacc : S.accepts ifnet (a, d) = false) : p.findSrc ifnet S a d = some none := by
  have hrefuse : (tc_is_addr_local ifnet a && !tc_is_in_neighbourhood S.neighbortable d) = true := by
    rwa [Snapshot.accepts, Bool.not_eq_false'] at hacc
  by_cases ha : a ∈ T.nodes.map TcNode.addr
  · obtain ⟨n, hn, rfl⟩ := List.mem_map.1 ha
    obtain ⟨-, -, hget, -⟩ := ht.touch_found hn
    have hlocal : n.block.is_src_local = tc_is_addr_local ifnet n.addr := ht.isLocal _ (List.mem_map_of_mem hn)
    rw [Plugin.findSrc, Fault.bind_of_some hget]
    simp only [Fault.bind_of_some (ht.node hn), hlocal, hrefuse, if_true]
    rfl
  · obtain ⟨-, -, -, -, hget, -⟩ := ht.touch_new ha
    rw [Plugin.findSrc, Fault.bind_of_some hget]
    simp only [hrefuse, if_true]
    rfl

theorem findDst_spec (ht : Threaded ifnet p T) (d : OlsrIpAddr) : ∃ p' T', p.findDst ifnet d = some p' ∧
    Touches ifnet [d] [] (nodeMessages ws (newcomers T.nodeMarks [d])) p p' T T' := by
  by_cases hd : d ∈ T.nodes.map TcNode.addr
  · obtain ⟨n, hn, rfl⟩ := List.mem_map.1 hd
    obtain ⟨p', T', hget, hset, hT', -⟩ := ht.touch_found hn
    refine ⟨p', T', ?_, hT'⟩
    rw [Plugin.findDst, Fault.bind_of_some hget]
    exact hset
  · obtain ⟨q, p', T', x, hget, hcreate, hset, hT', -⟩ := ht.touch_new hd
    refine ⟨p', T', ?_, hT'⟩
    rw [Plugin.findDst, Fault.bind_of_some hget]
    exact Option.bind_eq_some_iff.2 ⟨_, hcreate, hset⟩

/-! ### The link -/

theorem linkMarks_setLink (ht : Threaded ifnet p T) {l : TcLink} (hl : l ∈ T.links) :
    (T.setLink l.name fun d => { d with is_active := true }).linkMarks = touch T.linkMarks l.pair := by
  rw [touch, if_pos (Table.keys_linkMarks ▸ List.mem_map_of_mem hl), Table.linkMarks, Table.linkMarks, Table.setLink,
    Records.modify, List.map_map, List.map_map]
  refine List.map_congr_left fun l' hl' => ?_
  by_cases h : l'.name = l.name
  · have hpair : l'.pair = l.pair := by rw [List.inj_on_of_nodup_map ht.linkNames hl' hl h]
    simp only [Function.comp_apply, if_pos h, if_pos hpair]
    rw [← hpair]
    rfl
  · have hpair : l'.pair ≠ l.pair := fun hpair => h (by rw [List.inj_on_of_nodup_map ht.pairs hl' hl hpair])
    simp only [Function.comp_apply, if_neg h, if_neg hpair]

theorem mark_link (ht : Threaded ifnet p T) {l : TcLink} (hl : l ∈ T.links) : ∃ p' T',
    (p.setDst l.name fun d => { d with is_active := true }) = some p' ∧ Touches ifnet [] [l.pair] [] p p' T T' := by
  refine ⟨_, T.setLink l.name fun d => { d with is_active := true }, ht.setDst hl _, ?_⟩
  exact ⟨ht.reframe (Table.frame_setLink fun _ => rfl), rfl, ht.linkMarks_setLink hl, rfl, (List.append_nil _).symm,
    fun n hn => ⟨n, hn, rfl, rfl⟩, fun _ _ => ⟨rfl, Table.unmarked_setLink⟩⟩

/-- A new link, not marked yet, at the front of its chain. -/
theorem insert_link (ht : Threaded ifnet p T) {n : TcNode} (hn : n ∈ T.nodes) {d : OlsrIpAddr}
    (hd : (n.addr, d) ∉ T.links.map TcLink.pair) : ∃ dst_tab,
    let q := p.allocDst { dst_addr := d, is_active := false }
    q.dst_tab.insertCell q.liveDst q.liveChain (n.name, olsr_ip_hashing d) p.brk = some dst_tab ∧
      Threaded ifnet { q with dst_tab := dst_tab }
        { T with links := ⟨p.brk, n.name, n.addr, { dst_addr := d, is_active := false }⟩ :: T.links } := by
  let l : TcLink := ⟨p.brk, n.name, n.addr, { dst_addr := d, is_active := false }⟩
  let q := p.allocDst l.block
  let T' : Table := { T with links := l :: T.links }
  have hnew : p.brk ∉ T.links.map TcLink.name := fun hmem => Nat.lt_irrefl _ (ht.linkBound _ hmem)
  have hgroup : ∀ k, p.brk ∉ group TcLink.key TcLink.name T.links k := by
    intro k hmem
    obtain ⟨m, hm, -, hname⟩ := mem_group.1 hmem
    exact hnew (hname ▸ List.mem_map_of_mem hm)
  have hdsts : q.dsts = T'.dsts := by
    rw [Table.dsts, blocks_cons, ← Table.dsts, ← ht.dsts]
    rfl
  have hlive : ∀ m ∈ T'.links, q.liveDst m.name = true := by
    intro m hm
    rw [Plugin.liveDst, hdsts, Table.dsts, blocks_isSome]
    exact List.mem_map_of_mem hm
  have hclear : Holds (p.dst_tab.clear p.brk) (group TcLink.key TcLink.name T.links) := ht.dst_tab.clear hgroup
  have hchain : q.liveChain (n.name, olsr_ip_hashing d) = true := ht.liveEntry hn
  have hmembers : ∀ y ∈ group TcLink.key TcLink.name T.links (n.name, olsr_ip_hashing d), q.liveDst y = true := by
    intro y hy
    obtain ⟨m, hm, -, rfl⟩ := mem_group.1 hy
    exact hlive m (List.mem_cons_of_mem _ hm)
  have hpush : (p.dst_tab.clear p.brk).insertCell q.liveDst q.liveChain (n.name, olsr_ip_hashing d) p.brk =
      some ((p.dst_tab.clear p.brk).push (n.name, olsr_ip_hashing d) p.brk) :=
    hclear.insertCell hmembers hchain (hlive l List.mem_cons_self)
  refine ⟨_, hpush, ⟨?_, ht.entries, hdsts, ht.names, ?_, ?_, ?_, ht.addrs, ?_, ?_, ht.isLocal⟩, ht.tab⟩
  · rw [group_cons]
    exact hclear.push hgroup (Function.update_self _ _ _) _
  · exact List.nodup_cons.2 ⟨hnew, ht.linkNames⟩
  · exact fun x hx => Nat.lt_succ_of_lt (ht.bound x hx)
  · intro x hx
    rcases List.mem_cons.1 hx with rfl | hx
    · exact Nat.lt_succ_self _
    · exact Nat.lt_succ_of_lt (ht.linkBound x hx)
  · exact List.nodup_cons.2 ⟨hd, ht.pairs⟩
  · intro e he
    rcases List.mem_cons.1 he with rfl | he
    · exact List.mem_map_of_mem (f := fun n : TcNode => (n.name, n.addr)) hn
    · exact ht.sources e he

theorem add_link (ht : Threaded ifnet p T) {n : TcNode} (hn : n ∈ T.nodes) {d : OlsrIpAddr}
    (hd : (n.addr, d) ∉ T.links.map TcLink.pair) : ∃ dst_tab q p' T',
    let p₁ := p.allocDst { dst_addr := d, is_active := false }
    p₁.dst_tab.insertCell p₁.liveDst p₁.liveChain (n.name, olsr_ip_hashing d) p.brk = some dst_tab ∧
      ({ p₁ with dst_tab := dst_tab }.setEntry n.name fun e => { e with nb_dst := e.nb_dst + 1 }) = some q ∧
      ((q.dev_add_link n.addr d 1).setDst p.brk fun d => { d with is_active := true }) = some p' ∧
      Touches ifnet [] [(n.addr, d)] (linkMessages ws [(n.addr, d)]) p p' T T' := by
  let l : TcLink := ⟨p.brk, n.name, n.addr, { dst_addr := d, is_active := false }⟩
  obtain ⟨dst_tab, hinsert, h₁⟩ := ht.insert_link hn hd
  let T₁ : Table := { T with links := l :: T.links }
  let T₂ : Table := T₁.setNode n.name fun e => { e with nb_dst := e.nb_dst + 1 }
  have h₂ : Threaded ifnet _ T₂ := h₁.reframe (Table.frame_setNode fun _ => ⟨rfl, rfl⟩)
  have h₃ := h₂.addMessage (.DEV_CMD_ADD_LINK (Plugin.toLong n.addr) (Plugin.toLong d) 1)
  obtain ⟨p', T', hset, hT'⟩ := h₃.mark_link (l := l) List.mem_cons_self
  refine ⟨dst_tab, _, p', T', hinsert, h₁.setEntry hn _, hset, ?_⟩
  have hnodes : T₂.nodeMarks = T.nodeMarks := Table.map_setNode (fun n => (n.addr, n.block.is_active)) fun _ => rfl
  have hlinks : T₂.linkMarks = ((n.addr, d), false) :: T.linkMarks := rfl
  have hnew : (n.addr, d) ∉ keys T.linkMarks := Table.keys_linkMarks ▸ hd
  refine ⟨hT'.threaded, hT'.nodes.trans hnodes, ?_, hT'.mids, ?_, ?_, fun _ hes => absurd (hes _ List.mem_cons_self) hnew⟩
  · rw [hT'.links, hlinks]
    exact touch_cons_false hnew
  · rw [hT'.queue, List.append_nil]
    rfl
  · intro m hm
    have hmem : (if m.name = n.name then { m with block := { m.block with nb_dst := m.block.nb_dst + 1 } } else m) ∈
        T₂.nodes := mem_modify.2 ⟨m, hm, rfl⟩
    obtain ⟨m', hm', hname, haddr⟩ := hT'.stays _ hmem
    refine ⟨m', hm', hname.trans ?_, haddr.trans ?_⟩
    · split <;> rfl
    · split <;> rfl

/-- A link that is accepted touches its ends and the link. -/
theorem tc_addLink_spec (ht : Threaded ifnet p T) {S : Snapshot} {a d : OlsrIpAddr}
    (hacc : S.accepts ifnet (a, d) = true) : ∃ p' T', p.tc_addLink ifnet S a d = some p' ∧
      Touches ifnet [a, d] [(a, d)] (nodeMessages ws (newcomers T.nodeMarks [a, d]) ++
        linkMessages ws (newcomers T.linkMarks [(a, d)])) p p' T T' := by
  obtain ⟨q, U, x, hsrc, hU, n, hn, rfl, rfl⟩ := ht.findSrc_spec hacc
  obtain ⟨r, V, hdst, hV⟩ := hU.threaded.findDst_spec d
  obtain ⟨m, hm, hname, haddr⟩ := hV.stays n hn
  have hends := hU.trans hV
  rw [← nodeMessages_append, hU.nodes, ← newcomers_append, List.singleton_append] at hends
  have hlinks : V.linkMarks = T.linkMarks := hends.links
  have hhead : r.dst_tab.getHead r.liveChain (n.name, olsr_ip_hashing d) =
      some (r.dst_tab.head (n.name, olsr_ip_hashing d)) := by
    rw [← hname]
    exact if_pos (hV.threaded.liveEntry hm)
  have hfind := hV.threaded.get_link hm d
  rw [hname, haddr] at hfind
  by_cases hd : (n.addr, d) ∈ V.links.map TcLink.pair
  · obtain ⟨l, hl, hpair⟩ := List.mem_map.1 hd
    obtain ⟨p', T', hset, hT'⟩ := hV.threaded.mark_link hl
    rw [← hpair, hV.threaded.find_pair hl] at hfind
    refine ⟨p', T', ?_, ?_⟩
    · rw [Plugin.tc_addLink, Fault.bind_of_some hsrc]
      simp only [Fault.bind_of_some hdst, Fault.bind_of_some hhead, Fault.bind_of_some hfind]
      exact hset
    · have harr : newcomers T.linkMarks [(n.addr, d)] = [] := by
        rw [newcomers, ← hlinks, if_pos (Table.keys_linkMarks ▸ hd)]
        rfl
      rw [harr]
      rw [hpair] at hT'
      exact hends.trans hT'
  · rw [← haddr] at hd
    obtain ⟨dst_tab, q', p', T', hinsert, hcount, hset, hT'⟩ := hV.threaded.add_link hm hd
    rw [hname] at hinsert hcount
    rw [haddr] at hset hT' hd
    have hnone : V.links.find? (fun l => l.pair = (n.addr, d)) = none := by
      rw [List.find?_eq_none]
      intro l hl hpair
      exact hd (of_decide_eq_true hpair ▸ List.mem_map_of_mem hl)
    rw [hnone] at hfind
    refine ⟨p', T', ?_, ?_⟩
    · rw [Plugin.tc_addLink, Fault.bind_of_some hsrc]
      simp only [Fault.bind_of_some hdst, Fault.bind_of_some hhead, Fault.bind_of_some hfind]
      exact Option.bind_eq_some_iff.2 ⟨_, hinsert, Option.bind_eq_some_iff.2 ⟨_, hcount, hset⟩⟩
    · have harr : newcomers T.linkMarks [(n.addr, d)] = [(n.addr, d)] := by
        rw [newcomers, ← hlinks, if_neg (Table.keys_linkMarks ▸ hd)]
        rfl
      rw [harr]
      exact hends.trans hT'

theorem tc_addLink_refused (ht : Threaded ifnet p T) {S : Snapshot} {a d : OlsrIpAddr}
    (hacc : S.accepts ifnet (a, d) = false) : p.tc_addLink ifnet S a d = some p := by
  rw [Plugin.tc_addLink, Fault.bind_of_some (ht.findSrc_refused hacc)]
  rfl

/-! ### The loop over the edges -/

theorem tc_addLinks_spec (ht : Threaded ifnet p T) (S : Snapshot) (es : List (OlsrIpAddr × OlsrIpAddr)) : ∃ p' T',
    es.foldlM (fun p e => p.tc_addLink ifnet S e.1 e.2) p = some p' ∧
      Touches ifnet (endpoints (es.filter (S.accepts ifnet))) (es.filter (S.accepts ifnet))
        (announce ws T.nodeMarks T.linkMarks (es.filter (S.accepts ifnet))) p p' T T' := by
  induction es generalizing p T with
  | nil => exact ⟨p, T, rfl, .refl ht⟩
  | cons e es ih =>
    by_cases hacc : S.accepts ifnet e = true
    · obtain ⟨q, U, hadd, hU⟩ := ht.tc_addLink_spec (a := e.1) (d := e.2) hacc
      obtain ⟨p', T', hrun, hT'⟩ := ih hU.threaded
      refine ⟨p', T', ?_, ?_⟩
      · rw [List.foldlM_cons, Fault.bind_of_some hadd]
        exact hrun
      · rw [List.filter_cons_of_pos hacc]
        rw [hU.nodes, hU.links] at hT'
        exact hU.trans hT'
    · have hrefused := ht.tc_addLink_refused (Bool.eq_false_iff.2 hacc)
      obtain ⟨p', T', hrun, hT'⟩ := ih ht
      refine ⟨p', T', ?_, ?_⟩
      · rw [List.foldlM_cons, Fault.bind_of_some hrefused]
        exact hrun
      · rw [List.filter_cons_of_neg hacc]
        exact hT'

end Threaded

end MpOlsr
