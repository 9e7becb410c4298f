import MpOlsr.Lib.Simulation
import MpOlsr.Topology.Coherence

/-!
# Runs that keep the local links

The table of local links is coherent after every run whose commands reach the entries that they have to change
(`local_links_coherent`).  Such a command uses the main address of the local node for its links, names another node by
its main address when there is an entry for it, and does not meet two entries for one neighbour unless it adds or
removes a link.
-/

namespace MpOlsr

open DoublyLinked Fault

variable {ws : WordSize} {h h' : Store ws} {g g' : Shape ws}

/-! ### Coherence -/

/-- The main address of a node. -/
def mainIp (h : Store ws) (n : Ptr) : Option (ip_v4_addr ws) := do
  let nd ← h.nodes n
  let p ← nd.addr_tab 0
  let a ← h.node_addrs p
  return a.addr_ip

def HasAddr (h : Store ws) (n : Ptr) (a : ip_v4_addr ws) : Prop :=
  ∃ nd i p b, h.nodes n = some nd ∧ nd.addr_tab i = some p ∧ h.node_addrs p = some b ∧ b.addr_ip = a

/-- A live link from the local node to the node with a main address. -/
def LocalEdge (h : Store ws) (d : ip_v4_addr ws) : Prop :=
  ∃ p b s t, h.link_blocks p = some b ∧ b.src_node = some s ∧ b.dst_node = some t ∧
    mainIp h s = some (h.g_local_addr_tab 0) ∧ mainIp h t = some d

/-- An entry for a node: an address of the node in the network of the interface, or zero if no interface shares a
network with an address of the node. -/
def OnInterface (h : Store ws) (n : Ptr) (l : LocalLinkEntry ws) : Prop :=
  (∃ i, h.g_local_addr_tab i &&& h.g_local_mask_tab i ≠ 0 ∧ l.local_addr_alias = h.g_local_addr_tab i ∧
    l.local_addr_mask = h.g_local_mask_tab i ∧ HasAddr h n l.dst_alias_ip ∧
    l.dst_alias_ip &&& h.g_local_mask_tab i = h.g_local_addr_tab i &&& h.g_local_mask_tab i) ∨
  l.dst_alias_ip = 0 ∧ l.local_addr_alias = 0 ∧ l.local_addr_mask = 0 ∧
    ∀ i a, h.g_local_addr_tab i &&& h.g_local_mask_tab i ≠ 0 → HasAddr h n a →
      a &&& h.g_local_mask_tab i ≠ h.g_local_addr_tab i &&& h.g_local_mask_tab i

/-- There is an entry for a neighbour exactly if there is a link to it, and the entries are up to date. -/
structure Coherent (h : Store ws) : Prop where
  entries : ∀ d, (∃ l ∈ h.g_local_links, l.dst_addr_ip = d) ↔ LocalEdge h d
  computed : ∀ l ∈ h.g_local_links, ∃ n, mainIp h n = some l.dst_addr_ip ∧ tc_update_local_link h n = some l ∧
    OnInterface h n l

section Interface

theorem findInterface_some {tab : Slot → Option Ptr} {mask net a : ip_v4_addr ws} {is : List Slot}
    (hf : findInterface h tab mask net is = some (some a)) :
    a &&& mask = net ∧ ∃ i p b, tab i = some p ∧ h.node_addrs p = some b ∧ b.addr_ip = a := by
  induction is with
  | nil => cases hf
  | cons i is ih =>
    rw [findInterface] at hf
    split at hf
    · exact ih hf
    · next p hp =>
      obtain ⟨b, hb, hf⟩ := Option.bind_eq_some_iff.1 hf
      split at hf
      · next hnet =>
        cases hf
        exact ⟨hnet, i, p, b, hp, hb, rfl⟩
      · exact ih hf

theorem findInterface_none {tab : Slot → Option Ptr} {mask net : ip_v4_addr ws} {is : List Slot}
    (hf : findInterface h tab mask net is = some none) :
    ∀ i ∈ is, ∀ p b, tab i = some p → h.node_addrs p = some b → b.addr_ip &&& mask ≠ net := by
  induction is with
  | nil => exact fun i hi => absurd hi List.not_mem_nil
  | cons j is ih =>
    intro i hi p b hp hb
    rw [findInterface] at hf
    split at hf
    · next hnone =>
      rcases List.mem_cons.1 hi with rfl | hi
      · rw [hnone] at hp
        cases hp
      · exact ih hf i hi p b hp hb
    · next q hq =>
      obtain ⟨b', hb', hf⟩ := Option.bind_eq_some_iff.1 hf
      split at hf
      · cases hf
      · next hnet =>
        rcases List.mem_cons.1 hi with rfl | hi
        · rw [hq] at hp
          cases hp
          rw [hb'] at hb
          cases hb
          exact hnet
        · exact ih hf i hi p b hp hb

theorem findLocalInterface_cases {tab : Slot → Option Ptr} {link l : LocalLinkEntry ws} {is : List Slot}
    (hf : findLocalInterface h tab link is = some l) :
    (∃ i a, h.g_local_addr_tab i &&& h.g_local_mask_tab i ≠ 0 ∧
      findInterface h tab (h.g_local_mask_tab i) (h.g_local_addr_tab i &&& h.g_local_mask_tab i) [0, 1, 2, 3, 4] =
        some (some a) ∧
      l = { link with dst_alias_ip := a, local_addr_alias := h.g_local_addr_tab i,
                      local_addr_mask := h.g_local_mask_tab i }) ∨
    l = link ∧ ∀ i ∈ is, h.g_local_addr_tab i &&& h.g_local_mask_tab i ≠ 0 →
      findInterface h tab (h.g_local_mask_tab i) (h.g_local_addr_tab i &&& h.g_local_mask_tab i) [0, 1, 2, 3, 4] =
        some none := by
  induction is with
  | nil =>
    cases hf
    exact Or.inr ⟨rfl, fun i hi => absurd hi List.not_mem_nil⟩
  | cons j is ih =>
    rw [findLocalInterface] at hf
    split at hf
    · next hzero =>
      rcases ih hf with hfound | ⟨hl, hall⟩
      · exact Or.inl hfound
      · refine Or.inr ⟨hl, fun i hi hne => ?_⟩
        rcases List.mem_cons.1 hi with rfl | hi
        · exact absurd hzero hne
        · exact hall i hi hne
    · next hnet =>
      obtain ⟨found, hfound, hf⟩ := Option.bind_eq_some_iff.1 hf
      cases found with
      | none =>
        rcases ih hf with hfound' | ⟨hl, hall⟩
        · exact Or.inl hfound'
        · refine Or.inr ⟨hl, fun i hi hne => ?_⟩
          rcases List.mem_cons.1 hi with rfl | hi
          · exact hfound
          · exact hall i hi hne
      | some a =>
        cases hf
        exact Or.inl ⟨j, a, hnet, hfound, rfl⟩

/-- What `tc_update_local_link` computes. -/
theorem tc_update_local_link_spec {n : Ptr} {l : LocalLinkEntry ws} (hl : tc_update_local_link h n = some l) :
    mainIp h n = some l.dst_addr_ip ∧ OnInterface h n l := by
  obtain ⟨nd, hnd, hl⟩ := Option.bind_eq_some_iff.1 hl
  obtain ⟨p, hp, hl⟩ := Option.bind_eq_some_iff.1 hl
  obtain ⟨a, ha, hl⟩ := Option.bind_eq_some_iff.1 hl
  have hmain : mainIp h n = some a.addr_ip := by
    unfold mainIp
    rw [bind_of_some hnd, bind_of_some hp, bind_of_some ha]
    rfl
  rcases findLocalInterface_cases hl with ⟨i, addr, hnet, hfound, rfl⟩ | ⟨rfl, hall⟩
  · obtain ⟨hin, j, q, b, hq, hb, haddr⟩ := findInterface_some hfound
    exact ⟨hmain, Or.inl ⟨i, hnet, rfl, rfl, ⟨nd, j, q, b, hnd, hq, hb, haddr⟩, hin⟩⟩
  · refine ⟨hmain, Or.inr ⟨rfl, rfl, rfl, ?_⟩⟩
    rintro i addr hnet ⟨nd', j, q, b, hnd', hq, hb, rfl⟩
    rw [hnd] at hnd'
    cases hnd'
    have hslots : ∀ k : Slot, k ∈ ([0, 1, 2, 3, 4] : List Slot) := by decide
    exact findInterface_none (hall i (hslots i) hnet) j (hslots j) q b hq hb

end Interface

/-! ### The commands that keep it -/

/-- The node that an address finds. -/
def ownerOf (h : Store ws) (a : ip_v4_addr ws) : Option Ptr := (tc_get_node h a).join

/-- No address is registered for two nodes. -/
def oneOwner (h : Store ws) : OlsrEventMessage ws → Bool
  | .DEV_CMD_ADD_ALIAS a b =>
    match ownerOf h a, ownerOf h b with
    | some n, some m => n = m
    | _, _ => true
  | _ => true

def isLocal (h : Store ws) (n : Ptr) : Bool := mainIp h n = some (h.g_local_addr_tab 0)

/-- The number of entries for a node. -/
def entriesTo (h : Store ws) (n : Ptr) : ℕ := h.g_local_links.countP fun l => mainIp h n = some l.dst_addr_ip

/-- The entries for a node that `addr_ip` finds: there is none, or one and the address is the main address. -/
def reached (h : Store ws) (n : Ptr) (addr_ip : ip_v4_addr ws) : Bool :=
  entriesTo h n = 0 || mainIp h n = some addr_ip && entriesTo h n = 1

/-- The node has no link to the node with a main address. -/
def noLink (h : Store ws) (n : Ptr) (d : ip_v4_addr ws) : Bool :=
  (h.src.getHead h.liveNode n).bind (search (h.src.getNext h.liveLink) (leadsTo h d) h.brk) = some none

/-- A command reaches the local links that it has to change. -/
def reachesLocalLinks (h : Store ws) : OlsrEventMessage ws → Bool
  | .DEV_CMD_ADD_LINK s d _ =>
    match ownerOf h s, ownerOf h d with
    | some n, some _ => decide (s = h.g_local_addr_tab 0) == isLocal h n
    | _, _ => true
  | .DEV_CMD_REMOVE_LINK s d =>
    match ownerOf h s with
    | none => true
    | some n => decide (s = h.g_local_addr_tab 0) == isLocal h n || noLink h n d
  | .DEV_CMD_REMOVE_NODE a =>
    match ownerOf h a with
    | none => true
    | some n => decide (a = h.g_local_addr_tab 0) ||
        if isLocal h n then h.g_local_links.isEmpty else reached h n a
  | .DEV_CMD_ADD_ALIAS a _ =>
    match ownerOf h a with
    | none => true
    | some n => reached h n a
  | .DEV_CMD_REMOVE_ALIAS a b =>
    match ownerOf h a, ownerOf h b with
    | some n, some m => entriesTo h m = 0 || m = n && reached h n a
    | _, _ => true
  | _ => true

/-! ### One command -/

/-- The store represents a shape whose local links are mirrored. -/
structure Mirrored (h : Store ws) (g : Shape ws) : Prop extends WellFormed h g where
  owner : OneOwner g.addrs
  mirrors : Mirrors h.g_local_addr_tab h.g_local_mask_tab h.g_local_links g

section Views

theorem Rep.mainIp_eq (hr : Rep h g) {n : Ptr} (hn : n ∈ g.nodes) : mainIp h n = some (g.mainOf n) := by
  obtain ⟨nd, hnd⟩ := hr.node hn
  obtain ⟨e, he, hentry⟩ := hr.main_entry hn
  have htab := hr.addrsRep.tab n hn nd hnd 0
  rw [hentry, Option.map_some] at htab
  have hmain := hr.mainAddr_eq hn
  rw [mainAddr, hentry, Option.map_some] at hmain
  unfold mainIp
  rw [bind_of_some hnd, bind_of_some htab, bind_of_some (hr.addrsRep.blocks e he), ← hmain]
  rfl

theorem Rep.ownerOf_eq (hr : Rep h g) (a : ip_v4_addr ws) : ownerOf h a = (resolve g.addrs a).map AddrInfo.node := by
  rw [ownerOf, hr.get_node]
  rfl

theorem Rep.isLocal_iff (hr : Rep h g) {n : Ptr} (hn : n ∈ g.nodes) :
    isLocal h n = true ↔ g.mainOf n = h.g_local_addr_tab 0 := by
  rw [isLocal, hr.mainIp_eq hn, decide_eq_true_eq, Option.some_inj]

theorem Rep.entriesTo_eq (hr : Rep h g) {n : Ptr} (hn : n ∈ g.nodes) :
    entriesTo h n = entriesFor h.g_local_links (g.mainOf n) := by
  rw [entriesTo, hr.mainIp_eq hn]
  refine List.countP_congr fun l _ => ?_
  simp [eq_comm]

theorem Rep.reached_iff (hr : Rep h g) {n : Ptr} (hn : n ∈ g.nodes) (a : ip_v4_addr ws) :
    reached h n a = true ↔ entriesFor h.g_local_links (g.mainOf n) = 0 ∨
      g.mainOf n = a ∧ entriesFor h.g_local_links (g.mainOf n) = 1 := by
  rw [reached, hr.entriesTo_eq hn, hr.mainIp_eq hn]
  simp

theorem Rep.noLink_iff (hr : Rep h g) {n : Ptr} (hn : n ∈ g.nodes) (d : ip_v4_addr ws) :
    noLink h n d = true ↔ findLink g n d = none := by
  have hhead : h.src.getHead h.liveNode n = some (h.src.head n) := if_pos (hr.liveNode hn)
  rw [noLink, hhead, Option.bind_some, hr.search_link, decide_eq_true_eq, Option.some_inj, Option.map_eq_none_iff]

theorem Mirrors.of_sameLocals {L : List (LocalLinkEntry ws)} (hs : SameLocals (h.withLinks L) h')
    (hm : Mirrors h.g_local_addr_tab h.g_local_mask_tab L g) :
    Mirrors h'.g_local_addr_tab h'.g_local_mask_tab h'.g_local_links g := by
  rw [hs.addrs, hs.masks, hs.links]
  exact hm

/-- Without links from the local node there are no local links. -/
theorem Mirrors.links_eq_nil {addrs masks : Slot → ip_v4_addr ws} {links : List (LocalLinkEntry ws)}
    (hm : Mirrors addrs masks links g) (hg : g.links = []) : links = [] := by
  rw [List.eq_nil_iff_forall_not_mem]
  intro l hl
  have hcount := hm.count l.dst_addr_ip
  rw [edgesTo, hg, List.countP_nil, entriesFor_eq_zero] at hcount
  exact hcount l hl rfl

theorem Mirrors.nil {addrs masks : Slot → ip_v4_addr ws} (hg : g.links = []) : Mirrors addrs masks [] g := by
  refine ⟨fun d => ?_, fun l hl => absurd hl List.not_mem_nil⟩
  rw [edgesTo, hg]
  rfl

end Views

theorem OneOwner.sublist {A B : List (AddrInfo ws)} (ho : OneOwner A) (h : B ⊆ A) : OneOwner B :=
  fun e he e' he' => ho e (h he) e' (h he')

theorem OneOwner.cons {A : List (AddrInfo ws)} (ho : OneOwner A) {e : AddrInfo ws}
    (he : ∀ e' ∈ A, e'.addr_ip = e.addr_ip → e'.node = e.node) : OneOwner (e :: A) := by
  intro x hx y hy hxy
  rcases List.mem_cons.1 hx with rfl | hxA
  · rcases List.mem_cons.1 hy with rfl | hyA
    · rfl
    · exact (he y hyA hxy.symm).symm
  · rcases List.mem_cons.1 hy with rfl | hyA
    · exact he x hxA hxy
    · exact ho x hxA y hyA hxy

/-- An address still belongs to one node after a command. -/
theorem Rep.oneOwner_act (hr : Rep h g) (ho : OneOwner g.addrs) {m : OlsrEventMessage ws}
    (hone : oneOwner h m = true) : OneOwner (g.act h.brk m).addrs := by
  cases m with
  | DEV_CMD_RESET_TC => exact fun e he => absurd he List.not_mem_nil
  | DEV_CMD_ADD_NODE a =>
    rw [Shape.act]
    cases ha : resolve g.addrs a with
    | some e => exact ho
    | none => exact ho.cons fun e he heq => absurd heq (resolve_eq_none.1 ha e he)
  | DEV_CMD_REMOVE_NODE a =>
    rw [Shape.act]
    cases ha : resolve g.addrs a with
    | none => exact ho
    | some e => exact ho.sublist (List.filter_subset_self _)
  | DEV_CMD_ADD_LINK s d c =>
    rw [Shape.act]
    split
    · exact ho
    · exact ho
  | DEV_CMD_REMOVE_LINK s d =>
    rw [Shape.act]
    split
    · exact ho
    · exact ho
  | DEV_CMD_ADD_ALIAS a b =>
    rw [Shape.act]
    cases ha : resolve g.addrs a with
    | none => exact ho
    | some e =>
      cases hi : freeSlot g.addrs e.node with
      | none =>
        simp only [hi]
        exact ho
      | some i =>
        simp only [hi]
        refine ho.cons fun x hx hxb => ?_
        cases hb : resolve g.addrs b with
        | none => exact absurd hxb (resolve_eq_none.1 hb x hx)
        | some y =>
          have hnode : e.node = y.node := by
            rw [oneOwner, hr.ownerOf_eq, hr.ownerOf_eq, ha, hb] at hone
            exact of_decide_eq_true hone
          obtain ⟨hy, hyb⟩ := resolve_mem hb
          exact (ho x hx y hy (hxb.trans hyb.symm)).trans hnode.symm
  | DEV_CMD_REMOVE_ALIAS a b =>
    rw [Shape.act]
    split
    · exact ho.sublist (List.filter_subset_self _)
    · exact ho
  | DEV_CMD_SET_LOCAL_ADDR a k => exact ho
  | DEV_CMD_SET_ALIAS_ADDR a k => exact ho

/-- The addresses of the other nodes do not change with the entries of one node. -/
theorem entryAt_addEntry {A : List (AddrInfo ws)} {e : AddrInfo ws} {m : Ptr} (hm : m ≠ e.node) (i : Slot) :
    entryAt (e :: A) m i = entryAt A m i := by
  rw [entryAt_cons, if_neg fun hh => hm hh.1.symm]

theorem entryAt_dropEntry {A : List (AddrInfo ws)} (hnames : (A.map AddrInfo.name).Nodup) {e : AddrInfo ws}
    (he : e ∈ A) {m : Ptr} (hm : m ≠ e.node) (i : Slot) : entryAt (dropEntry A e) m i = entryAt A m i := by
  rw [dropEntry, entryAt, List.find?_filter, entryAt]
  refine List.find?_congr fun x hx => ?_
  by_cases hname : x.name = e.name
  · rw [eq_of_name hnames hx he hname]
    simp [hm.symm]
  · simp [hname]

/-- A new alias: the entry of its node is found, or there is none. -/
theorem Mirrored.addEntry (ht : Mirrored h g) {a : ip_v4_addr ws} {e : AddrInfo ws} (ha : resolve g.addrs a = some e)
    (e' : AddrInfo ws) (hnode : e'.node = e.node) (hpos : e'.pos ≠ 0) (hreach : reached h e.node a = true) :
    Mirrors h.g_local_addr_tab h.g_local_mask_tab (replaceLocalLink a
      (linkEntry h.g_local_addr_tab h.g_local_mask_tab (g.addEntry e').addrs e.node) h.g_local_links)
      (g.addEntry e') := by
  have hr := ht.toRep
  have hn := hr.resolve_node ha
  have hothers : ∀ m, m ≠ e.node → ∀ i, entryAt (g.addEntry e').addrs m i = entryAt g.addrs m i :=
    fun m hm i => entryAt_addEntry (hnode ▸ hm) i
  rcases (hr.reached_iff hn a).1 hreach with hnone | ⟨hmain, hone⟩
  · have hself : replaceLocalLink a (linkEntry h.g_local_addr_tab h.g_local_mask_tab (g.addEntry e').addrs e.node)
        h.g_local_links = h.g_local_links := by
      refine replaceLocalLink_eq_self fun l hl hla => ?_
      have hmain := ht.mirrors.mainOf_of_entry hr ht.owner ha hl hla
      exact absurd (hla.trans hmain.symm) (entriesFor_eq_zero.1 hnone l hl)
    rw [hself]
    exact ht.mirrors.ofOthers (g.addEntry e') rfl rfl (g.mainOf_addEntry hpos) hothers hnone
  · rw [hmain] at hone
    exact ht.mirrors.recompute (g.addEntry e') rfl rfl (g.mainOf_addEntry hpos) hn hothers hmain hone

/-- An alias is removed: the entry of its node is found, or there is none. -/
theorem Mirrored.dropEntry (ht : Mirrored h g) {a b : ip_v4_addr ws} {e e' : AddrInfo ws}
    (ha : resolve g.addrs a = some e) (hb : resolve g.addrs b = some e') (hpos : e'.pos ≠ 0)
    (hreach : entriesTo h e'.node = 0 ∨ e'.node = e.node ∧ reached h e.node a = true) :
    Mirrors h.g_local_addr_tab h.g_local_mask_tab (replaceLocalLink a
      (linkEntry h.g_local_addr_tab h.g_local_mask_tab (g.dropEntry e').addrs e.node) h.g_local_links)
      (g.dropEntry e') := by
  have hr := ht.toRep
  have hn := hr.resolve_node ha
  have hn' := hr.resolve_node hb
  have he' := (resolve_mem hb).1
  have hmain := hr.mainOf_dropEntry he' hpos
  have hothers : ∀ m, m ≠ e'.node → ∀ i, entryAt (g.dropEntry e').addrs m i = entryAt g.addrs m i :=
    fun m hm i => entryAt_dropEntry hr.addrsRep.names he' hm i
  have hnone : entriesFor h.g_local_links (g.mainOf e'.node) = 0 → Mirrors h.g_local_addr_tab h.g_local_mask_tab
      (replaceLocalLink a (linkEntry h.g_local_addr_tab h.g_local_mask_tab (g.dropEntry e').addrs e.node)
        h.g_local_links) (g.dropEntry e') := by
    intro hzero
    have hm := ht.mirrors.ofOthers (g.dropEntry e') rfl rfl hmain hothers hzero
    have hmains : ∀ n ∈ g.nodes, ∀ m ∈ g.nodes, (g.dropEntry e').mainOf n = (g.dropEntry e').mainOf m → n = m := by
      intro n hn m hm heq
      rw [hmain, hmain] at heq
      exact ht.mains n hn m hm heq
    rw [hm.replace_self hmains hn fun l hl hla => (hmain _).trans (ht.mirrors.mainOf_of_entry hr ht.owner ha hl hla)]
    exact hm
  rcases hreach with hzero | ⟨hsame, hreach⟩
  · rw [hr.entriesTo_eq hn'] at hzero
    exact hnone hzero
  · rcases (hr.reached_iff hn a).1 hreach with hzero | ⟨ha', hone⟩
    · exact hnone (hsame ▸ hzero)
    · rw [ha'] at hone
      exact ht.mirrors.recompute (g.dropEntry e') rfl rfl hmain hn (fun m hm i => hothers m (hsame ▸ hm) i) ha' hone

/-- The events that set an address of the local node. -/
def setsLocal : OlsrEventMessage ws → Bool
  | .DEV_CMD_SET_LOCAL_ADDR _ _ => true
  | .DEV_CMD_SET_ALIAS_ADDR _ _ => true
  | _ => false

def addsLink : OlsrEventMessage ws → Bool
  | .DEV_CMD_ADD_LINK _ _ _ => true
  | _ => false

/-- The local links still mirror the links after a command. -/
theorem Mirrored.mirrors_act (ht : Mirrored h g) {m : OlsrEventMessage ws} (hcare : careful h m = true)
    (hreach : reachesLocalLinks h m = true) (hset : setsLocal m = true → g.links = []) (hrun : handleRead h m = some h')
    (hr' : Rep h' (g.act h.brk m)) :
    Mirrors h'.g_local_addr_tab h'.g_local_mask_tab h'.g_local_links (g.act h.brk m) := by
  have hr := ht.toRep
  cases m with
  | DEV_CMD_RESET_TC =>
    obtain ⟨s₁, -, hrun⟩ := Option.bind_eq_some_iff.1 hrun
    obtain ⟨s₂, -, hrun⟩ := Option.bind_eq_some_iff.1 hrun
    cases hrun
    exact Mirrors.nil rfl
  | DEV_CMD_ADD_NODE a =>
    have hsame := tc_add_node_locals hrun
    rw [Shape.act]
    cases ha : resolve g.addrs a with
    | some e => exact ht.mirrors.of_sameLocals (L := h.g_local_links) hsame
    | none => exact (ht.mirrors.addNode hr hr.fresh_node _ a).of_sameLocals (L := h.g_local_links) hsame
  | DEV_CMD_REMOVE_NODE a =>
    rw [Shape.act]
    cases ha : resolve g.addrs a with
    | none =>
      have hsame : h' = h := Option.some.inj (hrun.symm.trans (tc_remove_node_unknown hr ha))
      rw [hsame]
      exact ht.mirrors
    | some e =>
      have hn := hr.resolve_node ha
      have hget := hr.get_node a
      rw [ha, Option.map_some] at hget
      refine Mirrors.of_sameLocals (tc_remove_node_locals hget hrun) ?_
      refine ht.mirrors.dropNode ht.toWellFormed ht.owner ha ?_
      intro hne
      rw [reachesLocalLinks, hr.ownerOf_eq, ha] at hreach
      have hreach := (Bool.or_eq_true_iff.1 hreach).resolve_left (by simpa using hne)
      by_cases hmain : g.mainOf e.node = h.g_local_addr_tab 0
      · rw [if_pos ((hr.isLocal_iff hn).2 hmain)] at hreach
        rw [if_pos hmain]
        exact List.isEmpty_iff.1 hreach
      · rw [if_neg fun hh => hmain ((hr.isLocal_iff hn).1 hh)] at hreach
        rw [if_neg hmain]
        exact (hr.reached_iff hn a).1 hreach
  | DEV_CMD_ADD_LINK s d c =>
    rw [Shape.act]
    cases hs : resolve g.addrs s with
    | none => exact ht.mirrors.of_sameLocals (L := h.g_local_links) (tc_add_link_locals_unknown hr (Or.inl hs) hrun)
    | some es =>
      cases hd : resolve g.addrs d with
      | none => exact ht.mirrors.of_sameLocals (L := h.g_local_links) (tc_add_link_locals_unknown hr (Or.inr hd) hrun)
      | some ed =>
        refine Mirrors.of_sameLocals (tc_add_link_locals hr hs hd hrun) ?_
        refine ht.mirrors.addLink (l := ⟨h.brk, es.node, ed.node, _⟩) (hr.resolve_node hd) ?_
        rw [reachesLocalLinks, hr.ownerOf_eq, hr.ownerOf_eq, hs, hd] at hreach
        rw [← hr.isLocal_iff (hr.resolve_node hs), ← eq_of_beq hreach, decide_eq_true_eq]
  | DEV_CMD_REMOVE_LINK s d =>
    rw [Shape.act]
    cases hs : resolve g.addrs s with
    | none =>
      have hsame : h' = h := Option.some.inj (hrun.symm.trans (tc_remove_link_unknown hr hs))
      rw [hsame]
      exact ht.mirrors
    | some e =>
      rw [Option.bind_some]
      cases hfind : findLink g e.node d with
      | none =>
        have hsame : h' = h := Option.some.inj (hrun.symm.trans (tc_remove_link_none hr hs hfind))
        rw [hsame]
        exact ht.mirrors
      | some l =>
        have hl : l ∈ g.links := List.mem_of_find?_eq_some hfind
        obtain ⟨hsrc, hdst⟩ : l.src = e.node ∧ mainAddr g.addrs l.dst = some d := by
          simpa using List.find?_some hfind
        rw [reachesLocalLinks, hr.ownerOf_eq, hs] at hreach
        have hreach := (Bool.or_eq_true_iff.1 hreach).resolve_right fun hno => by
          have hnone := (hr.noLink_iff (hr.resolve_node hs) d).1 hno
          rw [hnone] at hfind
          cases hfind
        refine Mirrors.of_sameLocals (tc_remove_link_locals hr hs hfind hrun) (ht.mirrors.dropLink hr hl ?_ ?_)
        · rw [Shape.mainOf, hdst]
          rfl
        · rw [hsrc, ← hr.isLocal_iff (hr.resolve_node hs), ← eq_of_beq hreach, decide_eq_true_eq]
  | DEV_CMD_ADD_ALIAS a b =>
    rw [Shape.act] at hr' ⊢
    cases ha : resolve g.addrs a with
    | none => exact ht.mirrors.of_sameLocals (L := h.g_local_links) (tc_add_alias_locals_unknown hr ha hrun)
    | some e =>
      rw [reachesLocalLinks, hr.ownerOf_eq, ha] at hreach
      have hn := hr.resolve_node ha
      cases hi : freeSlot g.addrs e.node with
      | none =>
        simp only [ha, hi] at hr' ⊢
        have hlocals := tc_add_alias_locals hr ha hr' hn hrun
        rw [ht.mirrors.replace_self ht.mains hn fun l hl hla => ht.mirrors.mainOf_of_entry hr ht.owner ha hl hla]
          at hlocals
        exact ht.mirrors.of_sameLocals hlocals
      | some i =>
        simp only [ha, hi] at hr' ⊢
        have hm := ht.addEntry ha ⟨h.brk, b, e.node, i⟩ rfl (freeSlot_spec hi).2 hreach
        exact hm.of_sameLocals (tc_add_alias_locals hr ha hr' hn hrun)
  | DEV_CMD_REMOVE_ALIAS a b =>
    rw [Shape.act]
    cases ha : resolve g.addrs a with
    | none =>
      have hsame : h' = h := Option.some.inj (hrun.symm.trans (tc_remove_alias_unknown hr ha))
      rw [hsame]
      exact ht.mirrors
    | some e =>
      have hn := hr.resolve_node ha
      cases hb : resolve g.addrs b with
      | none =>
        have hlocals := tc_remove_alias_locals_none hr ha hb hrun
        rw [ht.mirrors.replace_self ht.mains hn fun l hl hla => ht.mirrors.mainOf_of_entry hr ht.owner ha hl hla]
          at hlocals
        exact ht.mirrors.of_sameLocals hlocals
      | some e' =>
        have hpos : e'.pos ≠ 0 := by
          rw [careful, hr.get_node, ha, tc_find_addr_spec hr.addrsRep, hb] at hcare
          have hblock := hr.addrsRep.blocks e' (resolve_mem hb).1
          simpa [hblock, AddrInfo.block] using hcare
        rw [reachesLocalLinks, hr.ownerOf_eq, hr.ownerOf_eq, ha, hb] at hreach
        refine (ht.dropEntry ha hb hpos ?_).of_sameLocals (tc_remove_alias_locals hr ha hb hpos hrun)
        simpa using hreach
  | DEV_CMD_SET_LOCAL_ADDR a k =>
    have hnil := hset rfl
    cases hrun
    have hlinks : (tc_set_local_addr h a k).g_local_links = [] := ht.mirrors.links_eq_nil hnil
    rw [hlinks]
    exact Mirrors.nil hnil
  | DEV_CMD_SET_ALIAS_ADDR a k =>
    have hnil := hset rfl
    cases hrun
    have hlinks : (tc_set_local_alias h a k).g_local_links = [] := by
      rw [← ht.mirrors.links_eq_nil hnil]
      unfold tc_set_local_alias
      split
      · rfl
      · rfl
    rw [hlinks]
    exact Mirrors.nil hnil

/-- A command that reaches the local links keeps them mirrored. -/
theorem Mirrored.step (ht : Mirrored h g) {m : OlsrEventMessage ws} (hcare : careful h m = true)
    (hone : oneOwner h m = true) (hreach : reachesLocalLinks h m = true) (hset : setsLocal m = true → g.links = []) :
    ∃ h', handleRead h m = some h' ∧ Mirrored h' (g.act h.brk m) := by
  obtain ⟨h', hrun, hw'⟩ := handleRead_wellFormed ht.toWellFormed hcare
  exact ⟨h', hrun, hw', ht.toRep.oneOwner_act ht.owner hone, ht.mirrors_act hcare hreach hset hrun hw'.toRep⟩

/-! ### Runs -/

theorem Mirrored.coherent (ht : Mirrored h g) : Coherent h := by
  have hr := ht.toRep
  refine ⟨?_, ?_⟩
  · intro d
    constructor
    · intro hex
      have hpos := entriesFor_pos hex
      rw [ht.mirrors.count d] at hpos
      obtain ⟨l, hl, hends⟩ := List.countP_pos_iff.1 hpos
      obtain ⟨hsrc, hdst⟩ := of_decide_eq_true hends
      refine ⟨l.name, l.block, l.src, l.dst, hr.linksRep.blocks l hl, rfl, rfl, ?_, ?_⟩
      · rw [hr.mainIp_eq (hr.ends l hl).1, hsrc]
      · rw [hr.mainIp_eq (hr.ends l hl).2, hdst]
    · rintro ⟨p, b, s, t, hb, hs, hd, hsrc, hdst⟩
      obtain ⟨l, hl, rfl⟩ := hr.linksRep.live p (Option.isSome_iff_exists.2 ⟨b, hb⟩)
      rw [hr.linksRep.blocks l hl] at hb
      cases hb
      cases hs
      cases hd
      rw [hr.mainIp_eq (hr.ends l hl).1, Option.some_inj] at hsrc
      rw [hr.mainIp_eq (hr.ends l hl).2, Option.some_inj] at hdst
      have hpos : 0 < edgesTo g (h.g_local_addr_tab 0) d :=
        List.countP_pos_iff.2 ⟨l, hl, decide_eq_true ⟨hsrc, hdst⟩⟩
      rw [← ht.mirrors.count d] at hpos
      obtain ⟨x, hx, hxd⟩ := List.countP_pos_iff.1 hpos
      exact ⟨x, hx, of_decide_eq_true hxd⟩
  · intro l hl
    obtain ⟨n, hn, rfl⟩ := ht.mirrors.computed l hl
    have hupdate := hr.update_local_link_eq hn
    obtain ⟨hmain, hinterface⟩ := tc_update_local_link_spec hupdate
    exact ⟨n, hmain, hupdate, hinterface⟩

/-- No command but one adds a link. -/
theorem links_act_nil (hg : g.links = []) {m : OlsrEventMessage ws} (hm : addsLink m = false) (brk : Ptr) :
    (g.act brk m).links = [] := by
  cases m with
  | DEV_CMD_ADD_LINK s d c => cases hm
  | DEV_CMD_RESET_TC => rfl
  | DEV_CMD_ADD_NODE a =>
    rw [Shape.act]
    split
    · exact hg
    · exact hg
  | DEV_CMD_REMOVE_NODE a =>
    rw [Shape.act]
    split
    · exact hg
    · rw [Shape.dropNode, hg]
      rfl
  | DEV_CMD_REMOVE_LINK s d =>
    rw [Shape.act]
    split
    · exact hg
    · rw [Shape.dropLink, hg]
      rfl
  | DEV_CMD_ADD_ALIAS a b =>
    rw [Shape.act]
    split
    · exact hg
    · split
      · exact hg
      · exact hg
  | DEV_CMD_REMOVE_ALIAS a b =>
    rw [Shape.act]
    split
    · exact hg
    · exact hg
  | DEV_CMD_SET_LOCAL_ADDR a k => exact hg
  | DEV_CMD_SET_ALIAS_ADDR a k => exact hg

/-- The local addresses are set before the first link is added. -/
def SetFirst (ms : List (OlsrEventMessage ws)) : Prop :=
  ms.Pairwise fun m m' => addsLink m = true → setsLocal m' = false

instance (ms : List (OlsrEventMessage ws)) : Decidable (SetFirst ms) := inferInstanceAs (Decidable (List.Pairwise _ ms))

/-- A run keeps the local links mirrored. -/
theorem Mirrored.run (ht : Mirrored h g) {ms : List (OlsrEventMessage ws)} (hfirst : SetFirst ms)
    (hset : (∃ m ∈ ms, setsLocal m = true) → g.links = [])
    (hms : Simulation.guarded handleRead
      (fun h m => oneOwner h m && (careful h m && reachesLocalLinks h m)) h ms = true) :
    ∃ h' g', handleReads h ms = some h' ∧ Mirrored h' g' := by
  induction ms generalizing h g with
  | nil => exact ⟨h, g, rfl, ht⟩
  | cons m ms ih =>
    rw [SetFirst, List.pairwise_cons] at hfirst
    rw [Simulation.guarded, Bool.and_eq_true, Bool.and_eq_true, Bool.and_eq_true] at hms
    obtain ⟨⟨hone, hcare, hreach⟩, hms⟩ := hms
    obtain ⟨h₁, hrun, ht₁⟩ := ht.step hcare hone hreach fun hm => hset ⟨m, List.mem_cons_self, hm⟩
    rw [hrun] at hms
    have hset₁ : (∃ m' ∈ ms, setsLocal m' = true) → (g.act h.brk m).links = [] := by
      rintro ⟨m', hm', hsets⟩
      have hadds : addsLink m = false := by
        by_contra hadds
        have hno := hfirst.1 m' hm' (by simpa using hadds)
        rw [hsets] at hno
        cases hno
      exact links_act_nil (hset ⟨m', List.mem_cons_of_mem _ hm', hsets⟩) hadds _
    obtain ⟨h', g', hrun', ht'⟩ := ih ht₁ hfirst.2 hset₁ hms
    refine ⟨h', g', ?_, ht'⟩
    rw [handleReads, List.foldlM_cons]
    exact (bind_of_some hrun _).trans hrun'

theorem Mirrored.init : Mirrored (tc_init_data : Store ws) ⟨[], [], []⟩ :=
  ⟨WellFormed.init, fun _ he => absurd he List.not_mem_nil, Mirrors.nil rfl⟩

/-- The local links are coherent in every state of a run whose commands reach the entries they have to change. -/
theorem local_links_coherent (ms : List (OlsrEventMessage ws)) (hfirst : SetFirst ms)
    (hone : Simulation.guarded handleRead oneOwner tc_init_data ms = true)
    (hreach : Simulation.guarded handleRead (fun h m => careful h m && reachesLocalLinks h m) tc_init_data ms = true) :
    ∀ ks, ks <+: ms → ∃ h, handleReads tc_init_data ks = some h ∧ Coherent h := by
  rintro ks ⟨rest, rfl⟩
  have hguard := Simulation.guarded_append (Simulation.guarded_and hone hreach)
  obtain ⟨h, g, hrun, ht⟩ := Mirrored.init.run (hfirst.sublist (List.sublist_append_left _ _)) (fun _ => rfl) hguard
  exact ⟨h, hrun, ht.coherent⟩

/-- A repeated link, an alias in the network of the local interface, and the removal of the neighbour. -/
theorem local_links_coherent_demo : ∃ h : Store .ilp32, handleReads tc_init_data [.DEV_CMD_SET_LOCAL_ADDR 1 255,
    .DEV_CMD_ADD_NODE 1, .DEV_CMD_ADD_NODE 2, .DEV_CMD_ADD_LINK 1 2 10, .DEV_CMD_ADD_ALIAS 2 257,
    .DEV_CMD_ADD_LINK 1 2 10, .DEV_CMD_REMOVE_LINK 1 2] = some h ∧ Coherent h :=
  local_links_coherent ([.DEV_CMD_SET_LOCAL_ADDR 1 255, .DEV_CMD_ADD_NODE 1, .DEV_CMD_ADD_NODE 2,
    .DEV_CMD_ADD_LINK 1 2 10, .DEV_CMD_ADD_ALIAS 2 257, .DEV_CMD_ADD_LINK 1 2 10, .DEV_CMD_REMOVE_LINK 1 2,
    .DEV_CMD_REMOVE_NODE 2] : List (OlsrEventMessage .ilp32)) (by decide) (by decide) (by decide) _
    ⟨[.DEV_CMD_REMOVE_NODE 2], rfl⟩

/-! ### A stale entry -/

/-- The link to a neighbour is added twice, and the neighbour removed. -/
def repeatedLink : List (OlsrEventMessage .ilp32) := [.DEV_CMD_SET_LOCAL_ADDR 1 255, .DEV_CMD_ADD_NODE 1,
  .DEV_CMD_ADD_NODE 2, .DEV_CMD_ADD_LINK 1 2 10, .DEV_CMD_ADD_LINK 1 2 10, .DEV_CMD_REMOVE_NODE 2]

/-- An entry for the neighbour remains. -/
theorem stale_local_link : SetFirst repeatedLink ∧
    Simulation.guarded handleRead oneOwner tc_init_data repeatedLink = true ∧
    ∃ h, handleReads tc_init_data repeatedLink = some h ∧ ¬ Coherent h := by
  refine ⟨by decide, by decide, ?_⟩
  obtain ⟨h, hrun, hw⟩ := handleReads_wellFormed WellFormed.init repeatedLink (by decide)
  refine ⟨h, hrun, fun hc => ?_⟩
  have hnone : (Shape.acts ⟨[], [], []⟩ tc_init_data repeatedLink).links = [] := by decide
  have hdst : ((handleReads tc_init_data repeatedLink).map fun h => h.g_local_links.map (·.dst_addr_ip)) =
      some [2] := by decide
  rw [hrun, Option.map_some, Option.some_inj] at hdst
  have hentry : ∃ l ∈ h.g_local_links, l.dst_addr_ip = 2 := by
    have hmem : (2 : ip_v4_addr .ilp32) ∈ h.g_local_links.map (·.dst_addr_ip) := by
      rw [hdst]
      exact List.mem_cons_self
    simpa using hmem
  obtain ⟨p, b, -, -, hb, -⟩ := (hc.entries 2).1 hentry
  obtain ⟨l, hl, -⟩ := hw.linksRep.live p (Option.isSome_iff_exists.2 ⟨b, hb⟩)
  rw [hnone] at hl
  cases hl

end MpOlsr
