import MpOlsr.Kernel.Commands

/-!
# Refused commands

A command whose node, link or alias owner is not registered, or whose alias does not fit (`Refused`), returns and leaves
the store as it was exactly where it is `Harmless` (`refused_unchanged_iff`).  `tc_remove_node` never does; the search of
`tc_remove_link` reads the main address of every node that it passes; an alias that does not fit, or is not there to be
removed, still has the local link to its owner computed again.
-/

namespace MpOlsr.Kernel

open DoublyLinked Fault

variable {ws : WordSize}

section Reading

variable (h : Store ws)

/-- The node that an address is registered for. -/
def owner (addr_ip : ip_v4_addr ws) : Option Ptr := (tc_get_node h addr_ip).join

/-- An address in the table of a node in memory. -/
def tableAddr (n : Ptr) (i : Slot) : Option (ip_v4_addr ws) := do
  let node ← h.nodes n
  let p ← node.addr_tab i
  let a ← h.node_addrs p
  return a.addr_ip

/-- The main address of the node that a link leads to. -/
def linkDst (link : Ptr) : Option (ip_v4_addr ws) := do
  let l ← h.link_blocks link
  let n ← l.dst_node
  tableAddr h n 0

/-- The first address of a node in a network. -/
def addrInNet (n : Ptr) (mask net : ip_v4_addr ws) : Option (ip_v4_addr ws) :=
  ([0, 1, 2, 3, 4] : List Slot).findSome? fun i => (tableAddr h n i).filter fun a => a &&& mask = net

/-- The first local interface in the network of an address of a node, and that address. -/
def neighbourInterface (n : Ptr) : Option (Slot × ip_v4_addr ws) :=
  ([0, 1, 2, 3, 4] : List Slot).findSome? fun i =>
    if h.g_local_addr_tab i &&& h.g_local_mask_tab i = 0 then none
    else (addrInNet h n (h.g_local_mask_tab i) (h.g_local_addr_tab i &&& h.g_local_mask_tab i)).map fun a => (i, a)

/-- The local link to a node that its addresses and the local interfaces give. -/
def currentLink (n : Ptr) : Option (LocalLinkEntry ws) :=
  (tableAddr h n 0).map fun main =>
    match neighbourInterface h n with
    | none => ⟨⟨main, 0⟩, 0, 0⟩
    | some (i, a) => ⟨⟨main, a⟩, h.g_local_addr_tab i, h.g_local_mask_tab i⟩

/-- The first local link to an address is the one that the addresses of its node and the local interfaces give. -/
def LinkCurrent (addr_ip : ip_v4_addr ws) : Prop :=
  ∀ n, owner h addr_ip = some n → ∀ link,
    h.g_local_links.find? (fun link => link.dst_addr_ip = addr_ip) = some link → currentLink h n = some link

/-- The node, the link or the owner of the alias is not registered, or the alias does not fit the table. -/
def Refused : OlsrEventMessage ws → Prop
  | .DEV_CMD_REMOVE_NODE a => owner h a = none
  | .DEV_CMD_ADD_LINK s d _ => owner h s = none ∨ owner h d = none
  | .DEV_CMD_REMOVE_LINK s d => ∀ n, owner h s = some n → ∀ link, h.src.Reach n link → linkDst h link ≠ some d
  | .DEV_CMD_ADD_ALIAS a _ => ∀ n, owner h a = some n → ∃ node, h.nodes n = some node ∧ ∀ i ≠ 0, node.addr_tab i ≠ none
  | .DEV_CMD_REMOVE_ALIAS a b => owner h a = none ∨ owner h b = none
  | _ => False

/-- The commands that are refused without harm.  The exit of `tc_remove_node` frees what it did not find. -/
def Harmless : OlsrEventMessage ws → Prop
  | .DEV_CMD_REMOVE_NODE _ => False
  | .DEV_CMD_REMOVE_LINK s _ => ∀ n, owner h s = some n →
      h.liveNode n = true ∧ ∀ link, h.src.Reach n link → (linkDst h link).isSome
  | .DEV_CMD_ADD_ALIAS a _ => LinkCurrent h a
  | .DEV_CMD_REMOVE_ALIAS a _ => LinkCurrent h a
  | _ => True

end Reading

/-! ### Reading a store with a shape -/

variable {h : Store ws} {g : Shape ws}

theorem owner_eq (hw : WeakRep h g) (a : ip_v4_addr ws) : owner h a = (resolve g.addrs a).map AddrInfo.node := by
  rw [owner, hw.get_node]
  rfl

theorem owner_eq_none (hw : WeakRep h g) {a : ip_v4_addr ws} : owner h a = none ↔ resolve g.addrs a = none := by
  rw [owner_eq hw, Option.map_eq_none_iff]

theorem tableAddr_eq (hw : WeakRep h g) {n : Ptr} {node : OlsrNode} (hnode : h.nodes n = some node) (i : Slot) :
    tableAddr h n i = (entryAt g.addrs n i).map AddrInfo.addr_ip := by
  have hn : n ∈ List.range h.brk := by
    refine hw.bound n ((hw.nodesRep.live n).1 ?_)
    rw [Store.liveNode, hnode]
    rfl
  have htab := hw.addrsRep.tab n hn node hnode i
  unfold tableAddr
  rw [bind_of_some hnode]
  cases he : entryAt g.addrs n i with
  | none =>
    rw [he] at htab
    rw [htab]
    rfl
  | some e =>
    rw [he] at htab
    rw [bind_of_some htab, bind_of_some (hw.addrsRep.blocks e (entryAt_mem he).1)]
    rfl

theorem tableAddr_freed {n : Ptr} (hn : h.nodes n = none) (i : Slot) : tableAddr h n i = none := by
  unfold tableAddr
  rw [hn]
  rfl

/-- What `tc_update_local_link` computes. -/
theorem tc_update_local_link_eq (hw : WeakRep h g) (n : Ptr) : tc_update_local_link h n = currentLink h n := by
  cases hnode : h.nodes n with
  | none =>
    unfold tc_update_local_link
    rw [currentLink, tableAddr_freed hnode, hnode]
    rfl
  | some node =>
    have hn : n ∈ List.range h.brk := by
      refine hw.bound n ((hw.nodesRep.live n).1 ?_)
      rw [Store.liveNode, hnode]
      rfl
    cases hmain : entryAt g.addrs n 0 with
    | none =>
      have htab := hw.addrsRep.tab n hn node hnode 0
      rw [hmain] at htab
      unfold tc_update_local_link
      rw [currentLink, tableAddr_eq hw hnode, hmain, bind_of_some hnode, htab]
      rfl
    | some e =>
      obtain ⟨he, hen, hpos⟩ := entryAt_mem hmain
      rw [hw.addrsRep.update_local_link_eq hn ⟨e, he, hen, hpos⟩ ⟨node, hnode⟩, currentLink, tableAddr_eq hw hnode, hmain]
      have hin : ∀ mask net, addrInNet h n mask net = addrIn g.addrs n mask net [0, 1, 2, 3, 4] := by
        intro mask net
        rw [addrInNet, addrIn]
        congr 1
        funext i
        rw [tableAddr_eq hw hnode]
        cases entryAt g.addrs n i with
        | none => rfl
        | some e' => simp [Option.filter]
      let entry : Slot × ip_v4_addr ws → LocalLinkEntry ws := fun r =>
        ⟨⟨e.addr_ip, r.2⟩, h.g_local_addr_tab r.1, h.g_local_mask_tab r.1⟩
      have hface : linkEntry h.g_local_addr_tab h.g_local_mask_tab g.addrs n =
          ((neighbourInterface h n).map entry).getD ⟨⟨e.addr_ip, 0⟩, 0, 0⟩ := by
        rw [linkEntry, interfaceOf, neighbourInterface, mainAddr, hmain, List.map_findSome?]
        congr 2
        funext i
        rw [Function.comp_apply]
        split
        · rfl
        · rw [hin, Option.map_map]
          rfl
      rw [hface, Option.map_some, Option.map_some, Option.some_inj]
      cases neighbourInterface h n <;> rfl

/-! ### The refused commands -/

theorem currentLink_congr (hw : WeakRep h g) {s : Store ws} (hs : WeakRep s g) (hnodes : s.nodes = h.nodes)
    (hlocals : SameLocals h s) (n : Ptr) : currentLink s n = currentLink h n := by
  have htable : tableAddr s n = tableAddr h n := by
    funext i
    cases hnode : h.nodes n with
    | none => rw [tableAddr_freed hnode, tableAddr_freed ((congrFun hnodes n).trans hnode)]
    | some node => rw [tableAddr_eq hw hnode, tableAddr_eq hs ((congrFun hnodes n).trans hnode)]
  simp only [currentLink, neighbourInterface, addrInNet, htable, hlocals.addrs, hlocals.masks]

/-- A command that only computes the first local link to an address again. -/
theorem relink_unchanged_iff (hw : WeakRep h g) {a : ip_v4_addr ws} {n : Ptr} (ha : owner h a = some n) {s : Store ws}
    (hblocks : SameBlocks h s) (hlocals : SameLocals h s) :
    (∃ h', (updateLocalLinks s n a h.g_local_links).map s.withLinks = some h' ∧ Unchanged h h') ↔ LinkCurrent h a := by
  have hlink : tc_update_local_link s n = currentLink h n := by
    have hs := hw.of_sameBlocks hblocks
    rw [tc_update_local_link_eq hs, currentLink_congr hw hs hblocks.nodes hlocals]
  have hcurrent : LinkCurrent h a ↔ updateLocalLinks s n a h.g_local_links = some h.g_local_links := by
    rw [updateLocalLinks_eq_self, hlink]
    constructor
    · exact fun hc => hc n ha
    · rintro hc n' ha'
      obtain rfl := Option.some_inj.1 (ha.symm.trans ha')
      exact hc
  rw [hcurrent]
  constructor
  · rintro ⟨h', hrun, hsame⟩
    obtain ⟨links, hlinks, rfl⟩ := Option.map_eq_some_iff.1 hrun
    have hlinks' : links = h.g_local_links := hsame.locals.links
    rwa [hlinks'] at hlinks
  · intro hlinks
    refine ⟨s.withLinks h.g_local_links, by rw [hlinks, Option.map_some], ?_⟩
    obtain ⟨hbrk, hnodes, hlinkBlocks, haddrs, hlst, hhash, hsrc, hdst⟩ := hblocks
    exact ⟨⟨hbrk, hnodes, hlinkBlocks, haddrs, hlst, hhash, hsrc, hdst⟩, hlocals.addrs, hlocals.masks, rfl⟩

/-- The test of `tc_remove_link` reads the main address that a link leads to. -/
theorem leadsTo_eq_map (h : Store ws) (d : ip_v4_addr ws) (link : Ptr) :
    leadsTo h d link = (linkDst h link).map fun a => decide (a = d) := by
  unfold leadsTo linkDst tableAddr
  simp [Option.map_bind]

theorem remove_link_unchanged_iff (hw : WeakRep h g) {s d : ip_v4_addr ws}
    (hrefused : Refused h (.DEV_CMD_REMOVE_LINK s d)) :
    (∃ h', tc_remove_link h s d = some h' ∧ Unchanged h h') ↔ Harmless h (.DEV_CMD_REMOVE_LINK s d) := by
  have hget := hw.get_node s
  have howner := owner_eq hw s
  cases hs : resolve g.addrs s with
  | none =>
    rw [hs] at hget howner
    refine iff_of_true ⟨h, ?_, .refl⟩ fun n hn => ?_
    · unfold tc_remove_link
      exact bind_of_some hget _
    · rw [howner] at hn
      cases hn
  | some e =>
    rw [hs] at hget howner
    have hrefused := hrefused e.node howner
    have hharmless : Harmless h (.DEV_CMD_REMOVE_LINK s d) ↔
        h.liveNode e.node = true ∧ ∀ link, h.src.Reach e.node link → (linkDst h link).isSome := by
      constructor
      · exact fun hh => hh e.node howner
      · rintro hh n hn
        obtain rfl := Option.some_inj.1 (howner.symm.trans hn)
        exact hh
    rw [hharmless]
    constructor
    · rintro ⟨h', hrun, -⟩
      unfold tc_remove_link at hrun
      rw [bind_of_some hget] at hrun
      obtain ⟨first, hfirst, hrun⟩ := Option.bind_eq_some_iff.1 hrun
      obtain ⟨found, hsearch, -⟩ := Option.bind_eq_some_iff.1 hrun
      rw [Links.getHead] at hfirst
      split at hfirst
      · next hlive =>
        refine ⟨hlive, fun link hlink => ?_⟩
        obtain rfl := Option.some_inj.1 hfirst
        cases found with
        | none =>
          have htest := hw.linksRep.src.search_none hsearch link (hw.linksRep.src.reach_iff.1 hlink)
          rw [leadsTo_eq_map] at htest
          obtain ⟨a, ha, -⟩ := Option.map_eq_some_iff.1 htest
          exact Option.isSome_iff_exists.2 ⟨a, ha⟩
        | some link' =>
          obtain ⟨hmem, htest⟩ := hw.linksRep.src.search_mem hsearch
          rw [leadsTo_eq_map] at htest
          obtain ⟨a, ha, had⟩ := Option.map_eq_some_iff.1 htest
          rw [of_decide_eq_true had] at ha
          exact (hrefused link' (hw.linksRep.src.reach_iff.2 hmem) ha).elim
      · cases hfirst
    · rintro ⟨hlive, hmains⟩
      have htest : ∀ link ∈ group LinkInfo.src LinkInfo.name g.links e.node, leadsTo h d link = some false := by
        intro link hlink
        have hreach := hw.linksRep.src.reach_iff.2 hlink
        obtain ⟨a, ha⟩ := Option.isSome_iff_exists.1 (hmains link hreach)
        rw [leadsTo_eq_map, ha, Option.map_some]
        refine congrArg some (decide_eq_false ?_)
        rintro rfl
        exact hrefused link hreach ha
      have hsearch := hw.linksRep.src.search (group_live hw.linksRep.blocks) htest
        (hw.linksRep.group_length (List.Subset.refl _) (hw.linksRep.src.nodup e.node))
      rw [List.find?_eq_none.2 fun _ _ => Bool.false_ne_true] at hsearch
      have hhead : h.src.getHead h.liveNode e.node = some (h.src.head e.node) := if_pos hlive
      refine ⟨h, ?_, .refl⟩
      unfold tc_remove_link
      refine (bind_of_some hget _).trans ((bind_of_some hhead _).trans ?_)
      exact bind_of_some hsearch _

/-- A command that is refused returns and leaves the store as it was exactly where it is harmless. -/
theorem command_unchanged_iff (hw : WeakRep h g) {m : OlsrEventMessage ws} (hrefused : Refused h m) :
    (∃ h', command h m = some h' ∧ Unchanged h h') ↔ Harmless h m := by
  cases m with
  | DEV_CMD_RESET_TC => exact hrefused.elim
  | DEV_CMD_ADD_NODE a => exact hrefused.elim
  | DEV_CMD_REMOVE_NODE a =>
    refine iff_of_false ?_ id
    rintro ⟨h', hrun, -⟩
    have hget := hw.get_node a
    rw [(owner_eq_none hw).1 hrefused] at hget
    cases (tc_remove_node_unknown hget).symm.trans hrun
  | DEV_CMD_ADD_LINK s d c =>
    refine iff_of_true (hw.add_link_refused c ?_) trivial
    exact hrefused.imp (owner_eq_none hw).1 (owner_eq_none hw).1
  | DEV_CMD_REMOVE_LINK s d => exact remove_link_unchanged_iff hw hrefused
  | DEV_CMD_ADD_ALIAS a b =>
    have howner := owner_eq hw a
    cases ha : resolve g.addrs a with
    | none =>
      rw [ha] at howner
      refine iff_of_true (hw.add_alias_unknown b ha) fun n hn => ?_
      rw [howner] at hn
      cases hn
    | some e =>
      rw [ha] at howner
      obtain ⟨node, hnode, htab⟩ := hrefused e.node howner
      have hfull : firstFree node = none := by
        refine List.find?_eq_none.2 fun i hi => ?_
        rw [decide_eq_true_eq]
        refine htab i ?_
        rintro rfl
        simp at hi
      obtain ⟨s, hblocks, hlocals, hrun⟩ := hw.add_alias_full b ha hnode hfull
      rw [command, hrun]
      exact relink_unchanged_iff hw howner hblocks hlocals
  | DEV_CMD_REMOVE_ALIAS a b =>
    have howner := owner_eq hw a
    cases ha : resolve g.addrs a with
    | none =>
      rw [ha] at howner
      have hget := hw.get_node a
      rw [ha] at hget
      refine iff_of_true ⟨h, ?_, .refl⟩ fun n hn => ?_
      · rw [command]
        unfold tc_remove_alias
        exact bind_of_some hget _
      · rw [howner] at hn
        cases hn
    | some e =>
      rw [ha] at howner
      have hb : resolve g.addrs b = none := by
        refine (owner_eq_none hw).1 (hrefused.resolve_left fun hnone => ?_)
        rw [howner] at hnone
        cases hnone
      rw [command, hw.remove_alias_unknown ha hb]
      exact relink_unchanged_iff hw howner .refl .refl
  | DEV_CMD_SET_LOCAL_ADDR a k => exact hrefused.elim
  | DEV_CMD_SET_ALIAS_ADDR a k => exact hrefused.elim

/-! ### Runs -/

/-- In every state that the module reaches, a command that is refused returns and leaves nodes, addresses, links and
local links as they were exactly where it is harmless. -/
theorem refused_unchanged_iff (conf : Conf) (events : List (ModuleEvent ws)) (s : PathDaemon ws)
    (hrun : events.foldlM step (PathDaemon.init conf) = some s) (token : DevTcToken ws) (m : OlsrEventMessage ws)
    (hm : token.cmd = some m) (hrefused : Refused s.store m) :
    (∃ s', dev_device_write s token = some s' ∧ Unchanged s.store s'.store) ↔ Harmless s.store m := by
  have hs : Sound s := foldlM_keeps (fun s event s' hs hstep => hs.step hstep) (sound_init conf) hrun
  obtain ⟨buffers, paths, hwrite, -⟩ := dev_device_write_eq hs hm
  obtain ⟨⟨g, hw⟩, -⟩ := hs
  rw [← command_unchanged_iff hw hrefused, hwrite]
  constructor
  · rintro ⟨s', hrun', hsame⟩
    obtain ⟨h', hcommand, rfl⟩ := Option.map_eq_some_iff.1 hrun'
    exact ⟨h', hcommand, hsame⟩
  · rintro ⟨h', hcommand, hsame⟩
    exact ⟨_, by rw [hcommand, Option.map_some], hsame⟩

/-- A link to a node that is not registered, where there is a link and a path in the cache. -/
theorem refused_unchanged_demo : ∃ s s' : PathDaemon .ilp32,
    [ModuleEvent.write ⟨2, 1, 0, 0⟩, .write ⟨2, 2, 0, 0⟩, .write ⟨4, 1, 2, 3⟩, .compute 1 2 false].foldlM step
      (PathDaemon.init ⟨2, 2, 3⟩) = some s ∧
    dev_device_write s ⟨4, 1, 9, 3⟩ = some s' ∧ Unchanged s.store s'.store := by
  have howner : ([ModuleEvent.write ⟨2, 1, 0, 0⟩, .write ⟨2, 2, 0, 0⟩, .write ⟨4, 1, 2, 3⟩,
      .compute 1 2 false].foldlM step (PathDaemon.init ⟨2, 2, 3⟩ : PathDaemon .ilp32)).map
      (fun s => owner s.store 9) = some none := by decide
  obtain ⟨s, hrun, hnone⟩ := Option.map_eq_some_iff.1 howner
  have hrefused : Refused s.store (.DEV_CMD_ADD_LINK 1 9 3) := Or.inr hnone
  obtain ⟨s', hwrite, hsame⟩ :=
    (refused_unchanged_iff ⟨2, 2, 3⟩ _ s hrun ⟨4, 1, 9, 3⟩ _ rfl hrefused).2 trivial
  exact ⟨s, s', hrun, hwrite, hsame⟩

/-- The removal of a node that was never added is a fault. -/
theorem refused_not_unchanged : ¬ ∀ (conf : Conf) (events : List (ModuleEvent .ilp32)) (s : PathDaemon .ilp32),
    events.foldlM step (PathDaemon.init conf) = some s → ∀ (token : DevTcToken .ilp32) (m : OlsrEventMessage .ilp32),
    token.cmd = some m → Refused s.store m →
    ∃ s', dev_device_write s token = some s' ∧ Unchanged s.store s'.store := by
  intro hall
  have hrefused : Refused (PathDaemon.init ⟨2, 2, 3⟩ : PathDaemon .ilp32).store (.DEV_CMD_REMOVE_NODE 1) := rfl
  obtain ⟨s', hrun, -⟩ := hall ⟨2, 2, 3⟩ [] _ rfl ⟨3, 1, 0, 0⟩ _ rfl hrefused
  have hfault : (dev_device_write (PathDaemon.init ⟨2, 2, 3⟩ : PathDaemon .ilp32) ⟨3, 1, 0, 0⟩).isSome = false := by
    decide
  rw [hrun] at hfault
  cases hfault

end MpOlsr.Kernel
