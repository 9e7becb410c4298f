import MpOlsr.Lib.Simulation
import MpOlsr.Topology.Refine

/-!
# Runs of the daemon

Every run of commands from `tc_init_data` acts as the same run on a multigraph, and keeps the lists of links in order,
if it adds and removes aliases with care (`store_refines`).
-/

namespace MpOlsr

open DoublyLinked

variable {ws : WordSize} {h : Store ws} {g : Shape ws}

/-- Whether the second address is an alias, not the main address, of the node that the first one finds. -/
def isAlias (h : Store ws) (addr_ip addr_alias : ip_v4_addr ws) : Option Bool := do
  let node ← tc_get_node h addr_ip
  let entry ← tc_find_addr h addr_alias
  let p ← entry
  let a ← h.node_addrs p
  return node ≠ none && a.node = node && a.addr_pos ≠ 0

/-- An alias is added if it is not registered, and removed if it is an alias of the node. -/
def allowed (h : Store ws) : OlsrEventMessage ws → Bool
  | .DEV_CMD_ADD_ALIAS _ b => tc_find_addr h b = some none
  | .DEV_CMD_REMOVE_ALIAS a b => isAlias h a b = some true
  | _ => true

/-- Every command of a run is allowed when its turn comes. -/
def disciplined (h : Store ws) (ms : List (OlsrEventMessage ws)) : Bool := Simulation.guarded handleRead allowed h ms

/-- What a command means for the multigraph; a node has at most four aliases. -/
def act (G : Multigraph (ip_v4_addr ws) (ULong ws)) : OlsrEventMessage ws → Multigraph (ip_v4_addr ws) (ULong ws)
  | .DEV_CMD_RESET_TC => Multigraph.empty
  | .DEV_CMD_ADD_NODE a => G.addNode a
  | .DEV_CMD_REMOVE_NODE a => G.removeNode a
  | .DEV_CMD_ADD_LINK s d c => G.addLink s d (BitVec.ofInt ws.bits c)
  | .DEV_CMD_REMOVE_LINK s d => G.removeLink s d
  | .DEV_CMD_ADD_ALIAS a b => G.addAlias 4 a b
  | .DEV_CMD_REMOVE_ALIAS a b => G.removeAlias a b
  | .DEV_CMD_SET_LOCAL_ADDR _ _ => G
  | .DEV_CMD_SET_ALIAS_ADDR _ _ => G

/-- The store represents a multigraph. -/
def Represents (h : Store ws) (G : Multigraph (ip_v4_addr ws) (ULong ws)) : Prop :=
  ∃ g : Shape ws, Rep h g ∧ Distinct g.addrs ∧ g.forget = G

/-- The link fields are consistent, and every live link is once on the list of its source and once on the list of its
destination, both of them live. -/
def WellLinked (h : Store ws) : Prop :=
  ∃ outgoing incoming : Ptr → List Ptr, Holds h.src outgoing ∧ Holds h.dst incoming ∧
    ∀ p b, h.link_blocks p = some b → ∃ s d, b.src_node = some s ∧ b.dst_node = some d ∧ h.liveNode s = true ∧
      h.liveNode d = true ∧ (∀ n, (outgoing n).count p = if n = s then 1 else 0) ∧
      ∀ n, (incoming n).count p = if n = d then 1 else 0

/-! ### The lists of links -/

theorem count_group {L : List (LinkInfo ws)} (hnames : (L.map LinkInfo.name).Nodup) (key : LinkInfo ws → Ptr)
    {l : LinkInfo ws} (hl : l ∈ L) (n : Ptr) :
    (group key LinkInfo.name L n).count l.name = if n = key l then 1 else 0 := by
  have hnodup : (group key LinkInfo.name L n).Nodup := hnames.sublist (List.filter_sublist.map _)
  by_cases hn : n = key l
  · rw [if_pos hn]
    exact List.count_eq_one_of_mem hnodup (mem_group.2 ⟨l, hl, hn.symm, rfl⟩)
  · rw [if_neg hn]
    refine List.count_eq_zero_of_not_mem fun hmem => ?_
    obtain ⟨l', hl', hkey, hname⟩ := mem_group.1 hmem
    rw [eq_of_name hnames hl' hl hname] at hkey
    exact hn hkey.symm

theorem Rep.wellLinked (hr : Rep h g) : WellLinked h := by
  refine ⟨_, _, hr.linksRep.src, hr.linksRep.dst, ?_⟩
  intro p b hb
  obtain ⟨l, hl, rfl⟩ := hr.linksRep.live p (Option.isSome_iff_exists.2 ⟨b, hb⟩)
  rw [hr.linksRep.blocks l hl] at hb
  cases hb
  exact ⟨l.src, l.dst, rfl, rfl, hr.liveNode (hr.ends l hl).1, hr.liveNode (hr.ends l hl).2,
    count_group hr.linksRep.names _ hl, count_group hr.linksRep.names _ hl⟩

/-! ### One command -/

theorem Distinct.cons {A : List (AddrInfo ws)} (hd : Distinct A) {e : AddrInfo ws} (he : resolve A e.addr_ip = none) :
    Distinct (e :: A) := by
  refine List.nodup_cons.2 ⟨fun hmem => ?_, hd⟩
  obtain ⟨e', he', haddr⟩ := List.mem_map.1 hmem
  exact resolve_eq_none.1 he e' he' haddr

theorem Rep.allowed_add_alias (hr : Rep h g) {a b : ip_v4_addr ws} (hm : allowed h (.DEV_CMD_ADD_ALIAS a b) = true) :
    resolve g.addrs b = none := by
  have hm := of_decide_eq_true hm
  rw [tc_find_addr_spec hr.addrsRep, Option.some_inj, Option.map_eq_none_iff] at hm
  exact hm

theorem Rep.allowed_remove_alias (hr : Rep h g) {a b : ip_v4_addr ws}
    (hm : allowed h (.DEV_CMD_REMOVE_ALIAS a b) = true) : ∃ e e', resolve g.addrs a = some e ∧
      resolve g.addrs b = some e' ∧ e'.node = e.node ∧ e'.pos ≠ 0 := by
  have hm : isAlias h a b = some true := of_decide_eq_true hm
  obtain ⟨node, hnode, hm⟩ := Option.bind_eq_some_iff.1 hm
  obtain ⟨entry, hentry, hm⟩ := Option.bind_eq_some_iff.1 hm
  obtain ⟨p, hp, hm⟩ := Option.bind_eq_some_iff.1 hm
  obtain ⟨blk, hblk, hm⟩ := Option.bind_eq_some_iff.1 hm
  subst hp
  rw [hr.get_node, Option.some_inj] at hnode
  rw [tc_find_addr_spec hr.addrsRep, Option.some_inj] at hentry
  obtain ⟨e', hb, rfl⟩ := Option.map_eq_some_iff.1 hentry
  rw [hr.addrsRep.blocks e' (resolve_mem hb).1] at hblk
  cases hblk
  cases ha : resolve g.addrs a with
  | none => simp [← hnode, ha] at hm
  | some e =>
    rw [ha, Option.map_some] at hnode
    subst hnode
    have hm := Option.some_inj.1 hm
    rw [Bool.and_eq_true, Bool.and_eq_true] at hm
    exact ⟨e, e', rfl, hb, Option.some_inj.1 (of_decide_eq_true hm.1.2), of_decide_eq_true hm.2⟩

/-- An event that is allowed is careful. -/
theorem Rep.careful_of_allowed (hr : Rep h g) (hd : Distinct g.addrs) {m : OlsrEventMessage ws}
    (hm : allowed h m = true) : careful h m = true := by
  cases m with
  | DEV_CMD_REMOVE_NODE a =>
    rw [careful, hr.get_node]
    cases ha : resolve g.addrs a with
    | none => rfl
    | some e => exact hr.table_of_ownsAddrs (hr.resolve_node ha) (hd.ownsAddrs _)
  | DEV_CMD_REMOVE_ALIAS a b =>
    obtain ⟨e, e', ha, hb, -, hpos⟩ := hr.allowed_remove_alias hm
    have hblock := hr.addrsRep.blocks e' (resolve_mem hb).1
    rw [careful, hr.get_node, ha, tc_find_addr_spec hr.addrsRep, hb]
    simpa [hblock, AddrInfo.block] using hpos
  | _ => rfl

/-- The multigraph follows the shape. -/
theorem Rep.forget_act (hr : Rep h g) (hd : Distinct g.addrs) {m : OlsrEventMessage ws} (hm : allowed h m = true) :
    Distinct (g.act h.brk m).addrs ∧ (g.act h.brk m).forget = act g.forget m := by
  cases m with
  | DEV_CMD_RESET_TC => exact ⟨List.nodup_nil, rfl⟩
  | DEV_CMD_ADD_NODE a =>
    rw [act, Multigraph.addNode, hr.owner_forget hd, Shape.act]
    cases ha : resolve g.addrs a with
    | none => exact ⟨hd.cons ha, hr.forget_addNode a hr.fresh_node⟩
    | some e => exact ⟨hd, rfl⟩
  | DEV_CMD_REMOVE_NODE a =>
    rw [act, Multigraph.removeNode, hr.owner_forget hd, Shape.act]
    cases ha : resolve g.addrs a with
    | none => exact ⟨hd, rfl⟩
    | some e => exact ⟨hd.filter _, hr.forget_dropNode hd (hr.resolve_node ha)⟩
  | DEV_CMD_ADD_LINK s d c =>
    rw [act, Multigraph.addLink, hr.owner_forget hd, hr.owner_forget hd, Shape.act]
    cases resolve g.addrs s with
    | none => exact ⟨hd, rfl⟩
    | some es =>
      cases resolve g.addrs d with
      | none => exact ⟨hd, rfl⟩
      | some ed => exact ⟨hd, rfl⟩
  | DEV_CMD_REMOVE_LINK s d =>
    rw [act, Multigraph.removeLink, hr.owner_forget hd, Shape.act]
    cases hs : resolve g.addrs s with
    | none => exact ⟨hd, rfl⟩
    | some e =>
      rw [Option.bind_some, Option.map_some]
      cases hfind : findLink g e.node d with
      | none =>
        refine ⟨hd, ?_⟩
        simp only [hr.eraseLink_none hd (hr.resolve_node hs) hfind]
      | some l => exact ⟨hd, hr.forget_eraseLink hd (hr.resolve_node hs) hfind⟩
  | DEV_CMD_ADD_ALIAS a b =>
    have hb := hr.allowed_add_alias hm
    rw [act, Multigraph.addAlias, hr.owner_forget hd, Shape.act]
    cases ha : resolve g.addrs a with
    | none => exact ⟨hd, rfl⟩
    | some e =>
      have hfree := hr.addrsRep.freeSlot_eq_none e.node
      simp only [Option.map_some, hr.countP_aliases hd (hr.resolve_node ha)]
      cases hi : freeSlot g.addrs e.node with
      | none => exact ⟨hd, (if_neg (Nat.not_lt.2 (hfree.1 hi))).symm⟩
      | some i =>
        have hlt : (aliasesOf g.addrs e.node).length < 4 := by
          refine Nat.not_le.1 fun hle => ?_
          rw [hfree.2 hle] at hi
          cases hi
        rw [if_pos hlt]
        exact ⟨hd.cons hb, g.forget_addEntry (freeSlot_spec hi).2⟩
  | DEV_CMD_REMOVE_ALIAS a b =>
    obtain ⟨e, e', ha, hb, -, hpos⟩ := hr.allowed_remove_alias hm
    rw [act, Multigraph.removeAlias, hr.owner_forget hd, Shape.act, ha, hb]
    obtain ⟨he', rfl⟩ := resolve_mem hb
    exact ⟨hd.filter _, hr.forget_dropEntry hd he' hpos⟩
  | DEV_CMD_SET_LOCAL_ADDR a m => exact ⟨hd, rfl⟩
  | DEV_CMD_SET_ALIAS_ADDR a m => exact ⟨hd, rfl⟩

theorem act_wf {G : Multigraph (ip_v4_addr ws) (ULong ws)} (hG : G.WF 4) (m : OlsrEventMessage ws)
    (hm : ∀ a b, m = .DEV_CMD_ADD_ALIAS a b → G.owner b = none) : (act G m).WF 4 := by
  cases m with
  | DEV_CMD_RESET_TC => exact Multigraph.WF.empty
  | DEV_CMD_ADD_NODE a => exact hG.addNode a
  | DEV_CMD_REMOVE_NODE a => exact hG.removeNode a
  | DEV_CMD_ADD_LINK s d c => exact hG.addLink s d _
  | DEV_CMD_REMOVE_LINK s d => exact hG.removeLink s d
  | DEV_CMD_ADD_ALIAS a b => exact hG.addAlias (hm a b rfl)
  | DEV_CMD_REMOVE_ALIAS a b => exact hG.removeAlias a b
  | DEV_CMD_SET_LOCAL_ADDR a m => exact hG
  | DEV_CMD_SET_ALIAS_ADDR a m => exact hG

/-! ### Whole runs -/

/-- A command that is allowed keeps the multigraph well formed. -/
theorem Rep.act_wf (hr : Rep h g) (hd : Distinct g.addrs) (hwf : g.forget.WF 4) {m : OlsrEventMessage ws}
    (hm : allowed h m = true) : (act g.forget m).WF 4 := by
  refine MpOlsr.act_wf hwf m fun a b hab => ?_
  subst hab
  rw [hr.owner_forget hd, hr.allowed_add_alias hm]
  rfl

/-- The store refines a multigraph. -/
theorem store_refines (ms : List (OlsrEventMessage ws)) (hms : disciplined tc_init_data ms = true) :
    ∃ h, handleReads tc_init_data ms = some h ∧ Represents h (ms.foldl act Multigraph.empty) ∧
      (ms.foldl act (Multigraph.empty : Multigraph (ip_v4_addr ws) (ULong ws))).WF 4 ∧ WellLinked h := by
  let R : Multigraph (ip_v4_addr ws) (ULong ws) → Store ws → Prop := fun G h => Represents h G ∧ G.WF 4
  have hstep : ∀ G h m, R G h → allowed h m = true → ∃ h', handleRead h m = some h' ∧ R (act G m) h' := by
    intro G h m hG hm
    obtain ⟨⟨g, hr, hd, rfl⟩, hwf⟩ := hG
    obtain ⟨h', hrun, hr'⟩ := handleRead_spec hr (hr.careful_of_allowed hd hm)
    obtain ⟨hd', hact⟩ := hr.forget_act hd hm
    exact ⟨h', hrun, ⟨_, hr', hd', hact⟩, hr.act_wf hd hwf hm⟩
  have hstart : R Multigraph.empty (tc_init_data : Store ws) :=
    ⟨⟨_, Rep.init, List.nodup_nil, rfl⟩, Multigraph.WF.empty⟩
  obtain ⟨h, hrun, hrep, hwf⟩ := Simulation.guarded_simulates hstep hstart ms hms
  obtain ⟨g, hr, -⟩ := id hrep
  exact ⟨h, hrun, hrep, hwf, hr.wellLinked⟩

/-- Two nodes, one with an alias, a link between them, a self-link that goes with its node. -/
theorem store_refines_demo :
    ∃ h : Store .ilp32, handleReads tc_init_data [.DEV_CMD_ADD_NODE 1, .DEV_CMD_ADD_NODE 2, .DEV_CMD_ADD_ALIAS 1 5,
      .DEV_CMD_ADD_LINK 5 2 10, .DEV_CMD_ADD_LINK 2 2 3, .DEV_CMD_REMOVE_ALIAS 1 5, .DEV_CMD_REMOVE_NODE 2] = some h ∧
      Represents h ⟨[1], [], []⟩ ∧ WellLinked h := by
  obtain ⟨h, hrun, hrep, -, hlinks⟩ := store_refines ([.DEV_CMD_ADD_NODE 1, .DEV_CMD_ADD_NODE 2,
    .DEV_CMD_ADD_ALIAS 1 5, .DEV_CMD_ADD_LINK 5 2 10, .DEV_CMD_ADD_LINK 2 2 3, .DEV_CMD_REMOVE_ALIAS 1 5,
    .DEV_CMD_REMOVE_NODE 2] : List (OlsrEventMessage .ilp32)) (by decide)
  exact ⟨h, hrun, hrep, hlinks⟩

end MpOlsr
