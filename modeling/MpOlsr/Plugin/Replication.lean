import Mathlib.Data.Set.List
import MpOlsr.Lib.Replicas
import MpOlsr.Plugin.Quiet
import MpOlsr.Topology.Updates

/-!
# Replication

The plugin tells a daemon what changes in its tables, and the daemon takes the commands in their order.  After every
round the daemon should have the nodes and the links of the plugin, and the aliases of its nodes (`Replica.InSync`).
It has in every run where the chains are in order, no address is shared, no alias is recorded before its node, and no
node has more than four aliases (`replicas_in_sync`): the daemon refuses a command silently, and the plugin does not
send it again.
-/

namespace MpOlsr

open DoublyLinked Records MarkSweep

variable {ws : WordSize} {ifnet : List OlsrIpAddr} {p : Plugin ws} {T : Table} {S : Snapshot} {X : Copy}

theorem toLong_injective (ws : WordSize) : Function.Injective (Plugin.toLong : OlsrIpAddr → ip_v4_addr ws) := by
  intro a b hab
  have hbound : ∀ x : OlsrIpAddr, (x.setWidth ws.bits).toNat = x.toNat := fun x =>
    BitVec.toNat_setWidth_of_le ws.le_bits
  have hnat := congrArg BitVec.toNat hab
  rw [Plugin.toLong, Plugin.toLong, hbound, hbound] at hnat
  exact BitVec.eq_of_toNat_eq hnat

/-! ### The messages as updates -/

theorem announce_eq {N : List (OlsrIpAddr × Bool)} {L : List ((OlsrIpAddr × OlsrIpAddr) × Bool)}
    (es : List (OlsrIpAddr × OlsrIpAddr)) :
    announce ws N L es = (Multigraph.additions 1 N L es).map (tell Plugin.toLong) := by
  induction es generalizing N L with
  | nil => rfl
  | cons e es ih =>
    rw [announce, Multigraph.additions, List.map_append, List.map_append, List.map_map, List.map_map, ih]
    rfl

theorem aliasMessages_eq (qs : List (OlsrIpAddr × OlsrIpAddr)) :
    aliasMessages ws qs = (qs.map fun q => Multigraph.Update.addAlias q.1 q.2).map (tell Plugin.toLong) := by
  rw [aliasMessages, List.map_map]
  rfl

theorem tell_injective (ws : WordSize) :
    Function.Injective (tell (Plugin.toLong : OlsrIpAddr → ip_v4_addr ws)) := by
  have hf : ∀ {a b : OlsrIpAddr}, (Plugin.toLong a : ip_v4_addr ws) = Plugin.toLong b ↔ a = b :=
    (toLong_injective ws).eq_iff
  intro u u' h
  cases u <;> cases u' <;> simp [tell, hf] at h ⊢ <;> exact h

/-- What goes in a round. -/
abbrev Copy.Gone (ifnet : List OlsrIpAddr) (S : Snapshot) (X : Copy) : Multigraph.Update OlsrIpAddr ℤ → Prop :=
  Multigraph.Dropped (keys X.nodes) (keys X.links) (keys X.mids) (endpoints (S.accepted ifnet)) (S.accepted ifnet)
    S.aliases

theorem Copy.drops_tell_iff {u : Multigraph.Update OlsrIpAddr ℤ} :
    X.Drops ifnet S (tell Plugin.toLong u : OlsrEventMessage ws) ↔ X.Gone ifnet S u := by
  constructor
  · intro h
    generalize hmsg : (tell Plugin.toLong u : OlsrEventMessage ws) = msg at h
    cases h with
    | @link e h he =>
      obtain rfl := tell_injective ws (hmsg.trans (show _ = tell _ (.removeLink e.1 e.2) from rfl))
      exact .link h he
    | @node a h ha =>
      obtain rfl := tell_injective ws (hmsg.trans (show _ = tell _ (.removeNode a) from rfl))
      exact .node h ha
    | @mid m h hm =>
      obtain rfl := tell_injective ws (hmsg.trans (show _ = tell _ (.removeAlias m.1 m.2) from rfl))
      exact .expired h hm
    | @main m h hn ha =>
      obtain rfl := tell_injective ws (hmsg.trans (show _ = tell _ (.removeAlias m.1 m.2) from rfl))
      exact .orphaned h hn ha
  · intro h
    cases h with
    | @link s d h he => exact .link (e := (s, d)) h he
    | node h ha => exact .node h ha
    | @expired a b h hq => exact .mid (m := (a, b)) h hq
    | @orphaned a b h hn ha => exact .main (m := (a, b)) h hn ha

theorem Copy.Drops.exists_tell {msg : OlsrEventMessage ws} (h : X.Drops ifnet S msg) :
    msg ∈ Set.range (tell (Plugin.toLong : OlsrIpAddr → ip_v4_addr ws)) := by
  cases h with
  | @link e h he => exact ⟨.removeLink e.1 e.2, rfl⟩
  | @node a h ha => exact ⟨.removeNode a, rfl⟩
  | @mid m h hm => exact ⟨.removeAlias m.1 m.2, rfl⟩
  | @main m h hn ha => exact ⟨.removeAlias m.1 m.2, rfl⟩

/-- The messages of a round are updates. -/
theorem Copy.Sends.exists_updates {msgs : List (OlsrEventMessage ws)} (h : X.Sends ifnet S msgs) :
    ∃ gone : List (Multigraph.Update OlsrIpAddr ℤ), msgs =
      (Multigraph.additions (1 : ℤ) (reset X.nodes) (reset X.links) (S.accepted ifnet) ++
        (newcomers (reset X.mids) S.aliases).map (fun q : OlsrIpAddr × OlsrIpAddr => Multigraph.Update.addAlias q.1 q.2) ++ gone).map
          (tell Plugin.toLong) ∧
    ∀ u, u ∈ gone ↔ X.Gone ifnet S u := by
  obtain ⟨gone, rfl, hgone⟩ := h
  have hrange : gone ∈ Set.range (List.map (tell (Plugin.toLong : OlsrIpAddr → ip_v4_addr ws))) := by
    rw [Set.range_list_map]
    exact fun msg hmsg => ((hgone msg).1 hmsg).exists_tell
  obtain ⟨us, rfl⟩ := hrange
  refine ⟨us, ?_, fun u => ?_⟩
  · rw [announce_eq, aliasMessages_eq, List.map_append, List.map_append]
  · rw [← Copy.drops_tell_iff, ← hgone, (List.mem_map_of_injective (tell_injective ws))]

/-! ### The plugin and a daemon -/

namespace Plugin

/-- The addresses of the nodes, chain by chain. -/
def nodeAddrs (p : Plugin ws) : List OlsrIpAddr := (List.finRange 128).flatMap p.chainAddrs

/-- The messages are sent. -/
def dev_send (p : Plugin ws) : Plugin ws := { p with msgQueue_ := [] }

end Plugin

/-- The plugin and a daemon that is connected. -/
structure Replica (ws : WordSize) where
  plugin : Plugin ws
  daemon : Store ws

namespace Replica

/-- `tc_check_data` and `dev_send`: the daemon processes the messages in their order. -/
def round (ifnet : List OlsrIpAddr) (s : Replica ws) (S : Snapshot) : Option (Replica ws) := do
  let p ← s.plugin.tc_check_data ifnet S
  let h ← handleReads s.daemon p.msgQueue_
  return ⟨p.dev_send, h⟩

/-- The daemon has the nodes and the links of the plugin, each link once, and the aliases of these nodes. -/
structure InSync (s : Replica ws) : Prop where
  nodes : ∀ a, s.daemon.HasNode a ↔ ∃ addr, s.plugin.HasNode addr ∧ Plugin.toLong addr = a
  links : ∀ a b, s.daemon.HasLink a b ↔
    ∃ src_addr dst_addr, s.plugin.HasLink src_addr dst_addr ∧ Plugin.toLong src_addr = a ∧ Plugin.toLong dst_addr = b
  once : s.daemon.LinksOnce
  aliases : ∀ a b, s.daemon.HasAlias a b ↔ ∃ m ∈ s.plugin.g_cur_mid_tc, s.plugin.HasNode m.main_addr ∧
    Plugin.toLong m.main_addr = a ∧ Plugin.toLong m.alias_addr = b

/-- The chains are in order, and the daemon can follow the round. -/
def followed (ifnet : List OlsrIpAddr) (s : Replica ws) (S : Snapshot) : Bool :=
  s.plugin.inOrder ifnet S && decide (Multigraph.Compatible 4 s.plugin.nodeAddrs (endpoints (S.accepted ifnet))
    (s.plugin.g_cur_mid_tc.map SerTcMid.pair) S.aliases)

end Replica

theorem mem_nodeAddrs (h : Shows ifnet p T X) {a : OlsrIpAddr} : a ∈ p.nodeAddrs ↔ a ∈ keys X.nodes := by
  rw [← chainAddrs_iff h, Plugin.nodeAddrs, List.mem_flatMap]
  constructor
  · rintro ⟨k, -, ha⟩
    have hk : olsr_ip_hashing a = k := by
      rw [chainAddrs_eq h.toThreaded, List.mem_map] at ha
      obtain ⟨n, hn, rfl⟩ := ha
      exact of_decide_eq_true (List.mem_filter.1 hn).2
    exact hk ▸ ha
  · exact fun ha => ⟨_, List.mem_finRange _, ha⟩

theorem mids_eq (h : Shows ifnet p T X) : p.g_cur_mid_tc.map SerTcMid.pair = keys X.mids := by
  rw [← keys_midMarks, h.mids]

theorem Shows.dev_send (h : Shows ifnet p T X) : Shows ifnet p.dev_send T X :=
  ⟨⟨⟨h.dst_tab, h.entries, h.dsts, h.names, h.linkNames, h.bound, h.linkBound, h.addrs, h.pairs, h.sources,
    h.isLocal⟩, h.tab⟩, h.nodeMarks, h.linkMarks, h.mids, h.midPairs⟩

/-- The plugin holds a copy, and the daemon follows it. -/
structure Paired (ifnet : List OlsrIpAddr) (X : Copy) (s : Replica ws) : Prop where
  shows : ∃ T, Shows ifnet s.plugin T X
  sent : s.plugin.msgQueue_ = []
  follows : ∃ G, Keeps Plugin.toLong s.daemon G ∧ G.Follows 4 (keys X.nodes) (keys X.links) (keys X.mids)

theorem Paired.inSync {s : Replica ws} (h : Paired ifnet X s) : s.InSync := by
  obtain ⟨T, hT⟩ := h.shows
  obtain ⟨G, hG, hfollows⟩ := h.follows
  refine ⟨fun a => ?_, fun a b => ?_, hG.linksOnce (toLong_injective ws) hfollows.once, fun a b => ?_⟩
  · rw [hG.hasNode_iff]
    refine exists_congr fun x => and_congr_left' ?_
    rw [hT.hasNode_iff]
    exact ⟨fun hx => hfollows.known hx, fun hx => hfollows.nodes hx⟩
  · rw [hG.hasLink_iff, Prod.exists]
    refine exists_congr fun x => exists_congr fun y => and_congr_left' ?_
    rw [hT.hasLink_iff, hfollows.links]
  · rw [hG.hasAlias_iff]
    constructor
    · rintro ⟨q, hq, rfl, rfl⟩
      have hmid := hfollows.aliases q hq
      rw [← mids_eq hT] at hmid
      obtain ⟨m, hm, hpair⟩ := List.mem_map.1 hmid
      obtain ⟨hmain, halias⟩ := Prod.mk.inj hpair
      refine ⟨m, hm, ?_, congrArg _ hmain, congrArg _ halias⟩
      rw [hmain, hT.hasNode_iff]
      exact hfollows.known (hfollows.wf.owned q hq)
    · rintro ⟨m, hm, hmain, rfl, rfl⟩
      have hpair : m.pair ∈ keys X.mids := mids_eq hT ▸ List.mem_map_of_mem hm
      exact ⟨_, hfollows.told m.pair hpair (hT.hasNode_iff.1 hmain), rfl, rfl⟩

/-- A round, with its messages as updates. -/
theorem Shows.check_updates (h : Shows ifnet p T X) (hsent : p.msgQueue_ = []) (hord : p.inOrder ifnet S = true) :
    ∃ p' U, ∃ gone : List (Multigraph.Update OlsrIpAddr ℤ), p.tc_check_data ifnet S = some p' ∧
      Shows ifnet p' U (X.check ifnet S) ∧ p'.msgQueue_ =
        (Multigraph.additions (1 : ℤ) (reset X.nodes) (reset X.links) (S.accepted ifnet) ++
          (newcomers (reset X.mids) S.aliases).map (fun q : OlsrIpAddr × OlsrIpAddr => Multigraph.Update.addAlias q.1 q.2) ++
            gone).map (tell Plugin.toLong) ∧
      ∀ u, u ∈ gone ↔ Multigraph.Dropped (keys (reset X.nodes)) (keys (reset X.links)) (keys (reset X.mids))
        (endpoints (S.accepted ifnet)) (S.accepted ifnet) S.aliases u := by
  obtain ⟨p', U, hrun, hU, msgs, hqueue, hsends⟩ := h.check hord
  rw [hsent, List.nil_append] at hqueue
  obtain ⟨gone, rfl, hgone⟩ := hsends.exists_updates
  refine ⟨p', U, gone, hrun, hU, hqueue, fun u => ?_⟩
  rw [keys_reset, keys_reset, keys_reset]
  exact hgone u

/-- The MID entries after a round that begins with the marks reset. -/
theorem mem_mids_check_reset {q : OlsrIpAddr × OlsrIpAddr} : q ∈ keys (X.check ifnet S).mids ↔
    q ∈ S.aliases ∧ (q.1 ∈ keys (reset X.nodes) → q.1 ∈ endpoints (S.accepted ifnet)) := by
  rw [keys_reset]
  exact mem_mids_check

/-- A round that the daemon can follow. -/
theorem Paired.round {s : Replica ws} (h : Paired ifnet X s) (hok : s.followed ifnet S = true) : ∃ s',
    s.round ifnet S = some s' ∧ Paired ifnet (X.check ifnet S) s' := by
  obtain ⟨T, hT⟩ := h.shows
  obtain ⟨G, hG, hfollows⟩ := h.follows
  rw [Replica.followed, Bool.and_eq_true, decide_eq_true_eq] at hok
  obtain ⟨p', U, gone, hrun, hU, hqueue, hgone⟩ := hT.check_updates h.sent hok.1
  have hcomp := hok.2.congr fun a => (mem_nodeAddrs hT (a := a)).symm
  rw [mids_eq hT] at hcomp
  -- the marks are reset when the round begins
  rw [← keys_reset (l := X.nodes), ← keys_reset (l := X.links), ← keys_reset (l := X.mids)] at hfollows
  rw [← keys_reset (l := X.nodes), ← keys_reset (l := X.mids)] at hcomp
  have hlinks : ∀ e, e ∈ keys (X.check ifnet S).links ↔ e ∈ S.accepted ifnet := fun e => mem_renew
  obtain ⟨H, hH, hfollows'⟩ :=
    hfollows.renewal (c := 1) (fun a => mem_endpoints) hlinks (fun q => mem_mids_check_reset) hcomp hgone
  obtain ⟨h', hrun', hG'⟩ := hG.handleReads (toLong_injective ws) hH
  refine ⟨⟨p'.dev_send, h'⟩, ?_, ⟨U, hU.dev_send⟩, rfl, H, hG', hfollows'.congr fun a => mem_renew⟩
  rw [Replica.round, hrun, Option.bind_eq_bind, Option.bind_some, hqueue, hrun']
  rfl

/-- The plugin at its start, and a daemon without topology. -/
theorem paired_init {h : Store ws} (hh : Represents h Multigraph.empty) :
    Paired ifnet Copy.empty ⟨Plugin.tc_init_data, h⟩ := by
  refine ⟨⟨_, shows_init⟩, rfl, Multigraph.empty, hh, ⟨.empty, List.nodup_nil, ?_, ?_, ?_⟩, ?_, ?_⟩
  · exact List.nil_subset _
  · exact fun e => Iff.rfl
  · exact fun p hp => (List.not_mem_nil hp).elim
  · exact List.nil_subset _
  · exact fun q hq => (List.not_mem_nil hq).elim

/-- After a reset and the addresses of the interfaces, in every run of rounds that the daemon can follow it is in sync
with the plugin. -/
theorem replicas_in_sync (ifnet : List OlsrIpAddr) (ms locals : List (OlsrEventMessage ws)) (h : Store ws)
    (hlocals : ∀ m ∈ locals, setsLocal m = true)
    (hstart : handleReads tc_init_data (ms ++ .DEV_CMD_RESET_TC :: locals) = some h) (Ss : List Snapshot)
    (hSs : Simulation.guarded (Replica.round ifnet) (Replica.followed ifnet) ⟨Plugin.tc_init_data, h⟩ Ss = true) :
    ∃ s, Ss.foldlM (Replica.round ifnet) ⟨Plugin.tc_init_data, h⟩ = some s ∧ s.InSync := by
  rw [handleReads, List.foldlM_append] at hstart
  obtain ⟨h₀, hrun, hreset⟩ := Option.bind_eq_some_iff.1 hstart
  obtain ⟨g, hw⟩ := WeakRep.init.handleReads hrun
  obtain ⟨h', hrun', hrep⟩ := reset_keeps hw hlocals
  obtain rfl := Option.some_inj.1 (hrun'.symm.trans hreset)
  obtain ⟨s, hs, hpaired⟩ := Simulation.guarded_simulates (R := Paired ifnet) (f := fun X S => X.check ifnet S)
    (fun X s S hX hok => hX.round hok) (paired_init hrep) Ss hSs
  exact ⟨s, hs, hpaired.inSync⟩

/-- Nodes, links and aliases that come and go. -/
theorem replicas_in_sync_demo : ∃ (h : Store .ilp32) (s : Replica .ilp32),
    handleReads tc_init_data [.DEV_CMD_RESET_TC, .DEV_CMD_SET_LOCAL_ADDR 9 255] = some h ∧
      [Snapshot.remote [(1, [2]), (3, [2])] [(1, [7])], .remote [(1, [2])] [(1, [8])]].foldlM (Replica.round [])
        ⟨Plugin.tc_init_data, h⟩ = some s ∧ s.InSync := by
  have hguard : (handleReads tc_init_data [.DEV_CMD_RESET_TC, .DEV_CMD_SET_LOCAL_ADDR 9 255]).map
      (fun h : Store .ilp32 => Simulation.guarded (Replica.round []) (Replica.followed []) ⟨Plugin.tc_init_data, h⟩
        [.remote [(1, [2]), (3, [2])] [(1, [7])], .remote [(1, [2])] [(1, [8])]]) = some true := by decide +kernel
  obtain ⟨h, hh, hSs⟩ := Option.map_eq_some_iff.1 hguard
  obtain ⟨s, hs, hsync⟩ := replicas_in_sync [] [] [.DEV_CMD_SET_LOCAL_ADDR 9 255] h (by simp [setsLocal]) hh _ hSs
  exact ⟨h, s, hh, hs, hsync⟩

/-- The alias 7 of the address 1 is recorded before 1 is a node: the daemon refuses it, and it is not sent again. -/
theorem alias_before_node : ∃ (h : Store .ilp32) (s : Replica .ilp32),
    handleReads tc_init_data [.DEV_CMD_RESET_TC, .DEV_CMD_SET_LOCAL_ADDR 9 255] = some h ∧
      [Snapshot.remote [] [(1, [7])], .remote [(1, [2])] [(1, [7])]].foldlM (Replica.round [])
        ⟨Plugin.tc_init_data, h⟩ = some s ∧ ¬ s.InSync := by
  let run := (handleReads tc_init_data [.DEV_CMD_RESET_TC, .DEV_CMD_SET_LOCAL_ADDR 9 255]).bind fun h : Store .ilp32 =>
    [Snapshot.remote [] [(1, [7])], .remote [(1, [2])] [(1, [7])]].foldlM (Replica.round []) ⟨Plugin.tc_init_data, h⟩
  have hprobe : run.any (fun s => s.daemon.node_lst.head () = some 3 ∧ s.daemon.node_lst.next 3 = some 1 ∧
      s.daemon.node_lst.next 1 = none ∧ (∀ i : Slot, i ≠ 0 → ((s.daemon.nodes 3).bind fun nd => nd.addr_tab i) = none ∧
        ((s.daemon.nodes 1).bind fun nd => nd.addr_tab i) = none) ∧ s.plugin.g_cur_mid_tc = [⟨1, 7, true⟩] ∧
      s.plugin.tab.head 40 = some 0 ∧ (s.plugin.entries 0).map SerTcEntry.src_addr = some 1) = true := by
    decide +kernel
  obtain ⟨s, hs, hprobe⟩ := (Option.any_eq_true _ _).1 hprobe
  obtain ⟨hhead, hnext, hlast, htabs, hmids, hnode, hentry⟩ := of_decide_eq_true hprobe
  obtain ⟨h, hh, hrun⟩ := Option.bind_eq_some_iff.1 hs
  refine ⟨h, s, hh, hrun, fun hsync => ?_⟩
  obtain ⟨e, he, hsrc⟩ := Option.map_eq_some_iff.1 hentry
  have halias : s.daemon.HasAlias 1 7 :=
    (hsync.aliases 1 7).2 ⟨⟨1, 7, true⟩, by simp [hmids], ⟨40, 0, e, .head hnode, he, hsrc⟩, rfl, rfl⟩
  obtain ⟨n, nd, i, p, a, hn, -, hnd, hi, hp, -⟩ := halias
  -- the two nodes of the daemon have no alias
  have hlist : n = 3 ∨ n = 1 := by
    clear hnd
    induction hn with
    | head hx => exact Or.inl (Option.some_inj.1 (hx.symm.trans hhead))
    | next _ hy ih =>
      rcases ih with rfl | rfl
      · exact Or.inr (Option.some_inj.1 (hy.symm.trans hnext))
      · cases hy.symm.trans hlast
  rcases hlist with rfl | rfl
  · have htab := (htabs i hi).1
    rw [hnd, Option.bind_some, hp] at htab
    cases htab
  · have htab := (htabs i hi).2
    rw [hnd, Option.bind_some, hp] at htab
    cases htab

end MpOlsr
