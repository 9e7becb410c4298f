import MpOlsr.Lib.Simulation
import MpOlsr.Topology.Events

/-!
# The address index

Every entry of the hash table refers to a node on the node list and to its place in the table of that node, and every
node on the list has a main address (`IndexSound`).  A run of careful events keeps the index sound (`index_sound`);
the removal of a main address as an alias does not (`index_broken`).
-/

namespace MpOlsr

open DoublyLinked

variable {ws : WordSize} {h : Store ws} {g : Shape ws}

/-- The entries refer to listed nodes, and listed nodes have a main address. -/
structure IndexSound (h : Store ws) : Prop where
  entries : ∀ k p, h.hash.Reach k p → ∃ b n nd, h.node_addrs p = some b ∧ b.node = some n ∧ h.node_lst.Reach () n ∧
    h.nodes n = some nd ∧ nd.addr_tab b.addr_pos = some p
  mains : ∀ n, h.node_lst.Reach () n → ∃ nd p, h.nodes n = some nd ∧ nd.addr_tab 0 = some p

theorem Rep.indexSound (hr : Rep h g) : IndexSound h where
  entries := by
    intro k p hp
    obtain ⟨e, he, -, rfl⟩ := mem_group.1 (hr.addrsRep.chains.reach_iff.1 hp)
    have hn := hr.addrsRep.nodes e he
    obtain ⟨nd, hnd⟩ := hr.node hn
    refine ⟨_, e.node, nd, hr.addrsRep.blocks e he, rfl, hr.nodesRep.list.reach_iff.2 hn, hnd, ?_⟩
    rw [hr.addrsRep.tab _ hn nd hnd]
    show (entryAt g.addrs e.node e.pos).map AddrInfo.name = _
    rw [hr.addrsRep.entryAt_eq he]
    rfl
  mains := by
    intro n hn
    have hn := hr.nodesRep.list.reach_iff.1 hn
    obtain ⟨nd, hnd⟩ := hr.node hn
    obtain ⟨-, p, hp⟩ := hr.addrsRep.tab_live hn (hr.main n hn) hnd
    exact ⟨nd, p, hnd, hp⟩

/-- In a run of careful events the index is sound, and no address finds a node that has been removed. -/
theorem index_sound (ms : List (OlsrEventMessage ws)) (hms : Simulation.guarded handleRead careful tc_init_data ms = true) :
    ∃ h, handleReads tc_init_data ms = some h ∧ IndexSound h ∧
      ∀ a n, careful h (.DEV_CMD_REMOVE_NODE a) = true → tc_get_node h a = some (some n) →
        ∃ h', handleRead h (.DEV_CMD_REMOVE_NODE a) = some h' ∧ ∀ b, ∃ m, tc_get_node h' b = some m ∧ m ≠ some n := by
  obtain ⟨h, hrun, g, hr⟩ := Simulation.guarded_invariant (P := fun h : Store ws => ∃ g, Rep h g)
    (fun h m hP hm => by
      obtain ⟨g, hr⟩ := hP
      obtain ⟨h', hrun, hr'⟩ := handleRead_spec hr hm
      exact ⟨h', hrun, _, hr'⟩) ⟨_, Rep.init⟩ ms hms
  refine ⟨h, hrun, hr.indexSound, fun a n hm hn => ?_⟩
  obtain ⟨h', hrun', hr'⟩ := handleRead_spec hr hm
  refine ⟨h', hrun', fun b => ⟨_, hr'.get_node b, fun hb => ?_⟩⟩
  rw [hr.get_node, Option.some_inj] at hn
  obtain ⟨e, ha, rfl⟩ := Option.map_eq_some_iff.1 hn
  rw [Shape.act, ha] at hb
  obtain ⟨e', hres, hnode⟩ := Option.map_eq_some_iff.1 hb
  exact of_decide_eq_true (List.mem_filter.1 (resolve_mem hres).1).2 hnode

/-- Two nodes share an address as an alias, and both are removed with care. -/
theorem index_sound_demo : ∃ h : Store .ilp32, handleReads tc_init_data [.DEV_CMD_ADD_NODE 1, .DEV_CMD_ADD_NODE 2,
    .DEV_CMD_ADD_ALIAS 1 5, .DEV_CMD_ADD_ALIAS 2 5, .DEV_CMD_REMOVE_NODE 2, .DEV_CMD_REMOVE_NODE 5] = some h ∧
    IndexSound h := by
  obtain ⟨h, hrun, hsound, -⟩ := index_sound ([.DEV_CMD_ADD_NODE 1, .DEV_CMD_ADD_NODE 2,
    .DEV_CMD_ADD_ALIAS 1 5, .DEV_CMD_ADD_ALIAS 2 5, .DEV_CMD_REMOVE_NODE 2, .DEV_CMD_REMOVE_NODE 5] : List (OlsrEventMessage .ilp32)) (by decide)
  exact ⟨h, hrun, hsound⟩

/-- A node whose main address is removed as an alias stays on the list. -/
theorem index_broken : ∃ h : Store .ilp32,
    handleReads tc_init_data [.DEV_CMD_ADD_NODE 1, .DEV_CMD_REMOVE_ALIAS 1 1] = some h ∧ ¬ IndexSound h := by
  have hhead : (handleReads (tc_init_data : Store .ilp32) [.DEV_CMD_ADD_NODE 1, .DEV_CMD_REMOVE_ALIAS 1 1]).bind
      (fun h => h.node_lst.head ()) = some 0 := by decide
  have htab : (handleReads (tc_init_data : Store .ilp32) [.DEV_CMD_ADD_NODE 1, .DEV_CMD_REMOVE_ALIAS 1 1]).bind
      (fun h => (h.nodes 0).bind fun nd => nd.addr_tab 0) = none := by decide
  obtain ⟨h, hrun, hhead⟩ := Option.bind_eq_some_iff.1 hhead
  refine ⟨h, hrun, fun hsound => ?_⟩
  obtain ⟨nd, p, hnd, hp⟩ := hsound.mains 0 (.head hhead)
  rw [hrun, Option.bind_some, hnd, Option.bind_some, hp] at htab
  cases htab

end MpOlsr
