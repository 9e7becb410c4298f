import MpOlsr.Topology.Removal

/-!
# Events

What an event does to the shape of the store (`Shape.act`).  An event that is `careful` never faults, and gives a store
of the changed shape (`handleRead_spec`).  Two events can leave the shapes: `tc_remove_alias` takes any entry with the
address, also the main address of a node, and `tc_remove_node` removes the addresses of the node, which need not find
the entries of the node.
-/

namespace MpOlsr

open DoublyLinked

variable {ws : WordSize} {h : Store ws} {g : Shape ws}

/-- The entry of an address but for those of a node at the positions below `i`. -/
def findPast (h : Store ws) (n : Ptr) (i : Slot) (addr_ip : ip_v4_addr ws) : Option (Option Ptr) :=
  search (h.hash.getNext h.liveAddr)
    (fun p => (h.node_addrs p).map fun a => decide (a.addr_ip = addr_ip ∧ ¬ (a.node = some n ∧ a.addr_pos < i))) h.brk
    (h.hash.head (get_hash_key addr_ip))

/-- The addresses in the table of a node find the entries of the table, one after the other. -/
def ownsTable (h : Store ws) (n : Ptr) : Bool :=
  ([0, 1, 2, 3, 4] : List Slot).all fun i => ((h.nodes n).bind fun nd => nd.addr_tab i).all fun p =>
    (h.node_addrs p).all fun a => findPast h n i a.addr_ip = some (some p)

/-- The commands that keep the index: a removed alias is no main address, and a removed node owns its addresses. -/
def careful (h : Store ws) : OlsrEventMessage ws → Bool
  | .DEV_CMD_REMOVE_NODE a => (tc_get_node h a).join.all fun n => ownsTable h n
  | .DEV_CMD_REMOVE_ALIAS a b => (tc_get_node h a).join.isNone ||
      ((tc_find_addr h b).join.bind h.node_addrs).all fun e => e.addr_pos ≠ 0
  | _ => true

/-- The shape after an event; `brk` is the next block. -/
def Shape.act (g : Shape ws) (brk : Ptr) : OlsrEventMessage ws → Shape ws
  | .DEV_CMD_RESET_TC => ⟨[], [], []⟩
  | .DEV_CMD_ADD_NODE a =>
    match resolve g.addrs a with
    | some _ => g
    | none => g.addNode brk (brk + 1) a
  | .DEV_CMD_REMOVE_NODE a =>
    match resolve g.addrs a with
    | none => g
    | some e => g.dropNode e.node
  | .DEV_CMD_ADD_LINK s d c =>
    match resolve g.addrs s, resolve g.addrs d with
    | some es, some ed => g.addLink ⟨brk, es.node, ed.node, BitVec.ofInt ws.bits c⟩
    | _, _ => g
  | .DEV_CMD_REMOVE_LINK s d =>
    match (resolve g.addrs s).bind fun e => findLink g e.node d with
    | none => g
    | some l => g.dropLink l
  | .DEV_CMD_ADD_ALIAS a b =>
    match resolve g.addrs a with
    | none => g
    | some e =>
      match freeSlot g.addrs e.node with
      | none => g
      | some i => g.addEntry ⟨brk, b, e.node, i⟩
  | .DEV_CMD_REMOVE_ALIAS a b =>
    match resolve g.addrs a, resolve g.addrs b with
    | some _, some e => g.dropEntry e
    | _, _ => g
  | .DEV_CMD_SET_LOCAL_ADDR _ _ => g
  | .DEV_CMD_SET_ALIAS_ADDR _ _ => g

/-! ### The tests -/

theorem AddrsRep.findPast_eq {M : List Ptr} {A : List (AddrInfo ws)} (hr : AddrsRep h M A) (n : Ptr) (i : Slot)
    (a : ip_v4_addr ws) : findPast h n i a = some ((resolve (dropBelow n i A) a).map AddrInfo.name) := by
  rw [findPast, hr.search fun b => decide (b.addr_ip = a ∧ ¬ (b.node = some n ∧ b.addr_pos < i)), resolve, dropBelow,
    List.find?_filter]
  congr 2
  refine List.find?_congr fun e _ => ?_
  by_cases ha : e.addr_ip = a
  · simp [AddrInfo.key, AddrInfo.block, ha]
  · simp [AddrInfo.block, ha]

theorem Rep.ownsAddrs_of_table (hr : Rep h g) {n : Ptr} (hn : n ∈ g.nodes) (hown : ownsTable h n = true) :
    OwnsAddrs g.addrs n := by
  intro e he hnode
  subst hnode
  obtain ⟨nd, hnd⟩ := hr.node hn
  have hslots : ∀ i : Slot, i ∈ ([0, 1, 2, 3, 4] : List Slot) := by decide
  have htab : nd.addr_tab e.pos = some e.name := by
    rw [hr.addrsRep.tab _ hn nd hnd, hr.addrsRep.entryAt_eq he]
    rfl
  have hslot := List.all_eq_true.1 hown e.pos (hslots e.pos)
  rw [hnd, Option.bind_some, htab, Option.all_some, hr.addrsRep.blocks e he, Option.all_some, decide_eq_true_eq,
    hr.addrsRep.findPast_eq, Option.some_inj] at hslot
  obtain ⟨e', hres, hname⟩ := Option.map_eq_some_iff.1 hslot
  have he' : e' ∈ g.addrs := (List.mem_filter.1 (resolve_mem hres).1).1
  rw [← hr.addrsRep.eq_of_name he' he hname]
  rw [hr.addrsRep.eq_of_name he' he hname] at hres ⊢
  exact hres

theorem Rep.table_of_ownsAddrs (hr : Rep h g) {n : Ptr} (hn : n ∈ g.nodes) (hown : OwnsAddrs g.addrs n) :
    ownsTable h n = true := by
  obtain ⟨nd, hnd⟩ := hr.node hn
  refine List.all_eq_true.2 fun i _ => ?_
  rw [hnd, Option.bind_some, hr.addrsRep.tab n hn nd hnd]
  cases hi : entryAt g.addrs n i with
  | none => rfl
  | some e =>
    obtain ⟨he, hnode, rfl⟩ := entryAt_mem hi
    have hres := hown e he hnode
    have hfind := hr.addrsRep.findPast_eq n e.pos e.addr_ip
    rw [hres] at hfind
    rw [Option.map_some, Option.all_some, hr.addrsRep.blocks e he, Option.all_some]
    exact decide_eq_true hfind

/-! ### One event -/

/-- Every event that is careful changes the shape as `Shape.act` says. -/
theorem handleRead_spec (hr : Rep h g) {m : OlsrEventMessage ws} (hm : careful h m = true) :
    ∃ h', handleRead h m = some h' ∧ Rep h' (g.act h.brk m) := by
  cases m with
  | DEV_CMD_RESET_TC => exact tc_free_data_spec hr.weak
  | DEV_CMD_ADD_NODE a =>
    rw [Shape.act]
    cases ha : resolve g.addrs a with
    | none => exact tc_add_node_spec hr ha
    | some e => exact ⟨h, tc_add_node_present hr ha, hr⟩
  | DEV_CMD_REMOVE_NODE a =>
    rw [Shape.act]
    cases ha : resolve g.addrs a with
    | none => exact ⟨h, tc_remove_node_unknown hr ha, hr⟩
    | some e =>
      rw [careful, hr.get_node, ha] at hm
      exact tc_remove_node_spec hr ha (hr.ownsAddrs_of_table (hr.resolve_node ha) hm)
  | DEV_CMD_ADD_LINK s d c =>
    rw [Shape.act]
    cases hs : resolve g.addrs s with
    | none => exact tc_add_link_unknown hr c (Or.inl hs)
    | some es =>
      cases hd : resolve g.addrs d with
      | none => exact tc_add_link_unknown hr c (Or.inr hd)
      | some ed => exact tc_add_link_spec hr c hs hd
  | DEV_CMD_REMOVE_LINK s d =>
    rw [Shape.act]
    cases hs : resolve g.addrs s with
    | none => exact ⟨h, tc_remove_link_unknown hr hs, hr⟩
    | some e =>
      rw [Option.bind_some]
      cases hfind : findLink g e.node d with
      | none => exact ⟨h, tc_remove_link_none hr hs hfind, hr⟩
      | some l => exact tc_remove_link_spec hr hs hfind
  | DEV_CMD_ADD_ALIAS a b =>
    rw [Shape.act]
    cases ha : resolve g.addrs a with
    | none => exact tc_add_alias_unknown hr ha
    | some e =>
      cases hi : freeSlot g.addrs e.node with
      | none =>
        simp only [hi]
        exact tc_add_alias_full hr ha hi
      | some i =>
        simp only [hi]
        exact tc_add_alias_spec hr ha hi
  | DEV_CMD_REMOVE_ALIAS a b =>
    rw [Shape.act]
    cases ha : resolve g.addrs a with
    | none => exact ⟨h, tc_remove_alias_unknown hr ha, hr⟩
    | some e =>
      cases hb : resolve g.addrs b with
      | none => exact tc_remove_alias_none hr ha hb
      | some e' =>
        rw [careful, hr.get_node, ha, tc_find_addr_spec hr.addrsRep, hb] at hm
        have hpos : e'.pos ≠ 0 := by
          have hblock := hr.addrsRep.blocks e' (resolve_mem hb).1
          simpa [hblock, AddrInfo.block] using hm
        exact tc_remove_alias_spec hr ha hb hpos
  | DEV_CMD_SET_LOCAL_ADDR a m => exact ⟨_, rfl, hr.withLocal _ _ _⟩
  | DEV_CMD_SET_ALIAS_ADDR a m =>
    refine ⟨_, rfl, ?_⟩
    rw [tc_set_local_alias]
    split
    · exact hr
    · exact hr.withLocal _ _ _

theorem Rep.init : Rep (tc_init_data : Store ws) ⟨[], [], []⟩ :=
  ⟨⟨Holds.of_head_none fun _ => rfl, by simp [tc_init_data, Store.liveNode], by simp, by simp⟩,
    ⟨Holds.of_head_none fun _ => rfl, by simp, by simp, List.nodup_nil, by simp, by simp, by simp⟩,
    ⟨Holds.of_head_none fun _ => rfl, Holds.of_head_none fun _ => rfl, by simp,
      by simp [tc_init_data, Store.liveLink], List.nodup_nil, by simp⟩, by simp, by simp⟩

end MpOlsr
