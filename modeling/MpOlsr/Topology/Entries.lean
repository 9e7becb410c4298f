import MpOlsr.Topology.Shape

/-!
# Address entries

What `tc_add_node_addr` and `tc_rmv_node_addr` do to the entries of the store.
-/

namespace MpOlsr

open DoublyLinked

variable {ws : WordSize} {h : Store ws} {M : List Ptr} {A : List (AddrInfo ws)}

/-- The store with a new entry in the block `e.name`. -/
def Store.withEntry (h : Store ws) (e : AddrInfo ws) (nd : OlsrNode) : Store ws :=
  { h with node_addrs := Function.update h.node_addrs e.name (some e.block),
           nodes := Function.update h.nodes e.node (some ⟨Function.update nd.addr_tab e.pos (some e.name)⟩),
           hash := h.hash.push e.key e.name }

/-- The store with an entry taken out of its tables. -/
def Store.withoutEntry (h : Store ws) (e : AddrInfo ws) (nd : OlsrNode) : Store ws :=
  { h with nodes := Function.update h.nodes e.node (some ⟨Function.update nd.addr_tab e.pos none⟩),
           hash := h.hash.unlink e.key e.name }

theorem liveNode_update {p : Ptr} {nd nd' : OlsrNode} (hp : h.nodes p = some nd) (q : Ptr) :
    (Function.update h.nodes p (some nd') q).isSome = h.liveNode q := by
  by_cases hq : q = p
  · subst hq
    rw [Function.update_self, Store.liveNode, hp]
    rfl
  · rw [Function.update_of_ne hq]
    rfl

/-! ### A new entry -/

theorem tc_add_node_addr_eq (hr : AddrsRep h M A) {e : AddrInfo ws} {b : OlsrNodeAddr ws}
    (hp : h.node_addrs e.name = some b) (hnew : ∀ e' ∈ A, e'.name ≠ e.name) {nd : OlsrNode}
    (hnd : h.nodes e.node = some nd) {main_addr : Bool} (hpos : newPos h e.node main_addr = some (some e.pos)) :
    tc_add_node_addr h e.name e.node e.addr_ip main_addr = some (true, h.withEntry e nd) := by
  have h1 : h.updAddr e.name (fun a => { a with node := some e.node, addr_ip := e.addr_ip }) =
      some { h with node_addrs := Function.update h.node_addrs e.name (some ⟨e.addr_ip, b.addr_pos, some e.node⟩) } := by
    rw [Store.updAddr, hp]
    rfl
  have h2 : ({ h with node_addrs := Function.update h.node_addrs e.name (some ⟨e.addr_ip, b.addr_pos, some e.node⟩) } :
      Store ws).updAddr e.name (fun a => { a with addr_pos := e.pos }) =
      some { h with node_addrs := Function.update h.node_addrs e.name (some e.block) } := by
    rw [Store.updAddr]
    simp only [Function.update_self, Option.map_some, Function.update_idem]
    rfl
  have h3 : ({ h with node_addrs := Function.update h.node_addrs e.name (some e.block) } : Store ws).updNode e.node
      (fun n => { n with addr_tab := Function.update n.addr_tab e.pos (some e.name) }) =
      some { h with node_addrs := Function.update h.node_addrs e.name (some e.block),
                    nodes := Function.update h.nodes e.node
                      (some ⟨Function.update nd.addr_tab e.pos (some e.name)⟩) } := by
    rw [Store.updNode]
    simp only [hnd, Option.map_some]
  let h' : Store ws := { h with node_addrs := Function.update h.node_addrs e.name (some e.block),
                                nodes := Function.update h.nodes e.node
                                  (some ⟨Function.update nd.addr_tab e.pos (some e.name)⟩) }
  have hlive : ∀ y ∈ group AddrInfo.key AddrInfo.name A e.key, h'.liveAddr y = true := by
    intro y hy
    obtain ⟨e', he', -, rfl⟩ := mem_group.1 hy
    show (Function.update h.node_addrs e.name (some e.block) e'.name).isSome = true
    rw [Function.update_of_ne (hnew e' he')]
    exact hr.live he'
  have h4 : h.hash.insertCell h'.liveAddr (fun _ => true) e.key e.name = some (h.hash.push e.key e.name) := by
    refine hr.chains.insertCell hlive rfl ?_
    show (Function.update h.node_addrs e.name (some e.block) e.name).isSome = true
    rw [Function.update_self]
    rfl
  rw [tc_add_node_addr, h1, Option.bind_eq_bind, Option.bind_some]
  refine Option.bind_eq_some_iff.2 ⟨_, hpos, ?_⟩
  exact Option.bind_eq_some_iff.2 ⟨_, h2, Option.bind_eq_some_iff.2 ⟨_, h3, Option.bind_eq_some_iff.2 ⟨_, h4, rfl⟩⟩⟩

theorem entryAt_cons (e : AddrInfo ws) (n : Ptr) (i : Slot) :
    entryAt (e :: A) n i = if e.node = n ∧ e.pos = i then some e else entryAt A n i := by
  by_cases hni : e.node = n ∧ e.pos = i
  · rw [entryAt, List.find?_cons_of_pos (by simpa using hni), if_pos hni]
  · rw [entryAt, List.find?_cons_of_neg (by simpa using hni), if_neg hni]
    rfl

theorem AddrsRep.withEntry (hr : AddrsRep h M A) {e : AddrInfo ws} (hnew : ∀ e' ∈ A, e'.name ≠ e.name)
    (hprev : h.hash.prev e.name = none) (hb : e.name < h.brk) {nd : OlsrNode} (hn : e.node ∈ M)
    (hnd : h.nodes e.node = some nd) (hfree : entryAt A e.node e.pos = none) :
    AddrsRep (h.withEntry e nd) M (e :: A) where
  chains := by
    rw [group_cons]
    refine hr.chains.push ?_ hprev e.key
    intro k hk
    obtain ⟨e', he', -, hname⟩ := mem_group.1 hk
    exact hnew e' he' hname
  blocks := by
    intro e' he'
    show Function.update h.node_addrs e.name (some e.block) e'.name = _
    rcases List.mem_cons.1 he' with rfl | hmem
    · rw [Function.update_self]
    · rw [Function.update_of_ne (hnew e' hmem)]
      exact hr.blocks e' hmem
  tab := by
    intro n hnM nd' hnd' i
    have hnd' : Function.update h.nodes e.node (some ⟨Function.update nd.addr_tab e.pos (some e.name)⟩) n = some nd' :=
      hnd'
    rw [entryAt_cons]
    by_cases hne : n = e.node
    · subst hne
      rw [Function.update_self] at hnd'
      cases hnd'
      show Function.update nd.addr_tab e.pos (some e.name) i = _
      by_cases hi : i = e.pos
      · subst hi
        rw [Function.update_self, if_pos ⟨rfl, rfl⟩]
        rfl
      · rw [Function.update_of_ne hi, if_neg (fun hh => hi hh.2.symm)]
        exact hr.tab _ hn nd hnd i
    · rw [Function.update_of_ne hne] at hnd'
      rw [if_neg (fun hh => hne hh.1.symm)]
      exact hr.tab n hnM nd' hnd' i
  names := by
    rw [List.map_cons, List.nodup_cons]
    refine ⟨fun hmem => ?_, hr.names⟩
    obtain ⟨e', he', hname⟩ := List.mem_map.1 hmem
    exact hnew e' he' hname
  slots := by
    have hfree' : ∀ e' ∈ A, e'.node = e.node → e'.pos = e.pos → False := by
      intro e' he' h1 h2
      have := List.find?_eq_none.1 hfree e' he'
      simp [h1, h2] at this
    intro e₁ h₁ e₂ h₂ hnode hpos
    rcases List.mem_cons.1 h₁ with rfl | hA₁
    · rcases List.mem_cons.1 h₂ with rfl | hA₂
      · rfl
      · exact (hfree' e₂ hA₂ hnode.symm hpos.symm).elim
    · rcases List.mem_cons.1 h₂ with rfl | hA₂
      · exact (hfree' e₁ hA₁ hnode hpos).elim
      · exact hr.slots e₁ hA₁ e₂ hA₂ hnode hpos
  nodes := by
    intro e' he'
    rcases List.mem_cons.1 he' with rfl | hmem
    · exact hn
    · exact hr.nodes e' hmem
  bound := by
    intro e' he'
    rcases List.mem_cons.1 he' with rfl | hmem
    · exact hb
    · exact hr.bound e' hmem

/-- An alias that does not fit: the block is written, but it is in no table. -/
theorem tc_add_node_addr_full {p n : Ptr} {a : ip_v4_addr ws} {b : OlsrNodeAddr ws} (hp : h.node_addrs p = some b)
    {main_addr : Bool} (hpos : newPos h n main_addr = some none) :
    tc_add_node_addr h p n a main_addr =
      some (false, { h with node_addrs := Function.update h.node_addrs p (some ⟨a, b.addr_pos, some n⟩) }) := by
  rw [tc_add_node_addr, Store.updAddr, hp, Option.map_some, Option.bind_eq_bind, Option.bind_some]
  exact Option.bind_eq_some_iff.2 ⟨_, hpos, rfl⟩

/-! ### An entry is removed -/

theorem tc_rmv_node_addr_none (hr : AddrsRep h M A) {a : ip_v4_addr ws} (ha : resolve A a = none) :
    tc_rmv_node_addr h a = some (none, h) := by
  rw [tc_rmv_node_addr, tc_find_addr_spec hr, ha]
  rfl

theorem tc_rmv_node_addr_eq (hr : AddrsRep h M A) {a : ip_v4_addr ws} {e : AddrInfo ws} (ha : resolve A a = some e)
    {nd : OlsrNode} (hnd : h.nodes e.node = some nd) :
    tc_rmv_node_addr h a = some (some e.name, h.withoutEntry e nd) := by
  obtain ⟨he, rfl⟩ := resolve_mem ha
  have hmem : e.name ∈ group AddrInfo.key AddrInfo.name A e.key := mem_group.2 ⟨e, he, rfl, rfl⟩
  have h1 : h.hash.removeCell h.liveAddr (fun _ => true) (get_hash_key e.addr_ip) e.name =
      some (h.hash.unlink e.key e.name) := hr.chains.removeCell hr.chain_live rfl hmem
  have h2 : ({ h with hash := h.hash.unlink e.key e.name } : Store ws).updNode e.node
      (fun n => { n with addr_tab := Function.update n.addr_tab e.pos none }) = some (h.withoutEntry e nd) := by
    rw [Store.updNode]
    simp only [hnd, Option.map_some]
    rfl
  rw [tc_rmv_node_addr, tc_find_addr_spec hr, ha, Option.map_some, Option.bind_eq_bind, Option.bind_some]
  exact Option.bind_eq_some_iff.2 ⟨_, h1, Option.bind_eq_some_iff.2 ⟨_, hr.blocks e he,
    Option.bind_eq_some_iff.2 ⟨_, rfl, Option.bind_eq_some_iff.2 ⟨_, h2, rfl⟩⟩⟩⟩

/-- An entry that is taken out is the one its address finds, and its node is in memory. -/
theorem tc_rmv_node_addr_cases (hr : AddrsRep h M A) {a : ip_v4_addr ws} {r : Option Ptr × Store ws}
    (hrun : tc_rmv_node_addr h a = some r) : resolve A a = none ∧ r = (none, h) ∨
      ∃ e nd, resolve A a = some e ∧ h.nodes e.node = some nd ∧ r = (some e.name, h.withoutEntry e nd) := by
  cases ha : resolve A a with
  | none =>
    rw [tc_rmv_node_addr_none hr ha] at hrun
    cases hrun
    exact Or.inl ⟨rfl, rfl⟩
  | some e =>
    have hblock := hr.blocks e (resolve_mem ha).1
    have hlive : ∃ nd, h.nodes e.node = some nd := by
      rw [tc_rmv_node_addr, tc_find_addr_spec hr, ha, Option.map_some, Option.bind_eq_bind, Option.bind_some] at hrun
      obtain ⟨D, -, hrun⟩ := Option.bind_eq_some_iff.1 hrun
      obtain ⟨b, hb, hrun⟩ := Option.bind_eq_some_iff.1 hrun
      obtain ⟨n, hn, hrun⟩ := Option.bind_eq_some_iff.1 hrun
      obtain ⟨s, hs, -⟩ := Option.bind_eq_some_iff.1 hrun
      obtain ⟨nd, hnd, -⟩ := Option.map_eq_some_iff.1 hs
      obtain rfl : e.block = b := Option.some_inj.1 (hblock.symm.trans hb)
      obtain rfl : e.node = n := Option.some_inj.1 hn
      exact ⟨nd, hnd⟩
    obtain ⟨nd, hnd⟩ := hlive
    rw [tc_rmv_node_addr_eq hr ha hnd] at hrun
    cases hrun
    exact Or.inr ⟨e, nd, rfl, hnd, rfl⟩

/-- The entries without the block of `e`. -/
def dropEntry (A : List (AddrInfo ws)) (e : AddrInfo ws) : List (AddrInfo ws) := A.filter fun e' => e'.name ≠ e.name

theorem mem_dropEntry {e e' : AddrInfo ws} : e' ∈ dropEntry A e ↔ e' ∈ A ∧ e'.name ≠ e.name := by
  simp [dropEntry]

theorem AddrsRep.withoutEntry (hr : AddrsRep h M A) {e : AddrInfo ws} (he : e ∈ A) {nd : OlsrNode}
    (hnd : h.nodes e.node = some nd) : AddrsRep (h.withoutEntry e nd) M (dropEntry A e) where
  chains := by
    have hinj : ∀ e' ∈ A, e'.name = e.name → e' = e := fun e' he' hname => hr.eq_of_name he' he hname
    rw [dropEntry, group_filter_ne he hinj]
    exact hr.chains.unlink (mem_group.2 ⟨e, he, rfl, rfl⟩)
  blocks := fun e' he' => hr.blocks e' (mem_dropEntry.1 he').1
  tab := by
    intro n hn nd' hnd' i
    have hnd' : Function.update h.nodes e.node (some ⟨Function.update nd.addr_tab e.pos none⟩) n = some nd' := hnd'
    -- the only entry that is gone is at the position of `e`
    have hdrop : ∀ {n i}, (e.node = n ∧ e.pos = i → False) → entryAt (dropEntry A e) n i = entryAt A n i := by
      intro n i hni
      rw [entryAt, dropEntry, List.find?_filter, entryAt]
      refine List.find?_congr fun e' he' => ?_
      by_cases hname : e'.name = e.name
      · have hee : e' = e := hr.eq_of_name he' he hname
        subst hee
        simpa using fun h1 h2 => hni ⟨h1, h2⟩
      · simp [hname]
    by_cases hne : n = e.node
    · subst hne
      rw [Function.update_self] at hnd'
      cases hnd'
      show Function.update nd.addr_tab e.pos none i = _
      by_cases hi : i = e.pos
      · subst hi
        have hnone : entryAt (dropEntry A e) e.node e.pos = none := by
          refine List.find?_eq_none.2 fun e' he' => ?_
          obtain ⟨hA, hname⟩ := mem_dropEntry.1 he'
          simp only [decide_eq_true_eq]
          intro hh
          exact hname (congrArg AddrInfo.name (hr.slots e' hA e he hh.1 hh.2))
        rw [Function.update_self, hnone]
        rfl
      · rw [Function.update_of_ne hi, hdrop (fun hh => hi hh.2.symm)]
        exact hr.tab _ hn nd hnd i
    · rw [Function.update_of_ne hne] at hnd'
      rw [hdrop (fun hh => hne hh.1.symm)]
      exact hr.tab n hn nd' hnd' i
  names := hr.names.sublist (List.filter_sublist.map _)
  slots := fun e₁ h₁ e₂ h₂ => hr.slots e₁ (mem_dropEntry.1 h₁).1 e₂ (mem_dropEntry.1 h₂).1
  nodes := fun e' he' => hr.nodes e' (mem_dropEntry.1 he').1
  bound := fun e' he' => hr.bound e' (mem_dropEntry.1 he').1

end MpOlsr
