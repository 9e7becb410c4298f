import MpOlsr.Topology.Steps

/-!
# What the removals do

The commands that take a link or a node out of the store, or empty it.  A node takes its addresses and its links with
it, when every entry of the node is found by its address in turn (`OwnsAddrs`).
-/

namespace MpOlsr

open DoublyLinked

variable {ws : WordSize} {h : Store ws} {g : Shape ws}

/-! ### A link -/

theorem Rep.main_entry (hr : Rep h g) {n : Ptr} (hn : n ∈ g.nodes) : ∃ e ∈ g.addrs, entryAt g.addrs n 0 = some e := by
  obtain ⟨e, he, rfl, hpos⟩ := hr.main n hn
  exact ⟨e, he, hpos ▸ hr.addrsRep.entryAt_eq he⟩

theorem leadsTo_eq (hr : Rep h g) {l : LinkInfo ws} (hl : l ∈ g.links) (a : ip_v4_addr ws) :
    leadsTo h a l.name = some (decide (mainAddr g.addrs l.dst = some a)) := by
  have hd := (hr.ends l hl).2
  obtain ⟨e, he, hmain⟩ := hr.main_entry hd
  obtain ⟨nd, hnd⟩ := hr.node hd
  have htab : nd.addr_tab 0 = some e.name := by
    rw [hr.addrsRep.tab _ hd nd hnd 0, hmain]
    rfl
  have hdec : decide (e.addr_ip = a) = decide (mainAddr g.addrs l.dst = some a) := by
    rw [mainAddr, hmain, Option.map_some]
    simp only [Option.some_inj]
  rw [leadsTo, hr.linksRep.blocks l hl]
  exact Option.bind_eq_some_iff.2 ⟨_, rfl, Option.bind_eq_some_iff.2 ⟨_, rfl, Option.bind_eq_some_iff.2 ⟨_, hnd,
    Option.bind_eq_some_iff.2 ⟨_, htab, Option.bind_eq_some_iff.2 ⟨_, hr.addrsRep.blocks e he, congrArg some hdec⟩⟩⟩⟩⟩

/-- The search of `tc_remove_link` finds the most recent link. -/
theorem Rep.search_link (hr : Rep h g) (n : Ptr) (a : ip_v4_addr ws) :
    search (h.src.getNext h.liveLink) (leadsTo h a) h.brk (h.src.head n) =
      some ((findLink g n a).map LinkInfo.name) := by
  let p : Ptr → Bool := fun y => (leadsTo h a y).getD false
  have hp : ∀ l ∈ g.links, p l.name = decide (mainAddr g.addrs l.dst = some a) := by
    intro l hl
    simp only [p, leadsTo_eq hr hl, Option.getD_some]
  have htest : ∀ y ∈ group LinkInfo.src LinkInfo.name g.links n, leadsTo h a y = some (p y) := by
    intro y hy
    obtain ⟨l, hl, -, rfl⟩ := mem_group.1 hy
    rw [hp l hl, leadsTo_eq hr hl]
  rw [hr.linksRep.src.search (group_live hr.linksRep.blocks) htest
    (hr.linksRep.group_length (List.Subset.refl _) (hr.linksRep.src.nodup n))]
  congr 1
  rw [group, List.find?_map, List.find?_filter, findLink]
  congr 1
  refine List.find?_congr fun l hl => ?_
  rw [Function.comp_apply, hp l hl]
  by_cases hsrc : l.src = n <;> simp [hsrc]

theorem tc_remove_link_unknown (hr : Rep h g) {s d : ip_v4_addr ws} (hs : resolve g.addrs s = none) :
    tc_remove_link h s d = some h := by
  rw [tc_remove_link, hr.get_node, hs]
  rfl

theorem tc_remove_link_none (hr : Rep h g) {s d : ip_v4_addr ws} {e : AddrInfo ws} (hs : resolve g.addrs s = some e)
    (hfind : findLink g e.node d = none) : tc_remove_link h s d = some h := by
  have hhead : h.src.getHead h.liveNode e.node = some (h.src.head e.node) := if_pos (hr.liveNode (hr.resolve_node hs))
  have hsearch := hr.search_link e.node d
  rw [hfind] at hsearch
  rw [tc_remove_link, hr.get_node, hs, Option.map_some, Option.bind_eq_bind, Option.bind_some]
  exact Option.bind_eq_some_iff.2 ⟨_, hhead, Option.bind_eq_some_iff.2 ⟨_, hsearch, rfl⟩⟩

theorem tc_remove_link_spec (hr : Rep h g) {s d : ip_v4_addr ws} {e : AddrInfo ws} (hs : resolve g.addrs s = some e)
    {l : LinkInfo ws} (hfind : findLink g e.node d = some l) :
    ∃ h', tc_remove_link h s d = some h' ∧ Rep h' (g.dropLink l) := by
  have hl : l ∈ g.links := List.mem_of_find?_eq_some hfind
  have hhead : h.src.getHead h.liveNode e.node = some (h.src.head e.node) := if_pos (hr.liveNode (hr.resolve_node hs))
  have hsearch := hr.search_link e.node d
  rw [hfind, Option.map_some] at hsearch
  have hblock := hr.linksRep.blocks l hl
  have hdst := removeDst_eq hr.linksRep.dst hr.linksRep.blocks hl (hr.liveNode (hr.ends l hl).2)
  have hsrc := removeSrc_eq (h := { h with dst := h.dst.unlink l.dst l.name }) hr.linksRep.src hr.linksRep.blocks hl
    (hr.liveNode (hr.ends l hl).1)
  let links := if s = h.g_local_addr_tab 0 then removeLocalLink d h.g_local_links else h.g_local_links
  refine ⟨_, ?_, (hr.withLocal links h.g_local_addr_tab h.g_local_mask_tab).withoutLink hl⟩
  rw [tc_remove_link, hr.get_node, hs, Option.map_some, Option.bind_eq_bind, Option.bind_some]
  refine Option.bind_eq_some_iff.2 ⟨_, hhead, Option.bind_eq_some_iff.2 ⟨_, hsearch, Option.bind_eq_some_iff.2 ⟨_, hdst,
    Option.bind_eq_some_iff.2 ⟨_, hsrc, ?_⟩⟩⟩⟩
  rw [Store.freeLink]
  simp only [hblock, Option.map_some]
  rfl

/-! ### The addresses of a node -/

/-- The entries but those of a node at the positions below `i`. -/
def dropBelow (n : Ptr) (i : Slot) (A : List (AddrInfo ws)) : List (AddrInfo ws) :=
  A.filter fun e => ¬ (e.node = n ∧ e.pos < i)

/-- Every entry of the node is the one that its address finds, once the entries of the node before it are gone. -/
def OwnsAddrs (A : List (AddrInfo ws)) (n : Ptr) : Prop :=
  ∀ e ∈ A, e.node = n → resolve (dropBelow n e.pos A) e.addr_ip = some e

theorem dropBelow_eq_self {A : List (AddrInfo ws)} {n : Ptr} {i : Slot} (h : ∀ e ∈ A, e.node = n → i ≤ e.pos) :
    dropBelow n i A = A := by
  refine List.filter_eq_self.2 fun e he => decide_eq_true fun hh => ?_
  exact not_lt_of_ge (h e he hh.1) hh.2

/-- The entries that stay do not notice that one before them is gone. -/
theorem AddrsRep.dropBelow_dropEntry {M : List Ptr} {A : List (AddrInfo ws)} (hr : AddrsRep h M A) {e : AddrInfo ws}
    (he : e ∈ A) {i : Slot} (hi : e.pos < i) : dropBelow e.node i (dropEntry A e) = dropBelow e.node i A := by
  rw [dropBelow, dropBelow, dropEntry, List.filter_filter]
  refine List.filter_congr fun x hx => ?_
  by_cases hname : x.name = e.name
  · rw [hr.eq_of_name hx he hname]
    simp [hi]
  · simp [hname]

/-- The loop of `tc_remove_node` over the positions of the table. -/
theorem removeAddrs_eq {M : List Ptr} {n : Ptr} (hn : n ∈ M) (is : List Slot) (his : is.Pairwise (· < ·)) (h : Store ws)
    (A : List (AddrInfo ws)) (hr : AddrsRep h M A) (hlive : h.liveNode n = true)
    (hall : ∀ e ∈ A, e.node = n → e.pos ∈ is) (hown : OwnsAddrs A n) :
    ∃ ps N D, removeAddrs n is h = some (ps, { h with nodes := N, hash := D }) ∧
      AddrsRep { h with nodes := N, hash := D } M (A.filter (·.node ≠ n)) ∧ (∀ q, (N q).isSome = h.liveNode q) ∧
      ps.Nodup ∧ ∀ p, p ∈ ps ↔ ∃ e ∈ A, e.node = n ∧ e.name = p := by
  induction is generalizing h A with
  | nil =>
    have hnone : ∀ e ∈ A, e.node ≠ n := fun e he hnode => List.not_mem_nil (hall e he hnode)
    refine ⟨[], h.nodes, h.hash, rfl, ?_, fun _ => rfl, List.nodup_nil, fun p => ?_⟩
    · rw [List.filter_eq_self.2 fun e he => decide_eq_true (hnone e he)]
      exact hr
    · refine ⟨fun hp => (List.not_mem_nil hp).elim, fun hp => ?_⟩
      obtain ⟨e, he, hnode, -⟩ := hp
      exact (hnone e he hnode).elim
  | cons i is ih =>
    obtain ⟨hlt, his'⟩ := List.pairwise_cons.1 his
    obtain ⟨nd, hnd⟩ := Option.isSome_iff_exists.1 hlive
    have htab := hr.tab n hn nd hnd i
    cases hi : entryAt A n i with
    | none =>
      rw [hi] at htab
      have hall' : ∀ e ∈ A, e.node = n → e.pos ∈ is := by
        intro e he hnode
        refine (List.mem_cons.1 (hall e he hnode)).resolve_left fun hpos => ?_
        have hnot := List.find?_eq_none.1 hi e he
        simp [hnode, hpos] at hnot
      obtain ⟨ps, N, D, hrun, hrest⟩ := ih his' h A hr hlive hall' hown
      refine ⟨ps, N, D, ?_, hrest⟩
      rw [removeAddrs, hnd, Option.bind_eq_bind, Option.bind_some, htab]
      exact hrun
    | some e =>
      rw [hi] at htab
      obtain ⟨he, rfl, rfl⟩ := entryAt_mem hi
      -- no entry of the node is before `e`
      have hle : ∀ x ∈ A, x.node = e.node → e.pos ≤ x.pos := by
        intro x hx hnode
        rcases List.mem_cons.1 (hall x hx hnode) with hpos | hpos
        · exact ge_of_eq hpos
        · exact le_of_lt (hlt _ hpos)
      have hres := hown e he rfl
      rw [dropBelow_eq_self hle] at hres
      have hrmv := tc_rmv_node_addr_eq hr hres hnd
      have hall' : ∀ x ∈ dropEntry A e, x.node = e.node → x.pos ∈ is := by
        intro x hx hnode
        obtain ⟨hx, hname⟩ := mem_dropEntry.1 hx
        refine (List.mem_cons.1 (hall x hx hnode)).resolve_left fun hpos => hname ?_
        rw [hr.slots x hx e he hnode hpos]
      have hown' : OwnsAddrs (dropEntry A e) e.node := by
        intro x hx hnode
        rw [hr.dropBelow_dropEntry he (hlt _ (hall' x hx hnode))]
        exact hown x (mem_dropEntry.1 hx).1 hnode
      obtain ⟨ps, N, D, hrun, hA, hN, hps, hmem⟩ :=
        ih his' _ _ (hr.withoutEntry he hnd) ((liveNode_update hnd _).trans hlive) hall' hown'
      refine ⟨e.name :: ps, N, D, ?_, ?_, fun q => (hN q).trans (liveNode_update hnd q), ?_, ?_⟩
      · rw [removeAddrs, hnd, Option.bind_eq_bind, Option.bind_some, htab]
        exact Option.bind_eq_some_iff.2 ⟨_, hr.blocks e he, Option.bind_eq_some_iff.2 ⟨_, hrmv,
          Option.bind_eq_some_iff.2 ⟨_, hrun, rfl⟩⟩⟩
      · have hfilter : (dropEntry A e).filter (·.node ≠ e.node) = A.filter (·.node ≠ e.node) := by
          rw [dropEntry, List.filter_filter]
          refine List.filter_congr fun x hx => ?_
          by_cases hname : x.name = e.name
          · rw [hr.eq_of_name hx he hname]
            simp
          · simp [hname]
        rw [← hfilter]
        exact hA
      · refine List.nodup_cons.2 ⟨fun hp => ?_, hps⟩
        obtain ⟨e', he', -, hname⟩ := (hmem _).1 hp
        exact (mem_dropEntry.1 he').2 hname
      · intro p
        rw [List.mem_cons, hmem]
        constructor
        · rintro (rfl | ⟨e', he', hnode, hname⟩)
          · exact ⟨e, he, rfl, rfl⟩
          · exact ⟨e', (mem_dropEntry.1 he').1, hnode, hname⟩
        · rintro ⟨e', he', hnode, hname⟩
          by_cases hee : e'.name = e.name
          · exact Or.inl (hname.symm.trans hee)
          · exact Or.inr ⟨e', mem_dropEntry.2 ⟨he', hee⟩, hnode, hname⟩

theorem freeAddrs_eq (ps : List Ptr) (h : Store ws) (hps : ps.Nodup) (hlive : ∀ p ∈ ps, h.liveAddr p = true) :
    ps.foldlM Store.freeAddr h =
      some { h with node_addrs := withoutBlocks ps h.node_addrs } := by
  induction ps generalizing h with
  | nil =>
    rw [withoutBlocks_nil]
    rfl
  | cons p ps ih =>
    obtain ⟨hp, hps'⟩ := List.nodup_cons.1 hps
    obtain ⟨b, hb⟩ := Option.isSome_iff_exists.1 (hlive p List.mem_cons_self)
    have hfree : h.freeAddr p = some { h with node_addrs := Function.update h.node_addrs p none } := by
      rw [Store.freeAddr, hb, Option.map_some]
    have hlive' : ∀ q ∈ ps, ({ h with node_addrs := Function.update h.node_addrs p none } : Store ws).liveAddr q = true := by
      intro q hq
      have hqp : q ≠ p := fun hqp => hp (hqp ▸ hq)
      show (Function.update h.node_addrs p none q).isSome = true
      rw [Function.update_of_ne hqp]
      exact hlive q (List.mem_cons_of_mem _ hq)
    rw [List.foldlM_cons, hfree, Option.bind_eq_bind, Option.bind_some, ih _ hps' hlive', withoutBlocks_cons]

/-! ### A node -/

theorem tc_remove_node_unknown (hr : Rep h g) {a : ip_v4_addr ws} (ha : resolve g.addrs a = none) :
    tc_remove_node h a = some h := by
  rw [tc_remove_node, hr.get_node, ha]
  rfl

theorem NodesRep.unlink (hr : NodesRep h g.nodes g.nodes) {n : Ptr} (hn : n ∈ g.nodes) :
    Holds (h.node_lst.unlink () n) fun _ => g.nodes.filter (· ≠ n) := by
  have hlist := hr.list.unlink (k := ()) hn
  have hf : Function.update (fun _ : Unit => g.nodes) () (g.nodes.filter (· ≠ n)) =
      fun _ => g.nodes.filter (· ≠ n) := funext fun k => Function.update_self _ _ _
  rw [hf] at hlist
  exact hlist

/-- Nodes without entries may be left out. -/
theorem AddrsRep.mono {M M' : List Ptr} {A : List (AddrInfo ws)} (hr : AddrsRep h M A) (hM : M' ⊆ M)
    (hA : ∀ e ∈ A, e.node ∈ M') : AddrsRep h M' A where
  chains := hr.chains
  blocks := hr.blocks
  tab := fun n hn => hr.tab n (hM hn)
  names := hr.names
  slots := hr.slots
  nodes := hA
  bound := hr.bound

theorem tc_remove_node_spec (hr : Rep h g) {a : ip_v4_addr ws} {e : AddrInfo ws} (ha : resolve g.addrs a = some e)
    (hown : OwnsAddrs g.addrs e.node) : ∃ h', tc_remove_node h a = some h' ∧ Rep h' (g.dropNode e.node) := by
  have hn := hr.resolve_node ha
  let n := e.node
  let ll := if a = h.g_local_addr_tab 0 then [] else removeLocalLink a h.g_local_links
  let h0 : Store ws := { h with g_local_links := ll }
  have hr0 : Rep h0 g := hr.withLocal ll h.g_local_addr_tab h.g_local_mask_tab
  -- the node leaves the node list
  have hcell : h0.node_lst.removeCell h0.liveNode (fun _ => true) () n = some (h.node_lst.unlink () n) :=
    hr0.nodesRep.list.removeCell (fun y hy => hr0.liveNode hy) rfl hn
  let h1 : Store ws := { h0 with node_lst := h.node_lst.unlink () n }
  have hA1 : AddrsRep h1 g.nodes g.addrs :=
    hr0.addrsRep.congr rfl (fun _ _ => rfl) (fun _ _ => rfl) (fun _ _ => rfl) (fun _ _ => rfl) le_rfl
  -- the entries leave the hash table
  have hslots : ∀ i : Slot, i ∈ [0, 1, 2, 3, 4] := by decide
  obtain ⟨ps, N, D, hrun, hA2, hN, hps, hmem⟩ := removeAddrs_eq hn [0, 1, 2, 3, 4] (by decide) h1 _ hA1
    (hr.liveNode hn) (fun e _ _ => hslots e.pos) hown
  let h2 : Store ws := { h1 with nodes := N, hash := D }
  have hL2 : LinksRep h2 g.links g.links g.links :=
    hr0.linksRep.congr (List.Subset.refl _) (List.Subset.refl _) rfl (fun _ _ => rfl) (fun _ _ => rfl) rfl
      (fun _ _ => rfl) (fun _ _ => rfl) (fun _ => rfl) le_rfl
  have hlive2 : ∀ q ∈ g.nodes, h2.liveNode q = true := fun q hq => (hN q).trans (hr.liveNode hq)
  -- the links leave the lists of the other nodes
  obtain ⟨SS, DD, hdetach, hSS, hDD⟩ := detachLinks_eq hL2
    (fun l hl => ⟨hlive2 _ (hr.ends l hl).1, hlive2 _ (hr.ends l hl).2⟩) (hlive2 n hn)
  let h3 : Store ws := { h2 with src := SS, dst := DD }
  -- the blocks are freed
  have hfree : ps.foldlM Store.freeAddr h3 =
      some { h3 with node_addrs := withoutBlocks ps h.node_addrs } := by
    refine freeAddrs_eq ps h3 hps fun p hp => ?_
    obtain ⟨e', he', -, rfl⟩ := (hmem p).1 hp
    exact hr.addrsRep.live he'
  let h4 : Store ws := { h3 with node_addrs := withoutBlocks ps h.node_addrs }
  have hlinks : freeLinks h4 n = some { h4 with
      link_blocks := freedBlocks n (notInto n g.links) (notFrom n g.links) h.link_blocks } :=
    hL2.freeDetached hSS hDD rfl rfl rfl rfl (hlive2 n hn)
  let h5 : Store ws :=
    { h4 with link_blocks := freedBlocks n (notInto n g.links) (notFrom n g.links) h.link_blocks }
  obtain ⟨nd, hnd⟩ := Option.isSome_iff_exists.1 (hlive2 n hn)
  have hnode : h5.freeNode n = some { h5 with
      nodes := Function.update N n none, src := SS.clearHead n, dst := DD.clearHead n } := by
    have hnd : h5.nodes n = some nd := hnd
    rw [Store.freeNode, hnd, Option.map_some]
  let h6 : Store ws := { h5 with nodes := Function.update N n none, src := SS.clearHead n, dst := DD.clearHead n }
  have hA6 : AddrsRep h6 (g.nodes.filter (· ≠ n)) (g.addrs.filter (·.node ≠ n)) := by
    have hgone : ∀ x ∈ g.addrs.filter (·.node ≠ n), x.name ∉ ps := by
      intro x hx hp
      obtain ⟨hx, hxn⟩ := List.mem_filter.1 hx
      obtain ⟨e', he', hnode', hname⟩ := (hmem _).1 hp
      rw [hr.addrsRep.eq_of_name he' hx hname] at hnode'
      exact of_decide_eq_true hxn hnode'
    have hnodes : ∀ x ∈ g.addrs.filter (·.node ≠ n), x.node ∈ g.nodes.filter (· ≠ n) := by
      intro x hx
      obtain ⟨hx, hxn⟩ := List.mem_filter.1 hx
      exact List.mem_filter.2 ⟨hr.addrsRep.nodes x hx, by simpa using hxn⟩
    refine (hA2.mono (List.filter_subset_self _) hnodes).congr rfl (fun _ _ => rfl) (fun _ _ => rfl) ?_ ?_ le_rfl
    · exact fun x hx => if_neg (hgone x hx)
    · exact fun m hm => Function.update_of_ne (of_decide_eq_true (List.mem_filter.1 hm).2) _ _
  refine ⟨h6, ?_, ⟨?_, ?_, fun _ hp => hp, fun p hp => hr.nodesRep.bound p (List.mem_filter.1 hp).1⟩, hA6,
    hL2.freed hSS hDD rfl rfl rfl rfl, ?_, ?_⟩
  · rw [tc_remove_node, hr.get_node, ha, Option.map_some, Option.bind_eq_bind, Option.bind_some]
    exact Option.bind_eq_some_iff.2 ⟨_, hcell, Option.bind_eq_some_iff.2 ⟨_, hrun, Option.bind_eq_some_iff.2 ⟨_, hdetach,
      Option.bind_eq_some_iff.2 ⟨_, hfree, Option.bind_eq_some_iff.2 ⟨_, hlinks, hnode⟩⟩⟩⟩⟩
  · exact hr.nodesRep.unlink hn
  · intro p
    show (Function.update N n none p).isSome = true ↔ _
    by_cases hp : p = n
    · subst hp
      simp [Shape.dropNode, n]
    · rw [Function.update_of_ne hp, hN, Shape.dropNode, List.mem_filter, decide_eq_true_eq]
      exact ⟨fun hlive => ⟨(hr.nodesRep.live p).1 hlive, hp⟩, fun hmem => (hr.nodesRep.live p).2 hmem.1⟩
  · intro m hm
    obtain ⟨hm, hmn⟩ := List.mem_filter.1 hm
    obtain ⟨e', he', hnode', hpos⟩ := hr.main m hm
    exact ⟨e', List.mem_filter.2 ⟨he', by simpa [hnode'] using hmn⟩, hnode', hpos⟩
  · intro l hl
    obtain ⟨hl, hends⟩ := List.mem_filter.1 hl
    have hends := of_decide_eq_true hends
    exact ⟨List.mem_filter.2 ⟨(hr.ends l hl).1, decide_eq_true hends.1⟩,
      List.mem_filter.2 ⟨(hr.ends l hl).2, decide_eq_true hends.2⟩⟩

/-! ### The whole store -/

/-- The links are freed node by node. -/
theorem freeNodeStep_eq {S : List (LinkInfo ws)} {x : Ptr} {nd : OlsrNode}
    (hs : Holds h.src (group LinkInfo.src LinkInfo.name S)) (hx : h.nodes x = some nd)
    (hS : ∀ y ∈ group LinkInfo.src LinkInfo.name S x, (h.link_blocks y).isSome)
    (hlen : (group LinkInfo.src LinkInfo.name S x).length ≤ h.brk) :
    freeNodeStep h x = some ({ h with
      link_blocks := withoutBlocks (group LinkInfo.src LinkInfo.name S x) h.link_blocks,
      nodes := Function.update h.nodes x none, src := h.src.clearHead x, dst := h.dst.clearHead x },
      h.node_lst.next x) := by
  have hlive : h.liveNode x = true := Option.isSome_iff_exists.2 ⟨nd, hx⟩
  have hhead : h.src.getHead h.liveNode x = some (h.src.head x) := if_pos hlive
  have hnext : h.node_lst.getNext h.liveNode x = some (h.node_lst.next x) := if_pos hlive
  refine Option.bind_eq_some_iff.2 ⟨_, hhead, Option.bind_eq_some_iff.2 ⟨_, walk_freeSrcStep hs hS hlen,
    Option.bind_eq_some_iff.2 ⟨_, hnext, ?_⟩⟩⟩
  rw [Store.freeNode, hx]
  rfl

/-- The store as `tc_free_data` has freed the nodes `done`. -/
structure Cleared (h : Store ws) (g : Shape ws) (s : Store ws) (done : List Ptr) : Prop where
  frame : s = { h with nodes := withoutBlocks done h.nodes, link_blocks := s.link_blocks, src := s.src, dst := s.dst }
  src : Holds s.src (group LinkInfo.src LinkInfo.name (g.links.filter fun l => l.src ∉ done))
  dst : Holds s.dst (group LinkInfo.dst LinkInfo.name (g.links.filter fun l => l.dst ∉ done))
  blocks : ∀ l ∈ g.links, l.src ∉ done → s.link_blocks l.name = some l.block
  live : ∀ p, s.liveLink p = true → ∃ l ∈ g.links, l.src ∉ done ∧ l.name = p

theorem filter_not_mem_append {β : Type} (key : β → Ptr) (L : List β) (done : List Ptr) (x : Ptr) :
    (L.filter fun l => key l ∉ done ++ [x]) = (L.filter fun l => key l ∉ done).filter fun l => key l ≠ x := by
  rw [List.filter_filter]
  refine List.filter_congr fun l _ => ?_
  by_cases h1 : key l ∈ done <;> by_cases h2 : key l = x <;> simp [h1, h2]

theorem Cleared.step (hr : WeakRep h g) {s : Store ws} {done : List Ptr} (hc : Cleared h g s done) {x : Ptr}
    (hx : x ∈ g.nodes) (hdone : x ∉ done) :
    ∃ s', freeNodeStep s x = some (s', h.node_lst.next x) ∧ Cleared h g s' (done ++ [x]) := by
  obtain ⟨nd, hnd⟩ := Option.isSome_iff_exists.1 ((hr.nodesRep.live x).2 hx)
  have hnodes : s.nodes = withoutBlocks done h.nodes := by rw [hc.frame]
  have hlst : s.node_lst = h.node_lst := by rw [hc.frame]
  have hbrk : s.brk = h.brk := by rw [hc.frame]
  have hxs : s.nodes x = some nd := by rw [hnodes, withoutBlocks, if_neg hdone, hnd]
  let S := g.links.filter fun l => l.src ∉ done
  have hS : S ⊆ g.links := List.filter_subset_self _
  have hlive : ∀ y ∈ group LinkInfo.src LinkInfo.name S x, (s.link_blocks y).isSome := by
    intro y hy
    obtain ⟨l, hl, -, rfl⟩ := mem_group.1 hy
    rw [hc.blocks l (hS hl) (of_decide_eq_true (List.mem_filter.1 hl).2)]
    rfl
  have hlen : (group LinkInfo.src LinkInfo.name S x).length ≤ s.brk :=
    hbrk ▸ hr.linksRep.group_length hS (hc.src.nodup x)
  have hstep := freeNodeStep_eq hc.src hxs hlive hlen
  rw [hlst] at hstep
  refine ⟨_, hstep, ?_, ?_, ?_, ?_, ?_⟩
  · have hupd : Function.update s.nodes x none = withoutBlocks (done ++ [x]) h.nodes := by
      rw [hnodes]
      funext p
      by_cases hp : p = x <;> simp [withoutBlocks, hp]
    rw [hc.frame, ← hupd, hnodes]
  · rw [filter_not_mem_append, group_filter_key]
    exact hc.src.clearHead x
  · rw [filter_not_mem_append, group_filter_key]
    exact hc.dst.clearHead x
  · intro l hl hsrc
    rw [List.mem_append, not_or] at hsrc
    have hgone : l.name ∉ group LinkInfo.src LinkInfo.name S x := by
      intro hmem
      obtain ⟨l', hl', hsrc', hname⟩ := mem_group.1 hmem
      rw [eq_of_name hr.linksRep.names (hS hl') hl hname] at hsrc'
      exact hsrc.2 (List.mem_singleton.2 hsrc')
    exact (if_neg hgone).trans (hc.blocks l hl hsrc.1)
  · intro p hp
    have hp : (withoutBlocks (group LinkInfo.src LinkInfo.name S x) s.link_blocks p).isSome = true := hp
    by_cases hgone : p ∈ group LinkInfo.src LinkInfo.name S x
    · rw [withoutBlocks, if_pos hgone] at hp
      cases hp
    · rw [withoutBlocks, if_neg hgone] at hp
      obtain ⟨l, hl, hsrc, rfl⟩ := hc.live p hp
      refine ⟨l, hl, fun hmem => ?_, rfl⟩
      rcases List.mem_append.1 hmem with hmem | hmem
      · exact hsrc hmem
      · exact hgone (mem_group.2 ⟨l, List.mem_filter.2 ⟨hl, decide_eq_true hsrc⟩, List.mem_singleton.1 hmem, rfl⟩)

theorem WeakRep.cleared (hr : WeakRep h g) :
    ∃ s, walk freeNodeStep h.brk h (h.node_lst.head ()) = some s ∧ Cleared h g s g.nodes := by
  have hnodup := hr.nodesRep.list.nodup ()
  have hstart : Cleared h g h [] :=
    ⟨by rw [withoutBlocks_nil], by simpa using hr.linksRep.src, by simpa using hr.linksRep.dst,
      fun l hl _ => hr.linksRep.blocks l hl, fun p hp => by simpa using hr.linksRep.live p hp⟩
  let P : List Ptr → Store ws → Prop := fun rest s => ∃ done, g.nodes = done ++ rest ∧ Cleared h g s done
  have hrun : ∀ x rest s, P (x :: rest) s → ∃ s', freeNodeStep s x = some (s', rest.head?) ∧ P rest s' := by
    intro x rest s hP
    obtain ⟨done, hf, hs⟩ := hP
    have hx : x ∈ g.nodes := by rw [hf]; simp
    have hxd : x ∉ done := by
      rw [hf] at hnodup
      exact fun hmem => (List.nodup_append.1 hnodup).2.2 x hmem x List.mem_cons_self rfl
    obtain ⟨s', hstep, hs'⟩ := hs.step hr hx hxd
    rw [hr.nodesRep.list.next_of_split (k := ()) hf] at hstep
    exact ⟨s', hstep, done ++ [x], by rw [hf]; simp, hs'⟩
  obtain ⟨s, hwalk, done, hdone, hs⟩ :=
    walk_spec P hrun (length_le_of_bound hnodup fun x hx => hr.nodesRep.bound x hx) ⟨[], rfl, hstart⟩
  rw [List.append_nil] at hdone
  rw [hr.nodesRep.list.head ()]
  exact ⟨s, hwalk, hdone ▸ hs⟩

theorem freeChain_eq {A : List (AddrInfo ws)} (hc : Holds h.hash (group AddrInfo.key AddrInfo.name A))
    (hlive : ∀ e ∈ A, h.liveAddr e.name = true) (hbound : ∀ e ∈ A, e.name < h.brk) (k : Byte) :
    freeChain h k = some { h with node_addrs := withoutBlocks (group AddrInfo.key AddrInfo.name A k) h.node_addrs,
                                  hash := h.hash.clearHead k } := by
  have hwalk : walk freeAddrStep h.brk h (h.hash.head k) =
      some { h with node_addrs := withoutBlocks (group AddrInfo.key AddrInfo.name A k) h.node_addrs } := by
    refine hc.walk_free (n := k) (B := h.node_addrs) (I := fun B => { h with node_addrs := B }) ?_ ?_ ?_
    · intro B x hx
      obtain ⟨b, hb⟩ := Option.isSome_iff_exists.1 hx
      have hnext : h.hash.getNext ({ h with node_addrs := B } : Store ws).liveAddr x = some (h.hash.next x) := if_pos hx
      refine Option.bind_eq_some_iff.2 ⟨_, hnext, ?_⟩
      rw [Store.freeAddr]
      simp only [hb, Option.map_some]
      rfl
    · intro x hx
      obtain ⟨e, he, -, rfl⟩ := mem_group.1 hx
      exact hlive e he
    · refine length_le_of_bound (hc.nodup k) fun x hx => ?_
      obtain ⟨e, he, -, rfl⟩ := mem_group.1 hx
      exact hbound e he
  rw [freeChain, hwalk]
  rfl

theorem freeChains_eq (ks : List Byte) (h : Store ws) (A : List (AddrInfo ws))
    (hc : Holds h.hash (group AddrInfo.key AddrInfo.name A)) (hlive : ∀ e ∈ A, h.liveAddr e.name = true)
    (hbound : ∀ e ∈ A, e.name < h.brk) (hnames : (A.map AddrInfo.name).Nodup) :
    ∃ B D, ks.foldlM freeChain h = some { h with node_addrs := B, hash := D } ∧
      Holds D (group AddrInfo.key AddrInfo.name (A.filter fun e => e.key ∉ ks)) := by
  induction ks generalizing h A with
  | nil => exact ⟨h.node_addrs, h.hash, rfl, by simpa using hc⟩
  | cons k ks ih =>
    let A' := A.filter fun e => e.key ≠ k
    have hsub : A' ⊆ A := List.filter_subset_self _
    let h' : Store ws := { h with node_addrs := withoutBlocks (group AddrInfo.key AddrInfo.name A k) h.node_addrs,
                                  hash := h.hash.clearHead k }
    have hc' : Holds h'.hash (group AddrInfo.key AddrInfo.name A') := by
      rw [group_filter_key]
      exact hc.clearHead k
    have hlive' : ∀ e ∈ A', h'.liveAddr e.name = true := by
      intro e he
      have hgone : e.name ∉ group AddrInfo.key AddrInfo.name A k := by
        intro hmem
        obtain ⟨e', he', hkey, hname⟩ := mem_group.1 hmem
        rw [eq_of_name hnames he' (hsub he) hname] at hkey
        exact of_decide_eq_true (List.mem_filter.1 he).2 hkey
      show (withoutBlocks (group AddrInfo.key AddrInfo.name A k) h.node_addrs e.name).isSome = true
      rw [withoutBlocks, if_neg hgone]
      exact hlive e (hsub he)
    obtain ⟨B, D, hrun, hD⟩ := ih h' A' hc' hlive' (fun e he => hbound e (hsub he))
      (hnames.sublist (List.filter_sublist.map _))
    refine ⟨B, D, ?_, ?_⟩
    · rw [List.foldlM_cons, freeChain_eq hc hlive hbound k]
      exact hrun
    · have hfilter : (A'.filter fun e => e.key ∉ ks) = A.filter fun e => e.key ∉ k :: ks := by
        rw [List.filter_filter]
        refine List.filter_congr fun e _ => ?_
        by_cases h1 : e.key = k <;> by_cases h2 : e.key ∈ ks <;> simp [h1, h2]
      rwa [hfilter] at hD

theorem mem_hash_keys (k : Byte) : k ∈ (List.range 256).map (BitVec.ofNat 8) :=
  List.mem_map.2 ⟨k.toNat, List.mem_range.2 k.isLt, by rw [BitVec.ofNat_toNat, BitVec.setWidth_eq]⟩

theorem tc_free_data_spec (hr : WeakRep h g) : ∃ h', tc_free_data h = some h' ∧ Rep h' ⟨[], [], []⟩ := by
  obtain ⟨s, hwalk, hs⟩ := hr.cleared
  have haddrs : s.node_addrs = h.node_addrs := by rw [hs.frame]
  have hhash : s.hash = h.hash := by rw [hs.frame]
  have hbrk : s.brk = h.brk := by rw [hs.frame]
  have hlst : s.node_lst = h.node_lst := by rw [hs.frame]
  let s' : Store ws := { s with node_lst := s.node_lst.clearHead () }
  obtain ⟨B, D, hrun, hD⟩ := freeChains_eq ((List.range 256).map (BitVec.ofNat 8)) s' g.addrs
    (hhash ▸ hr.addrsRep.chains) (fun e he => by
      show (s.node_addrs e.name).isSome = true
      rw [haddrs]
      exact hr.addrsRep.live he)
    (fun e he => hbrk ▸ hr.addrsRep.bound e he) hr.addrsRep.names
  have hempty : ∀ {β : Type} {key : β → Byte} (L : List β),
      (L.filter fun e => key e ∉ (List.range 256).map (BitVec.ofNat 8)) = [] := by
    intro β key L
    exact List.filter_eq_nil_iff.2 fun e _ => by simpa using mem_hash_keys (key e)
  rw [hempty] at hD
  have hsrc := hs.src
  have hdst := hs.dst
  have hnone : ∀ {key : LinkInfo ws → Ptr}, (∀ l ∈ g.links, key l ∈ g.nodes) →
      (g.links.filter fun l => key l ∉ g.nodes) = [] :=
    fun hkey => List.filter_eq_nil_iff.2 fun l hl => by simpa using hkey l hl
  rw [hnone fun l hl => (hr.ends l hl).1] at hsrc
  rw [hnone fun l hl => (hr.ends l hl).2] at hdst
  let h' : Store ws := { s' with node_addrs := B, hash := D, g_local_links := [], g_local_addr_tab := fun _ => 0,
                                 g_local_mask_tab := fun _ => 0 }
  refine ⟨h', Option.bind_eq_some_iff.2 ⟨_, hwalk, Option.bind_eq_some_iff.2 ⟨_, hrun, rfl⟩⟩, ?_⟩
  refine ⟨⟨?_, ?_, by simp, by simp⟩, ⟨hD, by simp, by simp, List.nodup_nil, by simp, by simp, by simp⟩,
    ⟨hsrc, hdst, by simp, ?_, List.nodup_nil, by simp⟩, by simp, by simp⟩
  · have hlist := hr.nodesRep.list.clearHead ()
    have hf : Function.update (fun _ : Unit => g.nodes) () [] = fun _ => [] :=
      funext fun k => Function.update_self _ _ _
    rw [hf] at hlist
    show Holds (s.node_lst.clearHead ()) fun _ => []
    rw [hlst]
    exact hlist
  · intro p
    have hnodes : s.nodes = withoutBlocks g.nodes h.nodes := by rw [hs.frame]
    show (s.nodes p).isSome = true ↔ p ∈ []
    rw [hnodes, withoutBlocks]
    by_cases hp : p ∈ g.nodes
    · simp [hp]
    · rw [if_neg hp]
      exact ⟨fun hlive => (hp ((hr.nodesRep.live p).1 hlive)).elim, fun hmem => (List.not_mem_nil hmem).elim⟩
  · intro p hp
    obtain ⟨l, hl, hgone, -⟩ := hs.live p hp
    exact (hgone (hr.ends l hl).1).elim

end MpOlsr
