import MpOlsr.Topology.Neighbours

/-!
# Commands that are not careful

What every command keeps that returns (`WeakRep`).  An alias that is removed may be the main address of a node, and the
addresses of a node that is removed need not find the entries of the node; then a node has no main address, or an entry
refers to a node that is freed.
-/

namespace MpOlsr

open DoublyLinked Fault

variable {ws : WordSize} {h h' : Store ws} {g : Shape ws}

/-! ### Parts of a weak representation -/

/-- Entries may refer to any block below `brk`. -/
theorem WeakRep.of_parts {M : List Ptr} (hN : NodesRep h g.nodes g.nodes) (hA : AddrsRep h M g.addrs)
    (hM : ∀ n ∈ g.nodes, n ∈ M) (hbound : ∀ n ∈ M, n < h.brk) (hL : LinksRep h g.links g.links g.links)
    (hends : ∀ l ∈ g.links, l.src ∈ g.nodes ∧ l.dst ∈ g.nodes) : WeakRep h g where
  nodesRep := hN
  addrsRep := by
    refine hA.rebase (fun n nd hnd => hM n ((hN.live n).1 ?_)) fun e he => List.mem_range.2 (hbound _ (hA.nodes e he))
    rw [Store.liveNode, hnd]
    rfl
  linksRep := hL
  ends := hends

theorem WeakRep.bound (hw : WeakRep h g) : ∀ n ∈ g.nodes, n ∈ List.range h.brk :=
  fun n hn => List.mem_range.2 (hw.nodesRep.bound n hn)

theorem WeakRep.withLocal (hw : WeakRep h g) (links : List (LocalLinkEntry ws)) (addrs masks : Slot → ip_v4_addr ws) :
    WeakRep { h with g_local_links := links, g_local_addr_tab := addrs, g_local_mask_tab := masks } g where
  nodesRep := hw.nodesRep.congr rfl (fun _ _ => rfl) (fun _ _ => rfl) (fun _ => rfl) le_rfl
  addrsRep := hw.addrsRep.congr rfl (fun _ _ => rfl) (fun _ _ => rfl) (fun _ _ => rfl) (fun _ _ => rfl) le_rfl
  linksRep := hw.linksRep.congr (List.Subset.refl _) (List.Subset.refl _) rfl (fun _ _ => rfl) (fun _ _ => rfl) rfl
    (fun _ _ => rfl) (fun _ _ => rfl) (fun _ => rfl) le_rfl
  ends := hw.ends

/-- The blocks below `brk` and the lists they are on are those of the other store. -/
structure SameBlocks (h h' : Store ws) : Prop where
  brk : h.brk ≤ h'.brk
  nodes : h'.nodes = h.nodes
  link_blocks : h'.link_blocks = h.link_blocks
  node_addrs : ∀ p < h.brk, h'.node_addrs p = h.node_addrs p
  node_lst : h.node_lst.SameOn (· < h.brk) h'.node_lst
  hash : h.hash.SameOn (· < h.brk) h'.hash
  src : h.src.SameOn (· < h.brk) h'.src
  dst : h.dst.SameOn (· < h.brk) h'.dst

/-- Nodes, addresses, links and local links are as they were; blocks that are on no list may be new. -/
structure Unchanged (h h' : Store ws) : Prop where
  blocks : SameBlocks h h'
  locals : SameLocals h h'

theorem SameBlocks.refl : SameBlocks h h :=
  ⟨le_rfl, rfl, rfl, fun _ _ => rfl, .refl, .refl, .refl, .refl⟩

theorem Unchanged.refl : Unchanged h h := ⟨.refl, .refl⟩

/-- A store with the same blocks represents the same shape. -/
theorem WeakRep.of_sameBlocks (hw : WeakRep h g) (hs : SameBlocks h h') : WeakRep h' g := by
  have hnode : ∀ n ∈ List.range h.brk, n < h'.brk := fun n hn => lt_of_lt_of_le (List.mem_range.1 hn) hs.brk
  have haddr : ∀ e ∈ g.addrs, e.name < h.brk := hw.addrsRep.bound
  have hlink : ∀ l ∈ g.links, l.name < h.brk := hw.linksRep.bound
  refine .of_parts ?_ ?_ hw.bound hnode ?_ hw.ends
  · refine hw.nodesRep.congr hs.node_lst.head (fun p hp => hs.node_lst.next p ?_) (fun p hp => hs.node_lst.prev p ?_)
      (fun p => ?_) hs.brk
    · exact hw.nodesRep.bound p hp
    · exact hw.nodesRep.bound p hp
    · rw [Store.liveNode, hs.nodes]
      rfl
  · exact hw.addrsRep.congr hs.hash.head (fun e he => hs.hash.next _ (haddr e he))
      (fun e he => hs.hash.prev _ (haddr e he)) (fun e he => hs.node_addrs _ (haddr e he))
      (fun n _ => congrFun hs.nodes n) hs.brk
  · exact hw.linksRep.congr (List.Subset.refl _) (List.Subset.refl _) hs.src.head
      (fun l hl => hs.src.next _ (hlink l hl)) (fun l hl => hs.src.prev _ (hlink l hl)) hs.dst.head
      (fun l hl => hs.dst.next _ (hlink l hl)) (fun l hl => hs.dst.prev _ (hlink l hl))
      (fun p => congrFun hs.link_blocks p) hs.brk

theorem WeakRep.get_node (hw : WeakRep h g) (a : ip_v4_addr ws) :
    tc_get_node h a = some ((resolve g.addrs a).map AddrInfo.node) := tc_get_node_spec hw.addrsRep a

theorem WeakRep.fresh_link (hw : WeakRep h g) : h.link_blocks h.brk = none := by
  rw [← Option.not_isSome_iff_eq_none]
  intro hlive
  obtain ⟨l, hl, hname⟩ := hw.linksRep.live h.brk hlive
  exact absurd hname (Nat.ne_of_lt (hw.linksRep.bound l hl))

/-! ### A node -/

/-- The entries that the loop over a table takes out are no longer among the entries. -/
theorem removeAddrs_keeps {M : List Ptr} {n : Ptr} {is : List Slot} {A : List (AddrInfo ws)} (hr : AddrsRep h M A)
    {r : List Ptr × Store ws} (hrun : removeAddrs n is h = some r) :
    ∃ N D A', r.2 = { h with nodes := N, hash := D } ∧ AddrsRep { h with nodes := N, hash := D } M A' ∧
      (∀ q, (N q).isSome = h.liveNode q) ∧ A' ⊆ A ∧ ∀ e ∈ A', e.name ∉ r.1 := by
  induction is generalizing h A r with
  | nil =>
    cases hrun
    exact ⟨h.nodes, h.hash, A, rfl, hr, fun _ => rfl, List.Subset.refl _, fun _ _ => List.not_mem_nil⟩
  | cons i is ih =>
    obtain ⟨nd, -, hrun⟩ := Option.bind_eq_some_iff.1 hrun
    split at hrun
    · exact ih hr hrun
    · obtain ⟨b, -, hrun⟩ := Option.bind_eq_some_iff.1 hrun
      obtain ⟨r₁, hrmv, hrun⟩ := Option.bind_eq_some_iff.1 hrun
      obtain ⟨r₂, hrest, hrun⟩ := Option.bind_eq_some_iff.1 hrun
      cases hrun
      rcases tc_rmv_node_addr_cases hr hrmv with ⟨-, rfl⟩ | ⟨e, nd', hres, hnd', rfl⟩
      · exact ih hr hrest
      · have he := (resolve_mem hres).1
        obtain ⟨N, D, A', hstore, hA', hN, hsub, hgone⟩ := ih (hr.withoutEntry he hnd') hrest
        refine ⟨N, D, A', hstore, hA', fun q => (hN q).trans (liveNode_update hnd' q), ?_, ?_⟩
        · exact fun e' he' => (mem_dropEntry.1 (hsub he')).1
        · intro e' he' hmem
          rcases List.mem_cons.1 hmem with hname | hmem
          · exact (mem_dropEntry.1 (hsub he')).2 hname
          · exact hgone e' he' hmem

theorem freeAddrs_keeps {ps : List Ptr} (hrun : ps.foldlM Store.freeAddr h = some h') :
    ∃ B, h' = { h with node_addrs := B } ∧ ∀ p, p ∉ ps → B p = h.node_addrs p := by
  induction ps generalizing h with
  | nil =>
    obtain rfl : h = h' := Option.some_inj.1 hrun
    exact ⟨h.node_addrs, rfl, fun _ _ => rfl⟩
  | cons p ps ih =>
    rw [List.foldlM_cons] at hrun
    obtain ⟨s, hs, hrun⟩ := Option.bind_eq_some_iff.1 hrun
    obtain ⟨b, -, rfl⟩ := Option.map_eq_some_iff.1 hs
    obtain ⟨B, rfl, hB⟩ := ih hrun
    refine ⟨B, rfl, fun q hq => ?_⟩
    rw [List.mem_cons, not_or] at hq
    exact (hB q hq.2).trans (Function.update_of_ne hq.1 _ _)

theorem WeakRep.tc_remove_node (hw : WeakRep h g) {a : ip_v4_addr ws} {n : Ptr} (ha : tc_get_node h a = some (some n))
    (hrun : MpOlsr.tc_remove_node h a = some h') : ∃ g', WeakRep h' g' := by
  let ll := if a = h.g_local_addr_tab 0 then [] else removeLocalLink a h.g_local_links
  let h0 : Store ws := { h with g_local_links := ll }
  have hw0 : WeakRep h0 g := hw.withLocal ll h.g_local_addr_tab h.g_local_mask_tab
  rw [MpOlsr.tc_remove_node, ha, Option.bind_eq_bind, Option.bind_some] at hrun
  obtain ⟨D, hcell, hrun⟩ := Option.bind_eq_some_iff.1 hrun
  obtain ⟨r, hremove, hrun⟩ := Option.bind_eq_some_iff.1 hrun
  obtain ⟨h3, hdetach, hrun⟩ := Option.bind_eq_some_iff.1 hrun
  obtain ⟨s, hfree, hrun⟩ := Option.bind_eq_some_iff.1 hrun
  obtain ⟨s', hlinks, hnode⟩ := Option.bind_eq_some_iff.1 hrun
  -- the node leaves the node list
  have hn : n ∈ g.nodes := (hw.nodesRep.live n).1 (Links.removeCell_live hcell)
  have hcell' : h0.node_lst.removeCell h0.liveNode (fun _ => true) () n = some (h.node_lst.unlink () n) :=
    hw0.nodesRep.list.removeCell (fun y hy => (hw0.nodesRep.live y).2 hy) rfl hn
  obtain rfl := Option.some_inj.1 (hcell'.symm.trans hcell)
  let h1 : Store ws := { h0 with node_lst := h.node_lst.unlink () n }
  have hA1 : AddrsRep h1 (List.range h.brk) g.addrs :=
    hw0.addrsRep.congr rfl (fun _ _ => rfl) (fun _ _ => rfl) (fun _ _ => rfl) (fun _ _ => rfl) le_rfl
  -- the entries that its addresses find leave the hash table
  obtain ⟨N, H, A', hstore, hA2, hN, -, hgone⟩ := removeAddrs_keeps hA1 hremove
  let h2 : Store ws := { h1 with nodes := N, hash := H }
  have hL2 : LinksRep h2 g.links g.links g.links :=
    hw0.linksRep.congr (List.Subset.refl _) (List.Subset.refl _) rfl (fun _ _ => rfl) (fun _ _ => rfl) rfl
      (fun _ _ => rfl) (fun _ _ => rfl) (fun _ => rfl) le_rfl
  have hlive2 : ∀ q ∈ g.nodes, h2.liveNode q = true := fun q hq => (hN q).trans ((hw.nodesRep.live q).2 hq)
  -- the links leave the lists of the other nodes
  obtain ⟨SS, DD, hdetach', hSS, hDD⟩ := detachLinks_eq hL2
    (fun l hl => ⟨hlive2 _ (hw.ends l hl).1, hlive2 _ (hw.ends l hl).2⟩) (hlive2 n hn)
  have hstore : r.2 = h2 := hstore
  rw [hstore, hdetach'] at hdetach
  obtain rfl := Option.some_inj.1 hdetach
  -- the blocks are freed
  obtain ⟨B, rfl, hB⟩ := freeAddrs_keeps hfree
  let h4 : Store ws := { h2 with src := SS, dst := DD, node_addrs := B }
  have hlinks' : freeLinks h4 n = some { h4 with
      link_blocks := freedBlocks n (notInto n g.links) (notFrom n g.links) h.link_blocks } :=
    hL2.freeDetached hSS hDD rfl rfl rfl rfl (hlive2 n hn)
  obtain rfl := Option.some_inj.1 (hlinks'.symm.trans hlinks)
  obtain ⟨nd, -, rfl⟩ := Option.map_eq_some_iff.1 hnode
  refine ⟨⟨g.nodes.filter (· ≠ n), A', MpOlsr.dropNode n g.links⟩,
    .of_parts ⟨hw.nodesRep.unlink hn, ?_, fun _ hp => hp, ?_⟩ (M := List.range h.brk) ?_ ?_ ?_
      (hL2.freed hSS hDD rfl rfl rfl rfl) ?_⟩
  · intro p
    show (Function.update N n none p).isSome = true ↔ _
    by_cases hp : p = n
    · subst hp
      simp
    · rw [Function.update_of_ne hp, hN, List.mem_filter, decide_eq_true_eq]
      exact ⟨fun hlive => ⟨(hw.nodesRep.live p).1 hlive, hp⟩, fun hmem => (hw.nodesRep.live p).2 hmem.1⟩
  · exact fun p hp => hw.nodesRep.bound p (List.mem_filter.1 hp).1
  · refine ⟨hA2.chains, fun e he => (hB _ (hgone e he)).trans (hA2.blocks e he), ?_, hA2.names, hA2.slots, hA2.nodes,
      hA2.bound⟩
    intro m hm nd hnd
    have hnd : Function.update N n none m = some nd := hnd
    have hmn : m ≠ n := by
      rintro rfl
      rw [Function.update_self] at hnd
      cases hnd
    rw [Function.update_of_ne hmn] at hnd
    exact hA2.tab m hm nd hnd
  · exact fun m hm => hw.bound m (List.mem_filter.1 hm).1
  · exact fun m hm => List.mem_range.1 hm
  · intro l hl
    obtain ⟨hl, hends⟩ := List.mem_filter.1 hl
    have hends := of_decide_eq_true hends
    exact ⟨List.mem_filter.2 ⟨(hw.ends l hl).1, decide_eq_true hends.1⟩,
      List.mem_filter.2 ⟨(hw.ends l hl).2, decide_eq_true hends.2⟩⟩

/-! ### Links -/

theorem WeakRep.withLink (hw : WeakRep h g) {l : LinkInfo ws} (hl : l.name = h.brk) (hs : l.src ∈ g.nodes)
    (hd : l.dst ∈ g.nodes) : WeakRep (h.withLink l) (g.addLink l) := by
  have hbound : ∀ n ∈ List.range h.brk, n < h.brk + 1 := fun n hn => Nat.lt_succ_of_lt (List.mem_range.1 hn)
  refine .of_parts ?_ ?_ hw.bound hbound (hw.linksRep.withLink hl) ?_
  · exact hw.nodesRep.congr rfl (fun _ _ => rfl) (fun _ _ => rfl) (fun _ => rfl) (Nat.le_succ _)
  · exact hw.addrsRep.congr rfl (fun _ _ => rfl) (fun _ _ => rfl) (fun _ _ => rfl) (fun _ _ => rfl) (Nat.le_succ _)
  · intro l' hl'
    rcases List.mem_cons.1 hl' with rfl | hmem
    · exact ⟨hs, hd⟩
    · exact hw.ends l' hmem

theorem WeakRep.withoutLink (hw : WeakRep h g) {l : LinkInfo ws} (hl : l ∈ g.links) :
    WeakRep (h.withoutLink l) (g.dropLink l) where
  nodesRep := hw.nodesRep.congr rfl (fun _ _ => rfl) (fun _ _ => rfl) (fun _ => rfl) le_rfl
  addrsRep := hw.addrsRep.congr rfl (fun _ _ => rfl) (fun _ _ => rfl) (fun _ _ => rfl) (fun _ _ => rfl) le_rfl
  linksRep := hw.linksRep.withoutLink hl
  ends := fun l' hl' => hw.ends l' (mem_dropLink.1 hl').1

/-- A link between addresses that are not both registered is refused. -/
theorem WeakRep.add_link_refused (hw : WeakRep h g) {s d : ip_v4_addr ws} (c : ℤ)
    (hsd : resolve g.addrs s = none ∨ resolve g.addrs d = none) :
    ∃ h', tc_add_link h s d c = some h' ∧ Unchanged h h' := by
  have hA : AddrsRep h.allocLink (List.range h.brk) g.addrs :=
    hw.addrsRep.congr rfl (fun _ _ => rfl) (fun _ _ => rfl) (fun _ _ => rfl) (fun _ _ => rfl) (Nat.le_succ _)
  have hgs := tc_get_node_spec hA s
  have hgd := tc_get_node_spec hA d
  let h' : Store ws := { h.allocLink with link_blocks := h.link_blocks }
  have hfree : h.allocLink.freeLink h.brk = some h' := by
    have hb : h.allocLink.link_blocks h.brk = some ⟨none, none, 0⟩ := Function.update_self _ _ _
    have hupd : Function.update h.allocLink.link_blocks h.brk none = h.link_blocks := by
      rw [Store.allocLink, Function.update_idem, Function.update_eq_self_iff]
      exact hw.fresh_link.symm
    rw [Store.freeLink, hb, Option.map_some, hupd]
  have hrun : tc_add_link h s d c = some h' := by
    cases hres : resolve g.addrs s with
    | none =>
      rw [tc_add_link, hgs, hres]
      exact hfree
    | some e =>
      have hres' := hsd.resolve_left (by rw [hres]; exact Option.some_ne_none e)
      rw [tc_add_link, hgs, hres, Option.map_some, Option.bind_eq_bind, Option.bind_some, hgd, hres']
      exact hfree
  exact ⟨h', hrun, ⟨Nat.le_succ _, rfl, rfl, fun _ _ => rfl, .refl, .refl, .clear (lt_irrefl _), .clear (lt_irrefl _)⟩, rfl, rfl, rfl⟩

theorem addLocalLink_eq {s : ip_v4_addr ws} {n : Ptr} (hrun : addLocalLink h s n = some h') :
    ∃ ll, h' = h.withLinks ll := by
  rw [addLocalLink] at hrun
  split at hrun
  · obtain ⟨l, -, rfl⟩ := Option.map_eq_some_iff.1 hrun
    exact ⟨_, rfl⟩
  · obtain rfl := Option.some_inj.1 hrun
    exact ⟨_, rfl⟩

theorem WeakRep.tc_add_link (hw : WeakRep h g) {s d : ip_v4_addr ws} {c : ℤ}
    (hrun : MpOlsr.tc_add_link h s d c = some h') : ∃ g', WeakRep h' g' := by
  by_cases hsd : resolve g.addrs s = none ∨ resolve g.addrs d = none
  · obtain ⟨s', hrun', hs'⟩ := hw.add_link_refused c hsd
    obtain rfl := Option.some_inj.1 (hrun'.symm.trans hrun)
    exact ⟨g, hw.of_sameBlocks hs'.blocks⟩
  · rw [not_or] at hsd
    obtain ⟨es, hes⟩ := Option.ne_none_iff_exists'.1 hsd.1
    obtain ⟨ed, hed⟩ := Option.ne_none_iff_exists'.1 hsd.2
    have hA : AddrsRep h.allocLink (List.range h.brk) g.addrs :=
      hw.addrsRep.congr rfl (fun _ _ => rfl) (fun _ _ => rfl) (fun _ _ => rfl) (fun _ _ => rfl) (Nat.le_succ _)
    have hgs := tc_get_node_spec hA s
    have hgd := tc_get_node_spec hA d
    rw [hes, Option.map_some] at hgs
    rw [hed, Option.map_some] at hgd
    unfold MpOlsr.tc_add_link at hrun
    rw [bind_of_some hgs] at hrun
    dsimp only at hrun
    rw [bind_of_some hgd] at hrun
    obtain ⟨h1, hll, hrun⟩ := Option.bind_eq_some_iff.1 hrun
    obtain ⟨ll, rfl⟩ := addLocalLink_eq hll
    -- the ends are in memory where the link enters their lists
    have hlive : h.liveNode es.node = true ∧ h.liveNode ed.node = true := by
      obtain ⟨h2, hupd, hrun⟩ := Option.bind_eq_some_iff.1 hrun
      obtain ⟨h3, hsrc, hrun⟩ := Option.bind_eq_some_iff.1 hrun
      obtain ⟨h4, hupd', hdst⟩ := Option.bind_eq_some_iff.1 hrun
      obtain ⟨b, -, rfl⟩ := Option.map_eq_some_iff.1 hupd
      obtain ⟨b', hb', hsrc⟩ := Option.bind_eq_some_iff.1 hsrc
      obtain ⟨n, hn, hsrc⟩ := Option.bind_eq_some_iff.1 hsrc
      obtain ⟨D, hD, rfl⟩ := Option.map_eq_some_iff.1 hsrc
      obtain ⟨b₂, -, rfl⟩ := Option.map_eq_some_iff.1 hupd'
      obtain ⟨b₃, hb₃, hdst⟩ := Option.bind_eq_some_iff.1 hdst
      obtain ⟨n', hn', hdst⟩ := Option.bind_eq_some_iff.1 hdst
      obtain ⟨D', hD', -⟩ := Option.map_eq_some_iff.1 hdst
      have hb' := (Function.update_self _ _ _).symm.trans hb'
      have hb₃ := (Function.update_self _ _ _).symm.trans hb₃
      obtain rfl := Option.some_inj.1 hb'
      obtain rfl := Option.some_inj.1 hb₃
      obtain rfl := Option.some_inj.1 hn
      obtain rfl := Option.some_inj.1 hn'
      exact ⟨Links.insertCell_live hD, Links.insertCell_live hD'⟩
    have hrun' := enterLink_eq hw.linksRep hlive.1 hlive.2 c ll
    obtain rfl := Option.some_inj.1 (hrun'.symm.trans hrun)
    exact ⟨_, (hw.withLocal ll h.g_local_addr_tab h.g_local_mask_tab).withLink rfl ((hw.nodesRep.live _).1 hlive.1)
      ((hw.nodesRep.live _).1 hlive.2)⟩

theorem WeakRep.tc_remove_link (hw : WeakRep h g) {s d : ip_v4_addr ws}
    (hrun : MpOlsr.tc_remove_link h s d = some h') : ∃ g', WeakRep h' g' := by
  rw [MpOlsr.tc_remove_link, hw.get_node] at hrun
  cases hs : resolve g.addrs s with
  | none =>
    rw [hs] at hrun
    obtain rfl := Option.some_inj.1 hrun
    exact ⟨g, hw⟩
  | some e =>
    rw [hs, Option.map_some, Option.bind_eq_bind, Option.bind_some] at hrun
    obtain ⟨first, hfirst, hrun⟩ := Option.bind_eq_some_iff.1 hrun
    obtain ⟨found, hsearch, hrun⟩ := Option.bind_eq_some_iff.1 hrun
    have hfirst : first = h.src.head e.node := by
      rw [Links.getHead] at hfirst
      split at hfirst
      · exact (Option.some_inj.1 hfirst).symm
      · cases hfirst
    subst hfirst
    cases found with
    | none =>
      obtain rfl := Option.some_inj.1 hrun
      exact ⟨g, hw⟩
    | some link =>
      obtain ⟨l, hl, -, rfl⟩ := mem_group.1 (hw.linksRep.src.search_mem hsearch).1
      have hblock := hw.linksRep.blocks l hl
      have hdst := removeDst_eq hw.linksRep.dst hw.linksRep.blocks hl ((hw.nodesRep.live _).2 (hw.ends l hl).2)
      have hsrc := removeSrc_eq (h := { h with dst := h.dst.unlink l.dst l.name }) hw.linksRep.src hw.linksRep.blocks hl
        ((hw.nodesRep.live _).2 (hw.ends l hl).1)
      obtain ⟨h1, hdst', hrun⟩ := Option.bind_eq_some_iff.1 hrun
      obtain rfl := Option.some_inj.1 (hdst.symm.trans hdst')
      obtain ⟨h2, hsrc', hrun⟩ := Option.bind_eq_some_iff.1 hrun
      obtain rfl := Option.some_inj.1 (hsrc.symm.trans hsrc')
      obtain ⟨b, -, rfl⟩ := Option.map_eq_some_iff.1 hrun
      let links := if s = h.g_local_addr_tab 0 then removeLocalLink d h.g_local_links else h.g_local_links
      exact ⟨_, (hw.withLocal links h.g_local_addr_tab h.g_local_mask_tab).withoutLink hl⟩

/-! ### Aliases -/

theorem WeakRep.withEntry (hw : WeakRep h g) {e : AddrInfo ws} (hnew : ∀ e' ∈ g.addrs, e'.name ≠ e.name)
    (hprev : h.hash.prev e.name = none) (hb : e.name < h.brk) {nd : OlsrNode} (hnd : h.nodes e.node = some nd)
    (hfree : entryAt g.addrs e.node e.pos = none) : WeakRep (h.withEntry e nd) (g.addEntry e) where
  nodesRep := hw.nodesRep.congr rfl (fun _ _ => rfl) (fun _ _ => rfl) (fun p => liveNode_update hnd p) le_rfl
  addrsRep := by
    refine hw.addrsRep.withEntry hnew hprev hb (hw.bound _ ((hw.nodesRep.live _).1 ?_)) hnd hfree
    rw [Store.liveNode, hnd]
    rfl
  linksRep := hw.linksRep.congr (List.Subset.refl _) (List.Subset.refl _) rfl (fun _ _ => rfl) (fun _ _ => rfl) rfl
    (fun _ _ => rfl) (fun _ _ => rfl) (fun _ => rfl) le_rfl
  ends := hw.ends

theorem WeakRep.withoutEntry (hw : WeakRep h g) {e : AddrInfo ws} (he : e ∈ g.addrs) {nd : OlsrNode}
    (hnd : h.nodes e.node = some nd) : WeakRep (h.withoutEntry e nd) (g.dropEntry e) where
  nodesRep := hw.nodesRep.congr rfl (fun _ _ => rfl) (fun _ _ => rfl) (fun p => liveNode_update hnd p) le_rfl
  addrsRep := hw.addrsRep.withoutEntry he hnd
  linksRep := hw.linksRep.congr (List.Subset.refl _) (List.Subset.refl _) rfl (fun _ _ => rfl) (fun _ _ => rfl) rfl
    (fun _ _ => rfl) (fun _ _ => rfl) (fun _ => rfl) le_rfl
  ends := hw.ends

/-- The block of an entry that was taken out is freed. -/
theorem WeakRep.freeAddr (hw : WeakRep h g) {p : Ptr} (hp : ∀ e ∈ g.addrs, e.name ≠ p)
    (hrun : h.freeAddr p = some h') : WeakRep h' g := by
  obtain ⟨b, -, rfl⟩ := Option.map_eq_some_iff.1 hrun
  refine ⟨?_, ?_, ?_, hw.ends⟩
  · exact hw.nodesRep.congr rfl (fun _ _ => rfl) (fun _ _ => rfl) (fun _ => rfl) le_rfl
  · exact hw.addrsRep.congr rfl (fun _ _ => rfl) (fun _ _ => rfl) (fun e he => Function.update_of_ne (hp e he) _ _)
      (fun _ _ => rfl) le_rfl
  · exact hw.linksRep.congr (List.Subset.refl _) (List.Subset.refl _) rfl (fun _ _ => rfl) (fun _ _ => rfl) rfl
      (fun _ _ => rfl) (fun _ _ => rfl) (fun _ => rfl) le_rfl

/-- A new address block is on no list. -/
theorem SameBlocks.allocAddr : SameBlocks h h.allocAddr := by
  refine ⟨Nat.le_succ _, rfl, rfl, fun p hp => ?_, .refl, .clear (lt_irrefl _), .refl, .refl⟩
  exact Function.update_of_ne (Nat.ne_of_lt hp) _ _

/-- The local links stay if the first link to the address is the one computed again. -/
theorem updateLocalLinks_eq_self {n : Ptr} {a : ip_v4_addr ws} {links : List (LocalLinkEntry ws)} :
    updateLocalLinks h n a links = some links ↔
      ∀ link, links.find? (fun link => link.dst_addr_ip = a) = some link → tc_update_local_link h n = some link := by
  induction links with
  | nil => simp [updateLocalLinks]
  | cons link links ih =>
    rw [updateLocalLinks]
    by_cases ha : link.dst_addr_ip = a
    · rw [if_pos ha, List.find?_cons_of_pos (by simpa using ha)]
      simp [Option.map_eq_some_iff]
    · rw [if_neg ha, List.find?_cons_of_neg (by simpa using ha), ← ih]
      simp [Option.map_eq_some_iff]

/-- An alias of an address that is not registered is refused. -/
theorem WeakRep.add_alias_unknown (hw : WeakRep h g) {a : ip_v4_addr ws} (b : ip_v4_addr ws)
    (ha : resolve g.addrs a = none) : ∃ h', MpOlsr.tc_add_alias h a b = some h' ∧ Unchanged h h' := by
  have hget := (hw.of_sameBlocks .allocAddr).get_node a
  rw [ha] at hget
  let h' : Store ws := { h.allocAddr with node_addrs := Function.update h.allocAddr.node_addrs h.brk none }
  have hfree : h.allocAddr.freeAddr h.brk = some h' := by
    have hb : h.allocAddr.node_addrs h.brk = some ⟨0, 0, none⟩ := Function.update_self _ _ _
    rw [Store.freeAddr, hb, Option.map_some]
  refine ⟨h', ?_, ⟨Nat.le_succ _, rfl, rfl, fun p hp => ?_, .refl, .clear (lt_irrefl _), .refl, .refl⟩, rfl, rfl, rfl⟩
  · unfold MpOlsr.tc_add_alias
    exact (bind_of_some hget _).trans hfree
  · exact (Function.update_of_ne (Nat.ne_of_lt hp) _ _).trans (Function.update_of_ne (Nat.ne_of_lt hp) _ _)

/-- An alias that does not fit: its block is lost, and the local link to the address is computed again. -/
theorem WeakRep.add_alias_full (hw : WeakRep h g) {a : ip_v4_addr ws} (b : ip_v4_addr ws) {e : AddrInfo ws}
    (ha : resolve g.addrs a = some e) {nd : OlsrNode} (hnd : h.nodes e.node = some nd) (hfull : firstFree nd = none) :
    ∃ s, SameBlocks h s ∧ SameLocals h s ∧
      MpOlsr.tc_add_alias h a b = (updateLocalLinks s e.node a h.g_local_links).map s.withLinks := by
  have hget := (hw.of_sameBlocks .allocAddr).get_node a
  rw [ha] at hget
  have hpos : newPos h.allocAddr e.node false = some none := by
    have hnd : h.allocAddr.nodes e.node = some nd := hnd
    rw [newPos, if_neg Bool.false_ne_true, hnd, Option.map_some, hfull]
  have hadd := tc_add_node_addr_full (a := b) (Function.update_self _ _ _ : h.allocAddr.node_addrs h.brk = _) hpos
  let s : Store ws :=
    { h.allocAddr with node_addrs := Function.update h.allocAddr.node_addrs h.brk (some ⟨b, 0, some e.node⟩) }
  have hs : SameBlocks h s := by
    refine ⟨Nat.le_succ _, rfl, rfl, fun p hp => ?_, .refl, .clear (lt_irrefl _), .refl, .refl⟩
    exact (Function.update_of_ne (Nat.ne_of_lt hp) _ _).trans (Function.update_of_ne (Nat.ne_of_lt hp) _ _)
  refine ⟨s, hs, ⟨rfl, rfl, rfl⟩, ?_⟩
  unfold MpOlsr.tc_add_alias
  refine (bind_of_some hget _).trans ((bind_of_some hadd _).trans ?_)
  rw [Option.map_eq_bind]
  rfl

theorem WeakRep.tc_add_alias (hw : WeakRep h g) {a b : ip_v4_addr ws} (hrun : MpOlsr.tc_add_alias h a b = some h') :
    ∃ g', WeakRep h' g' := by
  cases ha : resolve g.addrs a with
  | none =>
    obtain ⟨s, hrun', hs⟩ := hw.add_alias_unknown b ha
    obtain rfl := Option.some_inj.1 (hrun'.symm.trans hrun)
    exact ⟨g, hw.of_sameBlocks hs.blocks⟩
  | some e =>
    have hw' : WeakRep h.allocAddr g := hw.of_sameBlocks .allocAddr
    have hget := hw'.get_node a
    rw [ha] at hget
    have hrun' := hrun
    unfold MpOlsr.tc_add_alias at hrun'
    rw [bind_of_some hget] at hrun'
    obtain ⟨r, hadd, hrun'⟩ := Option.bind_eq_some_iff.1 hrun'
    obtain ⟨links, -, hrun'⟩ := Option.bind_eq_some_iff.1 hrun'
    have hlive : ∃ nd, h.nodes e.node = some nd := by
      obtain ⟨s, hs, hpos⟩ := Option.bind_eq_some_iff.1 hadd
      obtain ⟨pos, hpos, -⟩ := Option.bind_eq_some_iff.1 hpos
      obtain ⟨c, -, rfl⟩ := Option.map_eq_some_iff.1 hs
      rw [newPos, if_neg Bool.false_ne_true] at hpos
      obtain ⟨nd, hnd, -⟩ := Option.map_eq_some_iff.1 hpos
      exact ⟨nd, hnd⟩
    obtain ⟨nd, hnd⟩ := hlive
    cases hfree : firstFree nd with
    | none =>
      obtain ⟨s, hs, -, heq⟩ := hw.add_alias_full b ha hnd hfree
      rw [heq] at hrun
      obtain ⟨ls, -, rfl⟩ := Option.map_eq_some_iff.1 hrun
      exact ⟨g, (hw.of_sameBlocks hs).withLocal ls s.g_local_addr_tab s.g_local_mask_tab⟩
    | some i =>
      let e' : AddrInfo ws := ⟨h.brk, b, e.node, i⟩
      have hnd' : h.allocAddr.nodes e'.node = some nd := hnd
      have hn : e.node ∈ List.range h.allocAddr.brk := hw'.bound _ ((hw'.nodesRep.live _).1 (by
        rw [Store.liveNode, hnd']
        rfl))
      have hpos : newPos h.allocAddr e'.node false = some (some e'.pos) := by
        rw [newPos, if_neg Bool.false_ne_true, hnd', Option.map_some, hfree]
      have hslot : freeSlot g.addrs e'.node = some i := by
        have hslot := hw'.addrsRep.newPos_eq hn hnd'
        exact Option.some_inj.1 (hslot.symm.trans hpos)
      have hnew : ∀ x ∈ g.addrs, x.name ≠ e'.name := fun x hx => Nat.ne_of_lt (hw.addrsRep.bound x hx)
      have hb : h.allocAddr.node_addrs e'.name = some ⟨0, 0, none⟩ := Function.update_self _ _ _
      have hadd' := tc_add_node_addr_eq hw'.addrsRep hb hnew hnd' hpos
      obtain rfl := Option.some_inj.1 (hadd'.symm.trans hadd)
      obtain rfl := Option.some_inj.1 hrun'
      have hw'' := hw'.withEntry hnew (Function.update_self _ _ _) (Nat.lt_succ_self _) hnd' (freeSlot_spec hslot).1
      exact ⟨_, hw''.withLocal links h.g_local_addr_tab h.g_local_mask_tab⟩

/-- The removal of an alias that is not registered: the local link to the address is computed again. -/
theorem WeakRep.remove_alias_unknown (hw : WeakRep h g) {a b : ip_v4_addr ws} {e : AddrInfo ws}
    (ha : resolve g.addrs a = some e) (hb : resolve g.addrs b = none) :
    MpOlsr.tc_remove_alias h a b = (updateLocalLinks h e.node a h.g_local_links).map h.withLinks := by
  have hget := hw.get_node a
  rw [ha] at hget
  unfold MpOlsr.tc_remove_alias
  refine (bind_of_some hget _).trans ((bind_of_some (tc_rmv_node_addr_none hw.addrsRep hb) _).trans ?_)
  rw [Option.map_eq_bind]
  rfl

theorem WeakRep.tc_remove_alias (hw : WeakRep h g) {a b : ip_v4_addr ws}
    (hrun : MpOlsr.tc_remove_alias h a b = some h') : ∃ g', WeakRep h' g' := by
  have hget := hw.get_node a
  unfold MpOlsr.tc_remove_alias at hrun
  rw [bind_of_some hget] at hrun
  cases ha : resolve g.addrs a with
  | none =>
    rw [ha] at hrun
    obtain rfl := Option.some_inj.1 hrun
    exact ⟨g, hw⟩
  | some e =>
    rw [ha] at hrun
    obtain ⟨r, hrmv, hrun⟩ := Option.bind_eq_some_iff.1 hrun
    obtain ⟨links, -, hrun⟩ := Option.bind_eq_some_iff.1 hrun
    rcases tc_rmv_node_addr_cases hw.addrsRep hrmv with ⟨-, rfl⟩ | ⟨e', nd, hres, hnd, rfl⟩
    · obtain rfl := Option.some_inj.1 hrun
      exact ⟨g, hw.withLocal links h.g_local_addr_tab h.g_local_mask_tab⟩
    · have hw' := (hw.withoutEntry (resolve_mem hres).1 hnd).withLocal links h.g_local_addr_tab h.g_local_mask_tab
      obtain ⟨s, hfree, hrun⟩ := Option.bind_eq_some_iff.1 hrun
      obtain rfl := Option.some_inj.1 hrun
      exact ⟨_, hw'.freeAddr (fun x hx => (mem_dropEntry.1 hx).2) hfree⟩

/-- A new node with its main address. -/
theorem WeakRep.enterNode (hw : WeakRep h g) (a : ip_v4_addr ws) :
    ∃ s D, tc_add_node_addr h.allocNode.allocAddr (h.brk + 1) h.brk a true = some (true, s) ∧
      s.node_lst.insertCell s.liveNode (fun _ => true) () h.brk = some D ∧
      WeakRep { s with node_lst := D } (g.addNode h.brk (h.brk + 1) a) := by
  have hM : h.brk ∉ List.range h.brk := fun hmem => (List.mem_range.1 hmem).false
  obtain ⟨s, D, hadd, hinsert, hbrk, hN, hA, hL⟩ :=
    enterNode_eq hw.nodesRep hw.addrsRep hw.linksRep hM hw.ends a
  refine ⟨s, D, hadd, hinsert, .of_parts hN hA ?_ ?_ hL ?_⟩
  · exact fun n hn => List.mem_cons.2 ((List.mem_cons.1 hn).imp id fun hn => hw.bound n hn)
  · intro n hn
    show n < s.brk
    rw [hbrk]
    rcases List.mem_cons.1 hn with rfl | hn
    · exact Nat.lt_add_of_pos_right Nat.zero_lt_two
    · exact Nat.lt_add_right _ (List.mem_range.1 hn)
  · exact fun l hl => ⟨List.mem_cons_of_mem _ (hw.ends l hl).1, List.mem_cons_of_mem _ (hw.ends l hl).2⟩

theorem WeakRep.init : WeakRep (tc_init_data : Store ws) ⟨[], [], []⟩ := Rep.init.weak

end MpOlsr
