import MpOlsr.Plugin.Marking

/-!
# The sweep of the tables

`tc_remove_useless_link` takes the links and the nodes that are not marked off the tables.  The links are taken off
their chains as they should be (`sweepLinks_spec`).  A node is taken off its chain but for the `hash_next` of the node
before it, so the `hash_next` fields are those from before the sweep (`Stale`), and the chains are right only if the
nodes that go are at the front of their chains.
-/

namespace MpOlsr

open DoublyLinked Records MarkSweep

/-- A node with its mark: the block, the address and the mark. -/
def TcNode.mark (n : TcNode) : Ptr × OlsrIpAddr × Bool := (n.name, n.addr, n.block.is_active)

namespace Table

/-- The nodes with their marks. -/
def marks (T : Table) : List (Ptr × OlsrIpAddr × Bool) := T.nodes.map TcNode.mark

/-- The chain of a node with its mark. -/
def markKey (n : Ptr × OlsrIpAddr × Bool) : HashKey := olsr_ip_hashing n.2.1

/-- The chains of the nodes. -/
def chains (T : Table) : HashKey → List Ptr := group markKey Prod.fst T.marks

def keepLinks (T : Table) (keep : TcLink → Bool) : Table := { T with links := T.links.filter keep }

variable {T U : Table}

theorem marks_setNode {x : Ptr} {f : SerTcEntry → SerTcEntry}
    (hf : ∀ e, (f e).src_addr = e.src_addr ∧ (f e).is_active = e.is_active) : (T.setNode x f).marks = T.marks :=
  map_setNode TcNode.mark fun n => by simp [TcNode.mark, TcNode.addr, hf]

theorem chains_eq : T.chains = group TcNode.key TcNode.name T.nodes := group_map TcNode.mark

theorem nodeMarks_marks : T.nodeMarks = T.marks.map Prod.snd := by
  rw [marks, List.map_map]
  rfl

end Table

variable {ws : WordSize} {ifnet : List OlsrIpAddr} {p p' q : Plugin ws} {T U V : Table}

/-- The messages for what is removed. -/
inductive Removed (T U : Table) (mids mids' : List SerTcMid) : OlsrEventMessage ws → Prop
  | link {l : TcLink} (h : l ∈ T.links) (hU : l ∉ U.links) :
    Removed T U mids mids' (.DEV_CMD_REMOVE_LINK (Plugin.toLong l.src_addr) (Plugin.toLong l.block.dst_addr))
  | node {n : Ptr × OlsrIpAddr × Bool} (h : n ∈ T.marks) (hU : n ∉ U.marks) :
    Removed T U mids mids' (.DEV_CMD_REMOVE_NODE (Plugin.toLong n.2.1))
  | mid {m : SerTcMid} (h : m ∈ mids) (hm : m ∉ mids') :
    Removed T U mids mids' (.DEV_CMD_REMOVE_ALIAS (Plugin.toLong m.main_addr) (Plugin.toLong m.alias_addr))

/-- A part of the sweep: it removes something, and sends the messages for it.  If everything is marked, it does
nothing. -/
structure Sweeps (ifnet : List OlsrIpAddr) (p p' : Plugin ws) (T U : Table) : Prop where
  stored : Stored ifnet p' U
  links : U.links ⊆ T.links
  marks : U.marks ⊆ T.marks
  mids : p'.g_cur_mid_tc ⊆ p.g_cur_mid_tc
  queue : ∃ msgs, p'.msgQueue_ = p.msgQueue_ ++ msgs ∧
    ∀ msg, msg ∈ msgs ↔ Removed T U p.g_cur_mid_tc p'.g_cur_mid_tc msg
  quiet : (∀ l ∈ T.links, l.block.is_active = true) → (∀ n ∈ T.marks, n.2.2 = true) → p' = p

/-- A part of the sweep that removes links only. -/
structure SweepsLinks (ifnet : List OlsrIpAddr) (p p' : Plugin ws) (T U : Table) : Prop
    extends Sweeps ifnet p p' T U where
  nodes : U.marks = T.marks
  same : p'.g_cur_mid_tc = p.g_cur_mid_tc
  tab : p'.tab = p.tab

theorem Removed.trans_iff {mids mids' mids'' : List SerTcMid} (hl : V.links ⊆ U.links) (hl' : U.links ⊆ T.links)
    (hn : V.marks ⊆ U.marks) (hn' : U.marks ⊆ T.marks) (hm : mids'' ⊆ mids') (hm' : mids' ⊆ mids)
    {msg : OlsrEventMessage ws} : Removed T V mids mids'' msg ↔ Removed T U mids mids' msg ∨ Removed U V mids' mids'' msg := by
  constructor
  · intro h
    cases h with
    | @link l h hV =>
      by_cases hU : l ∈ U.links
      · exact Or.inr (.link hU hV)
      · exact Or.inl (.link h hU)
    | @node n h hV =>
      by_cases hU : n ∈ U.marks
      · exact Or.inr (.node hU hV)
      · exact Or.inl (.node h hU)
    | @mid m h hV =>
      by_cases hU : m ∈ mids'
      · exact Or.inr (.mid hU hV)
      · exact Or.inl (.mid h hU)
  · rintro (h | h)
    · cases h with
      | link h hU => exact .link h fun hV => hU (hl hV)
      | node h hU => exact .node h fun hV => hU (hn hV)
      | mid h hU => exact .mid h fun hV => hU (hm hV)
    · cases h with
      | link h hV => exact .link (hl' h) hV
      | node h hV => exact .node (hn' h) hV
      | mid h hV => exact .mid (hm' h) hV

theorem Removed.irrefl {mids : List SerTcMid} {msg : OlsrEventMessage ws} (hl : U.links = T.links)
    (hn : U.marks = T.marks) : ¬ Removed T U mids mids msg := by
  intro h
  cases h with
  | link h hU => exact hU (hl ▸ h)
  | node h hU => exact hU (hn ▸ h)
  | mid h hU => exact hU h

theorem Sweeps.refl (ht : Stored ifnet p T) : Sweeps ifnet p p T T :=
  ⟨ht, List.Subset.refl _, List.Subset.refl _, List.Subset.refl _,
    ⟨[], (List.append_nil _).symm, fun _ => ⟨fun h => (List.not_mem_nil h).elim, fun h => (Removed.irrefl rfl rfl h).elim⟩⟩,
    fun _ _ => rfl⟩

theorem Sweeps.trans {r : Plugin ws} (h : Sweeps ifnet p q T U) (h' : Sweeps ifnet q r U V) : Sweeps ifnet p r T V := by
  refine ⟨h'.stored, List.Subset.trans h'.links h.links, List.Subset.trans h'.marks h.marks, List.Subset.trans h'.mids h.mids, ?_, fun hl hn => ?_⟩
  · obtain ⟨msgs, hq, hmsgs⟩ := h.queue
    obtain ⟨msgs', hr, hmsgs'⟩ := h'.queue
    refine ⟨msgs ++ msgs', by rw [hr, hq, List.append_assoc], fun msg => ?_⟩
    rw [List.mem_append, hmsgs, hmsgs', Removed.trans_iff h'.links h.links h'.marks h.marks h'.mids h.mids]
  · rw [h'.quiet (fun l hmem => hl l (h.links hmem)) fun n hmem => hn n (h.marks hmem), h.quiet hl hn]

theorem SweepsLinks.refl (ht : Stored ifnet p T) : SweepsLinks ifnet p p T T := ⟨.refl ht, rfl, rfl, rfl⟩

theorem SweepsLinks.trans {r : Plugin ws} (h : SweepsLinks ifnet p q T U) (h' : SweepsLinks ifnet q r U V) :
    SweepsLinks ifnet p r T V :=
  ⟨h.toSweeps.trans h'.toSweeps, h'.nodes.trans h.nodes, h'.same.trans h.same, h'.tab.trans h.tab⟩

namespace Stored

/-! ### Links -/

/-- A link is taken off its chain and freed. -/
theorem remove_link (ht : Stored ifnet p T) {l : TcLink} (hl : l ∈ T.links) :
    Stored ifnet
      { p with dst_tab := p.dst_tab.unlink l.key l.name, dsts := Function.update p.dsts l.name none }
      (T.keepLinks fun l' => l'.name ≠ l.name) := by
  have hsub : (T.keepLinks fun l' => l'.name ≠ l.name).links.Sublist T.links := List.filter_sublist
  have hinj : ∀ l' ∈ T.links, l'.name = l.name → l' = l := fun l' hl' h =>
    List.inj_on_of_nodup_map ht.linkNames hl' hl h
  refine ⟨?_, ht.entries, ?_, ht.names, ht.linkNames.sublist (hsub.map _), ht.bound,
    fun x hx => ht.linkBound x ((hsub.map _).subset hx), ht.addrs, ht.pairs.sublist (hsub.map _),
    fun e he => ht.sources e ((hsub.map _).subset he), ht.isLocal⟩
  · rw [Table.keepLinks, group_filter_ne hl hinj]
    exact ht.dst_tab.unlink (mem_group.2 ⟨l, hl, rfl, rfl⟩)
  · rw [Table.dsts, Table.keepLinks, blocks_erase, ← Table.dsts, ← ht.dsts]

theorem sweepDst_spec (ht : Stored ifnet p T) {l : TcLink} (hl : l ∈ T.links) {kept rest : List Ptr}
    (hchain : group TcLink.key TcLink.name T.links l.key = kept ++ l.name :: rest) : ∃ p' U,
    Plugin.sweepDst l.src (olsr_ip_hashing l.block.dst_addr) p l.name = some (p', rest.head?) ∧
      SweepsLinks ifnet p p' T U ∧
      U.links = if l.block.is_active then T.links else T.links.filter fun l' => l'.name ≠ l.name := by
  have hnext : p.dst_tab.next l.name = rest.head? := ht.dst_tab.next_of_split hchain
  cases hact : l.block.is_active with
  | true =>
    refine ⟨p, T, ?_, .refl ht, rfl⟩
    rw [Plugin.sweepDst, Fault.bind_of_some (ht.link hl), if_pos hact, Links.getNext, if_pos (ht.liveDst hl), hnext]
    rfl
  | false =>
    obtain ⟨n, hn, hname, haddr⟩ := ht.source hl
    have hmem : l.name ∈ group TcLink.key TcLink.name T.links l.key := mem_group.2 ⟨l, hl, rfl, rfl⟩
    have hlive : ∀ x ∈ group TcLink.key TcLink.name T.links l.key, p.liveDst x = true := by
      intro x hx
      obtain ⟨l', hl', -, rfl⟩ := mem_group.1 hx
      exact ht.liveDst hl'
    have hhead : p.liveChain l.key = true := by
      rw [Plugin.liveChain, TcLink.key, ← hname]
      exact ht.liveEntry hn
    have hdetach := ht.dst_tab.detachCell hlive hhead hmem
    let T₁ : Table := T.keepLinks fun l' => l'.name ≠ l.name
    have h₁ := (ht.remove_link hl).addMessage
      (.DEV_CMD_REMOVE_LINK (Plugin.toLong n.addr) (Plugin.toLong l.block.dst_addr))
    let f : SerTcEntry → SerTcEntry := fun e => { e with nb_dst := e.nb_dst - 1 }
    have h₂ : Stored ifnet _ (T₁.setNode n.name f) := h₁.reframe (Table.frame_setNode fun _ => ⟨rfl, rfl⟩)
    have hentries : (T₁.setNode n.name f).entries = Function.update p.entries n.name (some (f n.block)) :=
      ht.entries_setNode hn f
    have hdsts : (T₁.setNode n.name f).dsts = Function.update p.dsts l.name none := h₁.dsts.symm
    have hset := Plugin.setEntry_of
      (p := { p with dst_tab := p.dst_tab.unlink l.key l.name }.dev_rmv_link n.addr l.block.dst_addr) (ht.node hn) f
    have hnext' : (p.dst_tab.unlink l.key l.name).next l.name = rest.head? :=
      (if_neg (ht.dst_tab.prev_ne_self hmem)).trans hnext
    have hmarks : (T₁.setNode n.name f).marks = T.marks := Table.marks_setNode fun _ => ⟨rfl, rfl⟩
    refine ⟨_, T₁.setNode n.name f, ?_, ⟨⟨h₂, ?_, ?_, List.Subset.refl _, ?_, ?_⟩, hmarks, rfl, rfl⟩, rfl⟩
    · rw [Plugin.sweepDst, Fault.bind_of_some (ht.link hl), hact, if_neg Bool.false_ne_true]
      refine Option.bind_eq_some_iff.2 ⟨_, Option.bind_eq_some_iff.2 ⟨_, hdetach, rfl⟩, ?_⟩
      rw [← hname]
      refine Option.bind_eq_some_iff.2 ⟨_, ht.node hn, Option.bind_eq_some_iff.2 ⟨_, hset, ?_⟩⟩
      refine Option.bind_eq_some_iff.2 ⟨_, (if_pos (ht.liveDst hl)).trans (congrArg some hnext'), ?_⟩
      rw [Plugin.withTable, hentries, hdsts]
      rfl
    · exact List.filter_subset_self T.links
    · exact hmarks ▸ List.Subset.refl _
    · refine ⟨[_], rfl, fun msg => ?_⟩
      rw [List.mem_singleton]
      constructor
      · rintro rfl
        rw [haddr]
        refine .link hl fun hmem => ?_
        exact of_decide_eq_true (List.mem_filter.1 hmem).2 rfl
      · intro h
        cases h with
        | @link l' hl' hU =>
          have hsame : l'.name = l.name := by
            by_contra hne
            exact hU (List.mem_filter.2 ⟨hl', decide_eq_true hne⟩)
          rw [List.inj_on_of_nodup_map ht.linkNames hl' hl hsame, haddr]
        | node hm hU => exact absurd (hmarks ▸ hm) hU
        | mid hm hU => exact absurd hm hU
    · intro hall _
      exact absurd (hall l hl) (Bool.eq_false_iff.1 hact)

/-- The links of a chain that are not marked are removed. -/
theorem sweepChain_spec (ht : Stored ifnet p T) {n : TcNode} (hn : n ∈ T.nodes) (i : HashKey) : ∃ p' U,
    p.sweepChain n.name i = some p' ∧ SweepsLinks ifnet p p' T U ∧
      U.links = T.links.filter fun l => l.key ≠ (n.name, i) || l.block.is_active := by
  let Inv : List Ptr → List TcLink → Plugin ws → Prop := fun _ L s => ∃ U, U.links = L ∧ SweepsLinks ifnet p s T U
  have hstep : ∀ L l done kept rest s, L ⊆ T.links → l ∈ L → l.key = (n.name, i) →
      group TcLink.key TcLink.name T.links (n.name, i) = done ++ l.name :: rest →
      group TcLink.key TcLink.name L (n.name, i) = kept ++ l.name :: rest → Inv done L s →
      ∃ s', Plugin.sweepDst n.name i s l.name = some (s', rest.head?) ∧
        Inv (done ++ [l.name]) (if l.block.is_active then L else L.filter fun l' => l'.name ≠ l.name) s' := by
    intro L l done kept rest s _ hl hkey _ hkept hInv
    obtain ⟨U, rfl, hU⟩ := hInv
    rw [← hkey] at hkept
    obtain ⟨s', V, hs', hV, hlinks⟩ := hU.stored.sweepDst_spec hl hkept
    obtain ⟨hsrc, hhash⟩ := Prod.mk.inj hkey
    rw [hsrc, hhash] at hs'
    exact ⟨s', hs', V, hlinks, hU.trans hV⟩
  obtain ⟨p', hwalk, U, hlinks, hU⟩ := walk_sweep ht.linkNames hstep (ht.dst_length (n.name, i))
    ⟨T, rfl, .refl ht⟩
  refine ⟨p', U, ?_, hU, hlinks⟩
  refine Option.bind_eq_some_iff.2 ⟨_, if_pos (ht.liveEntry hn), ?_⟩
  rw [ht.dst_tab.head]
  exact hwalk

/-- The links of a node that are not marked are removed. -/
theorem sweepLinks_spec (ht : Stored ifnet p T) {n : TcNode} (hn : n ∈ T.nodes) : ∃ p' U,
    (List.finRange 128).foldlM (fun p i => p.sweepChain n.name i) p = some p' ∧ SweepsLinks ifnet p p' T U ∧
      U.links = T.links.filter fun l => l.src ≠ n.name || l.block.is_active := by
  let P : List HashKey → Plugin ws → Prop := fun done s => ∃ U, SweepsLinks ifnet p s T U ∧
    U.links = T.links.filter fun l => (l.src ≠ n.name || olsr_ip_hashing l.block.dst_addr ∉ done) || l.block.is_active
  have hstep : ∀ done i rest s, List.finRange 128 = done ++ i :: rest → P done s →
      ∃ s', Plugin.sweepChain s n.name i = some s' ∧ P (done ++ [i]) s' := by
    intro done i rest s _ hP
    obtain ⟨U, hU, hlinks⟩ := hP
    have hmem : n.mark ∈ U.marks := hU.nodes ▸ List.mem_map_of_mem hn
    obtain ⟨m, hm, heq⟩ := List.mem_map.1 hmem
    obtain ⟨s', V, hs', hV, hlinks'⟩ := hU.stored.sweepChain_spec hm i
    have hname : m.name = n.name := congrArg Prod.fst heq
    rw [hname] at hs' hlinks'
    refine ⟨s', hs', V, hU.trans hV, ?_⟩
    rw [hlinks', hlinks, List.filter_filter]
    refine List.filter_congr fun l _ => ?_
    cases l.block.is_active with
    | true => simp
    | false =>
      by_cases hsrc : l.src = n.name <;> by_cases hi : olsr_ip_hashing l.block.dst_addr = i <;>
        simp [hsrc, hi, TcLink.key]
  obtain ⟨p', hrun, U, hU, hlinks⟩ := Fault.foldlM_invariant P ⟨T, .refl ht, by simp⟩ hstep
  refine ⟨p', U, hrun, hU, hlinks.trans ?_⟩
  refine List.filter_congr fun l _ => ?_
  rw [decide_eq_false (not_not_intro (List.mem_finRange _)), Bool.or_false]

end Stored

/-! ### Nodes -/

/-- The nodes are on their chains, but the `hash_next` fields are others. -/
def Stale (next : Ptr → Option Ptr) (p : Plugin ws) (T : Table) : Prop :=
  ∃ D : Links Ptr HashKey, Holds D T.chains ∧ p.tab = { D with next := next }

namespace Stored

variable {next : Ptr → Option Ptr}

theorem liveChain_of_mem (ht : Stored ifnet p T) {k : HashKey} {x : Ptr} (hx : x ∈ T.chains k) :
    p.liveEntry x = true := by
  rw [Table.chains_eq] at hx
  obtain ⟨n, hn, -, rfl⟩ := mem_group.1 hx
  exact ht.liveEntry hn

/-- The nodes of the chain keep their `hash_next`. -/
theorem unlinkEntry_eq (ht : Stored ifnet p T) {D : Links Ptr HashKey} (hD : Holds D T.chains)
    (htab : p.tab = { D with next := next }) {k : HashKey} {x : Ptr} (hx : x ∈ T.chains k)
    (hnext : next x = D.next x) : p.unlinkEntry k x = some { p with tab := { D.unlink k x with next := next } } := by
  have hlive : ∀ y ∈ T.chains k, p.liveEntry y = true := fun y hy => ht.liveChain_of_mem hy
  have hlx := hlive x hx
  have hset : p.tab.setPrevOf p.liveEntry (next x) (D.prev x) =
      some ({ D with next := next, prev := (D.unlink k x).prev } : Links Ptr HashKey) := by
    rw [htab, hnext, Holds.setPrevOf_withNext, hD.setPrevOf_next hlive hx]
    rfl
  have hgetNext : p.tab.getNext p.liveEntry x = some (next x) := by rw [htab]; exact if_pos hlx
  have hgetPrev : p.tab.getPrev p.liveEntry x = some (D.prev x) := by rw [htab]; exact if_pos hlx
  have hprev : ({ D with next := next, prev := (D.unlink k x).prev } : Links Ptr HashKey).getPrev p.liveEntry x =
      some (D.prev x) := (if_pos hlx).trans (congrArg some (hD.unlink_prev_self hx))
  rw [Plugin.unlinkEntry, Fault.bind_of_some hgetNext, Fault.bind_of_some hgetPrev, Fault.bind_of_some hset,
    Fault.bind_of_some hprev]
  cases hp : D.prev x with
  | some y =>
    refine congrArg some ?_
    simp [Links.unlink, hp]
  | none =>
    refine Option.bind_eq_some_iff.2 ⟨_, if_pos hlx, congrArg some ?_⟩
    simp [Links.unlink, hp, hnext]

/-- A node without links is freed. -/
theorem remove_node (ht : Stored ifnet p T) {n : TcNode} (hfree : ∀ l ∈ T.links, l.src ≠ n.name)
    (tab : Links Ptr HashKey) :
    Stored ifnet { p with tab := tab, entries := Function.update p.entries n.name none }
      { T with nodes := T.nodes.filter fun n' => n'.name ≠ n.name } := by
  have hsub : (T.nodes.filter fun n' => n'.name ≠ n.name).Sublist T.nodes := List.filter_sublist
  refine ⟨ht.dst_tab, ?_, ht.dsts, ht.names.sublist (hsub.map _), ht.linkNames,
    fun x hx => ht.bound x ((hsub.map _).subset hx), ht.linkBound, ht.addrs.sublist (hsub.map _), ht.pairs, ?_,
    fun e he => ht.isLocal e ((hsub.map _).subset he)⟩
  · rw [Table.entries, blocks_erase, ← Table.entries, ← ht.entries]
  · intro e he
    obtain ⟨l, hl, rfl⟩ := List.mem_map.1 he
    obtain ⟨m, hm, hname, haddr⟩ := ht.source hl
    refine List.mem_map.2 ⟨m, List.mem_filter.2 ⟨hm, ?_⟩, by rw [hname, haddr]⟩
    exact decide_eq_true fun h => hfree l hl (hname.symm.trans h)

theorem unlinkMids (ht : Stored ifnet p T) (test : SerTcMid → Bool) : Stored ifnet (p.unlinkMids test) T :=
  ⟨ht.dst_tab, ht.entries, ht.dsts, ht.names, ht.linkNames, ht.bound, ht.linkBound, ht.addrs, ht.pairs, ht.sources,
    ht.isLocal⟩

/-- A node that is not marked is removed with its MID entries. -/
theorem remove_expired (ht : Stored ifnet p T) (hstale : Stale next p T) {n : TcNode} (hn : n ∈ T.nodes)
    (hact : n.block.is_active = false) (hfree : ∀ l ∈ T.links, l.src ≠ n.name) {kept rest : List Ptr}
    (hchain : T.chains n.key = kept ++ n.name :: rest) (hnext : next n.name = rest.head?) : ∃ q p' U,
    (p.unlinkMids fun m => m.main_addr = n.block.src_addr).unlinkEntry n.key n.name = some q ∧
      (q.dev_rmv_node n.block.src_addr).tab.getNext (q.dev_rmv_node n.block.src_addr).liveEntry n.name =
        some rest.head? ∧
      p' = { q.dev_rmv_node n.block.src_addr with entries := Function.update q.entries n.name none } ∧
      Sweeps ifnet p p' T U ∧ Stale next p' U ∧ U.links = T.links ∧ U.marks = T.marks.filter (fun m => m.1 ≠ n.name) ∧
      p'.g_cur_mid_tc = p.g_cur_mid_tc.filter fun m => m.main_addr ≠ n.addr := by
  obtain ⟨D, hD, htab⟩ := hstale
  have hx : n.name ∈ T.chains n.key := by rw [hchain]; simp
  have hlive : p.liveEntry n.name = true := ht.liveEntry hn
  have hq := (ht.unlinkMids fun m => m.main_addr = n.block.src_addr).unlinkEntry_eq hD htab hx
    (hnext.trans (hD.next_of_split hchain).symm)
  let U : Table := { T with nodes := T.nodes.filter fun n' => n'.name ≠ n.name }
  have hmarks : U.marks = T.marks.filter fun m => m.1 ≠ n.name := by
    rw [Table.marks, Table.marks, List.filter_map]
    rfl
  have hmids : (p.g_cur_mid_tc.filter fun m => !decide (m.main_addr = n.block.src_addr)) =
      p.g_cur_mid_tc.filter fun m => m.main_addr ≠ n.addr := by
    refine List.filter_congr fun m _ => ?_
    rw [← decide_not]
    rfl
  have hnames : (T.marks.map Prod.fst).Nodup := by
    rw [Table.marks, List.map_map]
    exact ht.names
  have hmem : n.mark ∈ T.marks := List.mem_map_of_mem hn
  have hmark : ∀ m ∈ T.marks, m.1 = n.name → m = n.mark := fun m hm h =>
    List.inj_on_of_nodup_map hnames hm hmem h
  refine ⟨_, _, U, hq, (if_pos hlive).trans (congrArg some hnext), rfl, ⟨?_, List.Subset.refl _, ?_, ?_, ?_, ?_⟩,
    ⟨_, ?_, rfl⟩, rfl, hmarks, hmids⟩
  · exact ((ht.unlinkMids _).addMessage _).remove_node hfree _
  · rw [hmarks]
    exact List.filter_subset_self _
  · exact List.filter_subset_self _
  · refine ⟨_, List.append_assoc _ _ _, fun msg => ?_⟩
    rw [List.mem_append, List.mem_singleton, List.mem_map]
    constructor
    · rintro (⟨m, hm, rfl⟩ | rfl)
      · obtain ⟨hm, htest⟩ := List.mem_filter.1 hm
        have hout : m ∉ p.g_cur_mid_tc.filter fun m => !decide (m.main_addr = n.block.src_addr) := by
          simp [of_decide_eq_true htest]
        exact .mid hm hout
      · refine .node hmem fun hU => ?_
        rw [hmarks] at hU
        exact of_decide_eq_true (List.mem_filter.1 hU).2 rfl
    · intro h
      cases h with
      | link hl hU => exact absurd hl hU
      | @node m hm hU =>
        have hname : m.1 = n.name := by
          by_contra hne
          exact hU (hmarks ▸ List.mem_filter.2 ⟨hm, decide_eq_true hne⟩)
        rw [hmark m hm hname]
        exact Or.inr rfl
      | @mid m hm hU =>
        refine Or.inl ⟨m, List.mem_filter.2 ⟨hm, ?_⟩, rfl⟩
        by_contra htest
        exact hU (List.mem_filter.2 ⟨hm, by simpa using htest⟩)
  · intro _ hall
    exact absurd (hall _ hmem) (Bool.eq_false_iff.1 hact)
  · have hgroup : group Table.markKey Prod.fst (T.marks.filter fun m => m.1 ≠ n.name) =
        Function.update T.chains n.key ((T.chains n.key).filter (· ≠ n.name)) := group_filter_ne hmem hmark
    rw [Table.chains, hmarks, hgroup]
    exact hD.unlink hx

theorem stale_of_marks (hstale : Stale next p T) (htab : q.tab = p.tab) (hmarks : U.marks = T.marks) :
    Stale next q U := by
  obtain ⟨D, hD, hp⟩ := hstale
  refine ⟨D, ?_, htab.trans hp⟩
  rw [Table.chains, hmarks]
  exact hD

/-- The sweep of one node. -/
theorem sweepEntry_spec (ht : Stored ifnet p T) (hstale : Stale next p T)
    (hends : ∀ l ∈ T.links, l.block.is_active = true → ∀ n ∈ T.marks, n.1 = l.src → n.2.2 = true)
    {n : Ptr × OlsrIpAddr × Bool} (hn : n ∈ T.marks) {kept rest : List Ptr}
    (hchain : T.chains (Table.markKey n) = kept ++ n.1 :: rest) (hnext : next n.1 = rest.head?) : ∃ p' U,
    Plugin.sweepEntry (Table.markKey n) p n.1 = some (p', rest.head?) ∧ Sweeps ifnet p p' T U ∧ Stale next p' U ∧
      (U.links = T.links.filter fun l => l.src ≠ n.1 || l.block.is_active) ∧
      (U.marks = if n.2.2 then T.marks else T.marks.filter fun m => m.1 ≠ n.1) ∧
      p'.g_cur_mid_tc = p.g_cur_mid_tc.filter fun m => n.2 ≠ (m.main_addr, false) := by
  obtain ⟨m₀, hm₀, rfl⟩ := List.mem_map.1 hn
  obtain ⟨q, V, hsweep, hV, hlinks⟩ := ht.sweepLinks_spec hm₀
  obtain ⟨m, hm, hmark⟩ := List.mem_map.1 (hV.nodes ▸ hn : m₀.mark ∈ V.marks)
  rw [← hmark] at hn hchain hnext ⊢
  have hname : m₀.name = m.name := (congrArg Prod.fst hmark).symm
  have hstale' : Stale next q V := stale_of_marks hstale hV.tab hV.nodes
  have hrun : ∀ r, (if m.block.is_active then do
        let next ← q.tab.getNext q.liveEntry m.name
        return (q, next)
      else do
        let p ← (q.unlinkMids fun m' => m'.main_addr = m.block.src_addr).unlinkEntry m.key m.name
        let p := p.dev_rmv_node m.block.src_addr
        let next ← p.tab.getNext p.liveEntry m.name
        return ({ p with entries := Function.update p.entries m.name none }, next)) = some r →
      Plugin.sweepEntry (Table.markKey m.mark) p m.mark.1 = some r := by
    intro r hr
    rw [hname] at hsweep
    rw [Plugin.sweepEntry]
    exact Option.bind_eq_some_iff.2 ⟨_, hsweep, Option.bind_eq_some_iff.2 ⟨_, hV.stored.node hm, hr⟩⟩
  rw [hname] at hlinks
  cases hact : m.block.is_active with
  | true =>
    obtain ⟨D, hD, htab⟩ := hstale'
    have hget : q.tab.getNext q.liveEntry m.name = some rest.head? := by
      rw [htab]
      exact (if_pos (hV.stored.liveEntry hm)).trans (congrArg some hnext)
    refine ⟨q, V, hrun _ ?_, hV.toSweeps, ⟨D, hD, htab⟩, hlinks, hV.nodes.trans (if_pos hact).symm, ?_⟩
    · rw [if_pos hact]
      exact Option.bind_eq_some_iff.2 ⟨_, hget, rfl⟩
    · rw [hV.same, eq_comm, List.filter_eq_self]
      intro _ _
      simp [TcNode.mark, hact]
  | false =>
    have hfree : ∀ l ∈ V.links, l.src ≠ m.name := by
      intro l hl hsrc
      rw [hlinks] at hl
      obtain ⟨hl, htest⟩ := List.mem_filter.1 hl
      have hlive : l.block.is_active = true := by simpa [hsrc] using htest
      have := hends l hl hlive m.mark hn hsrc.symm
      rw [TcNode.mark, hact] at this
      cases this
    have hchain' : V.chains m.key = kept ++ m.name :: rest := by
      rw [Table.chains, hV.nodes]
      exact hchain
    obtain ⟨r, p', U, hunlink, hget, hp', hU, hstaleU, hlinksU, hmarksU, hmidsU⟩ :=
      hV.stored.remove_expired hstale' hm hact hfree hchain' hnext
    refine ⟨p', U, hrun _ ?_, hV.toSweeps.trans hU, hstaleU, hlinksU.trans hlinks, ?_, ?_⟩
    · rw [if_neg (Bool.eq_false_iff.1 hact), hp']
      exact Option.bind_eq_some_iff.2 ⟨_, hunlink, Option.bind_eq_some_iff.2 ⟨_, hget, rfl⟩⟩
    · rw [hmarksU, hV.nodes, if_neg (show ¬ m.mark.2.2 = true from Bool.eq_false_iff.1 hact)]
      rfl
    · rw [hmidsU, hV.same]
      refine List.filter_congr fun m' _ => ?_
      simp [TcNode.mark, hact, eq_comm]

theorem nodup_marks (ht : Stored ifnet p T) : (T.marks.map Prod.fst).Nodup := by
  rw [Table.marks, List.map_map]
  exact ht.names

/-- The sweep of one chain of nodes. -/
theorem sweepBucket_spec (ht : Stored ifnet p T) (hstale : Stale next p T)
    (hends : ∀ l ∈ T.links, l.block.is_active = true → ∀ n ∈ T.marks, n.1 = l.src → n.2.2 = true) {k : HashKey}
    (hnext : ∀ done x rest, T.chains k = done ++ x :: rest → next x = rest.head?) : ∃ p' U,
    walk (Plugin.sweepEntry k) p.brk p (p.tab.head k) = some p' ∧ Sweeps ifnet p p' T U ∧ Stale next p' U ∧
      (U.marks = T.marks.filter fun n => Table.markKey n ≠ k || n.2.2) ∧
      (U.links = T.links.filter fun l => olsr_ip_hashing l.src_addr ≠ k || l.block.is_active) ∧
      p'.g_cur_mid_tc = p.g_cur_mid_tc.filter fun m =>
        olsr_ip_hashing m.main_addr ≠ k || (m.main_addr, false) ∉ T.nodeMarks := by
  let Inv : List Ptr → List (Ptr × OlsrIpAddr × Bool) → Plugin ws → Prop := fun done L s => ∃ U, U.marks = L ∧
    Sweeps ifnet p s T U ∧ Stale next s U ∧ (U.links = T.links.filter fun l => l.src ∉ done || l.block.is_active) ∧
    s.g_cur_mid_tc = p.g_cur_mid_tc.filter fun m => ∀ n ∈ T.marks, n.1 ∈ done → n.2 ≠ (m.main_addr, false)
  have hnames := ht.nodup_marks
  have hstep : ∀ L n done kept rest s, L ⊆ T.marks → n ∈ L → Table.markKey n = k →
      group Table.markKey Prod.fst T.marks k = done ++ n.1 :: rest →
      group Table.markKey Prod.fst L k = kept ++ n.1 :: rest → Inv done L s →
      ∃ s', Plugin.sweepEntry k s n.1 = some (s', rest.head?) ∧
        Inv (done ++ [n.1]) (if n.2.2 then L else L.filter fun n' => n'.1 ≠ n.1) s' := by
    intro L n done kept rest s hL hn hkey hchain hkept hInv
    obtain ⟨U, rfl, hU, hstaleU, hlinks, hmids⟩ := hInv
    have hends' : ∀ l ∈ U.links, l.block.is_active = true → ∀ n ∈ U.marks, n.1 = l.src → n.2.2 = true :=
      fun l hl hact m hm => hends l (hU.links hl) hact m (hU.marks hm)
    subst hkey
    obtain ⟨s', V, hrun, hV, hstaleV, hlinksV, hmarksV, hmidsV⟩ :=
      hU.stored.sweepEntry_spec hstaleU hends' hn hkept (hnext done n.1 rest hchain)
    refine ⟨s', hrun, V, hmarksV, hU.trans hV, hstaleV, ?_, ?_⟩
    · rw [hlinksV, hlinks, List.filter_filter]
      refine List.filter_congr fun l _ => ?_
      cases l.block.is_active with
      | true => simp
      | false => by_cases h : l.src = n.1 <;> simp [h]
    · rw [hmidsV, hmids, List.filter_filter]
      refine List.filter_congr fun m _ => ?_
      -- the entry stays if it does not belong to a node that was visited
      rw [Bool.eq_iff_iff, Bool.and_eq_true, decide_eq_true_iff, decide_eq_true_iff, decide_eq_true_iff]
      constructor
      · rintro ⟨hself, hdone⟩ n' hn' hmem
        rcases List.mem_append.1 hmem with h | h
        · exact hdone n' hn' h
        · rw [List.inj_on_of_nodup_map hnames hn' (hL hn) (List.mem_singleton.1 h)]
          exact hself
      · intro hall
        exact ⟨hall n (hL hn) (by simp), fun n' hn' h => hall n' hn' (List.mem_append_left _ h)⟩
  have hlength : (group Table.markKey Prod.fst T.marks k).length ≤ p.brk := by
    have := ht.chain_length k
    rwa [← Table.chains_eq] at this
  have hstart : Inv [] T.marks p := ⟨T, rfl, .refl ht, hstale, by simp, by simp⟩
  obtain ⟨p', hwalk, U, hmarks, hU, hstaleU, hlinks, hmids⟩ := walk_sweep hnames hstep hlength hstart
  have hmem : ∀ n ∈ T.marks, n.1 ∈ group Table.markKey Prod.fst T.marks k ↔ Table.markKey n = k := by
    intro n hn
    rw [mem_group]
    constructor
    · rintro ⟨n', hn', hkey, hname⟩
      rw [← List.inj_on_of_nodup_map hnames hn' hn hname, hkey]
    · intro hkey
      exact ⟨n, hn, hkey, rfl⟩
  refine ⟨p', U, ?_, hU, hstaleU, hmarks, ?_, ?_⟩
  · obtain ⟨D, hD, htab⟩ := hstale
    have hhead : p.tab.head k = (group Table.markKey Prod.fst T.marks k).head? := by
      rw [htab]
      exact hD.head k
    rw [hhead]
    exact hwalk
  · rw [hlinks]
    refine List.filter_congr fun l hl => ?_
    obtain ⟨n, hn, hname, haddr⟩ := ht.source hl
    have hiff : l.src ∈ group Table.markKey Prod.fst T.marks k ↔ olsr_ip_hashing l.src_addr = k := by
      rw [← hname, ← haddr]
      exact hmem n.mark (List.mem_map_of_mem hn)
    simp only [hiff]
  · rw [hmids]
    refine List.filter_congr fun m _ => ?_
    rw [Bool.eq_iff_iff, Bool.or_eq_true, decide_eq_true_iff, decide_eq_true_iff, decide_eq_true_iff,
      Table.nodeMarks_marks, List.mem_map]
    constructor
    · intro hall
      refine or_iff_not_imp_left.2 fun hk hexp => ?_
      obtain ⟨n, hn, heq⟩ := hexp
      refine hall n hn ((hmem n hn).2 ?_) heq
      rw [Table.markKey, heq]
      exact not_not.1 hk
    · intro hm n hn hin heq
      have hkey := (hmem n hn).1 hin
      rw [Table.markKey, heq] at hkey
      exact hm.elim (fun hne => hne hkey) fun hnot => hnot ⟨n, hn, heq⟩

end Stored

/-- The sweep of all nodes.  Their `hash_next` fields stay as they were. -/
theorem Threaded.tc_remove_useless_link_spec (ht : Threaded ifnet p T)
    (hends : ∀ l ∈ T.links, l.block.is_active = true → ∀ n ∈ T.marks, n.1 = l.src → n.2.2 = true) : ∃ p' U,
    p.tc_remove_useless_link = some p' ∧ Sweeps ifnet p p' T U ∧ Stale p.tab.next p' U ∧
      (U.marks = T.marks.filter fun n => n.2.2) ∧ (U.links = T.links.filter fun l => l.block.is_active) ∧
      p'.g_cur_mid_tc = p.g_cur_mid_tc.filter fun m => (m.main_addr, false) ∉ T.nodeMarks := by
  let P : List HashKey → Plugin ws → Prop := fun done s => ∃ U, Sweeps ifnet p s T U ∧ Stale p.tab.next s U ∧
    (U.marks = T.marks.filter fun n => Table.markKey n ∉ done || n.2.2) ∧
    (U.links = T.links.filter fun l => olsr_ip_hashing l.src_addr ∉ done || l.block.is_active) ∧
    s.g_cur_mid_tc = p.g_cur_mid_tc.filter fun m =>
      olsr_ip_hashing m.main_addr ∉ done || (m.main_addr, false) ∉ T.nodeMarks
  have htab : Holds p.tab T.chains := by
    rw [Table.chains_eq]
    exact ht.tab
  have hstep : ∀ done k rest s, List.finRange 128 = done ++ k :: rest → P done s →
      ∃ s', walk (Plugin.sweepEntry k) s.brk s (s.tab.head k) = some s' ∧ P (done ++ [k]) s' := by
    intro done k rest s hsplit hP
    obtain ⟨U, hU, hstaleU, hmarks, hlinks, hmids⟩ := hP
    have hk : k ∉ done := by
      have hnodup := List.nodup_finRange 128
      rw [hsplit] at hnodup
      exact fun h => (List.nodup_append.1 hnodup).2.2 k h k List.mem_cons_self rfl
    -- the chain is still as it was
    have hchain : U.chains k = T.chains k := by
      rw [Table.chains, Table.chains, group, group, hmarks, List.filter_filter]
      congr 1
      refine List.filter_congr fun n _ => ?_
      by_cases hkey : Table.markKey n = k <;> simp [hkey, hk]
    have hends' : ∀ l ∈ U.links, l.block.is_active = true → ∀ n ∈ U.marks, n.1 = l.src → n.2.2 = true :=
      fun l hl hact m hm => hends l (hU.links hl) hact m (hU.marks hm)
    obtain ⟨s', V, hrun, hV, hstaleV, hmarksV, hlinksV, hmidsV⟩ :=
      hU.stored.sweepBucket_spec hstaleU hends' (k := k) fun _ _ _ h => htab.next_of_split (hchain ▸ h)
    refine ⟨s', hrun, V, hU.trans hV, hstaleV, ?_, ?_, ?_⟩
    · rw [hmarksV, hmarks, List.filter_filter]
      refine List.filter_congr fun n _ => ?_
      cases n.2.2 with
      | true => simp
      | false => by_cases hkey : Table.markKey n = k <;> simp [hkey]
    · rw [hlinksV, hlinks, List.filter_filter]
      refine List.filter_congr fun l _ => ?_
      cases l.block.is_active with
      | true => simp
      | false => by_cases hkey : olsr_ip_hashing l.src_addr = k <;> simp [hkey]
    · rw [hmidsV, hmids, List.filter_filter]
      refine List.filter_congr fun m _ => ?_
      by_cases hkey : olsr_ip_hashing m.main_addr = k
      · -- a node of this chain is still there
        have hiff : (m.main_addr, false) ∈ U.nodeMarks ↔ (m.main_addr, false) ∈ T.nodeMarks := by
          rw [Table.nodeMarks_marks, Table.nodeMarks_marks, List.mem_map, List.mem_map]
          constructor
          · rintro ⟨n, hn, heq⟩
            exact ⟨n, hU.marks hn, heq⟩
          · rintro ⟨n, hn, heq⟩
            refine ⟨n, hmarks ▸ List.mem_filter.2 ⟨hn, ?_⟩, heq⟩
            have hkey' : Table.markKey n = k := by rw [Table.markKey, heq, hkey]
            rw [hkey', decide_eq_true hk, Bool.true_or]
        simp [hkey, hk, hiff]
      · simp [hkey]
  obtain ⟨p', hrun, U, hU, hstaleU, hmarks, hlinks, hmids⟩ := Fault.foldlM_invariant P
    ⟨T, .refl ht.toStored, ⟨p.tab, htab, rfl⟩, by simp, by simp, by simp⟩ hstep
  refine ⟨p', U, hrun, hU, hstaleU, ?_, ?_, ?_⟩
  · simpa using hmarks
  · simpa using hlinks
  · simpa using hmids

end MpOlsr
