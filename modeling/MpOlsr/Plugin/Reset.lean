import MpOlsr.Plugin.Marking

/-!
# The reset of the marks

`tc_reset_active_flag` visits every node and every link, and takes their marks away (`tc_reset_active_flag_spec`).
-/

namespace MpOlsr

open DoublyLinked Records

variable {ws : WordSize} {ifnet : List OlsrIpAddr} {p : Plugin ws} {T U V : Table}

/-- A part of the reset: nodes with `P` and links with `Q` lose their marks, and nothing gets one. -/
structure Clears (P : TcNode → Prop) (Q : TcLink → Prop) (T U : Table) : Prop where
  unmarked : U.unmarked = T.unmarked
  nodes : ∀ n ∈ U.nodes, n.block.is_active = true → n ∈ T.nodes ∧ ¬ P n
  links : ∀ l ∈ U.links, l.block.is_active = true → l ∈ T.links ∧ ¬ Q l

namespace Clears

variable {P P' : TcNode → Prop} {Q Q' : TcLink → Prop}

theorem refl : Clears (fun _ => False) (fun _ => False) T T :=
  ⟨rfl, fun _ hn _ => ⟨hn, id⟩, fun _ hl _ => ⟨hl, id⟩⟩

theorem trans (h : Clears P Q T U) (h' : Clears P' Q' U V) :
    Clears (fun n => P n ∨ P' n) (fun l => Q l ∨ Q' l) T V := by
  refine ⟨h'.unmarked.trans h.unmarked, fun n hn hact => ?_, fun l hl hact => ?_⟩
  · obtain ⟨hn', hP'⟩ := h'.nodes n hn hact
    obtain ⟨hn, hP⟩ := h.nodes n hn' hact
    exact ⟨hn, not_or.2 ⟨hP, hP'⟩⟩
  · obtain ⟨hl', hQ'⟩ := h'.links l hl hact
    obtain ⟨hl, hQ⟩ := h.links l hl' hact
    exact ⟨hl, not_or.2 ⟨hQ, hQ'⟩⟩

theorem mono (h : Clears P Q T U) (hP : ∀ n ∈ T.nodes, P' n → P n) (hQ : ∀ l ∈ T.links, Q' l → Q l) :
    Clears P' Q' T U := by
  refine ⟨h.unmarked, fun n hn hact => ?_, fun l hl hact => ?_⟩
  · obtain ⟨hn, hnot⟩ := h.nodes n hn hact
    exact ⟨hn, fun hn' => hnot (hP n hn hn')⟩
  · obtain ⟨hl, hnot⟩ := h.links l hl hact
    exact ⟨hl, fun hl' => hnot (hQ l hl hl')⟩

theorem setNode {x : Ptr} : Clears (fun n => n.name = x) (fun _ => False) T
    (T.setNode x fun e => { e with is_active := false }) := by
  refine ⟨Table.unmarked_setNode, fun n hn hact => ?_, fun _ hl _ => ⟨hl, id⟩⟩
  obtain ⟨n', hn', rfl⟩ := mem_modify.1 hn
  by_cases h : n'.name = x
  · rw [if_pos h] at hact
    cases hact
  · rw [if_neg h]
    exact ⟨hn', h⟩

theorem setLink {x : Ptr} : Clears (fun _ => False) (fun l => l.name = x) T
    (T.setLink x fun d => { d with is_active := false }) := by
  refine ⟨Table.unmarked_setLink, fun _ hn _ => ⟨hn, id⟩, fun l hl hact => ?_⟩
  obtain ⟨l', hl', rfl⟩ := mem_modify.1 hl
  by_cases h : l'.name = x
  · rw [if_pos h] at hact
    cases hact
  · rw [if_neg h]
    exact ⟨hl', h⟩

/-- If nothing is left out, no mark is left. -/
theorem eq_unmarked (h : Clears (fun _ => True) (fun _ => True) T U) : U = T.unmarked := by
  rw [← h.unmarked]
  have hnodes : U.nodes.map Table.unmarkNode = U.nodes := by
    refine (List.map_congr_left fun n hn => ?_).trans (List.map_id _)
    cases hact : n.block.is_active with
    | true => exact ((h.nodes n hn hact).2 trivial).elim
    | false =>
      rw [Table.unmarkNode, ← hact]
      rfl
  have hlinks : U.links.map Table.unmarkLink = U.links := by
    refine (List.map_congr_left fun l hl => ?_).trans (List.map_id _)
    cases hact : l.block.is_active with
    | true => exact ((h.links l hl hact).2 trivial).elim
    | false =>
      rw [Table.unmarkLink, ← hact]
      rfl
  rw [Table.unmarked, hnodes, hlinks]

end Clears

namespace Stored

theorem of_unmarked (ht : Stored ifnet p T) (h : U.unmarked = T.unmarked) : Stored ifnet (p.withTable U) U :=
  ht.reframe (Table.frame_of_unmarked h)

/-- The marks in a chain of a node are reset. -/
theorem resetChain_spec (ht : Stored ifnet p T) {n : TcNode} (hn : n ∈ T.nodes) (i : HashKey) : ∃ U,
    p.resetChain n.name i = some (p.withTable U) ∧ Clears (fun _ => False) (fun l => l.key = (n.name, i)) T U := by
  let P : List Ptr → Plugin ws → Prop := fun rest s => ∃ U, s = p.withTable U ∧
    Clears (fun _ => False) (fun l => l.key = (n.name, i) ∧ l.name ∉ rest) T U
  have hstep : ∀ x rest s, x ∈ group TcLink.key TcLink.name T.links (n.name, i) → P (x :: rest) s →
      ∃ s', Plugin.resetDst s x = some (s', p.dst_tab.next x) ∧ P rest s' := by
    intro x rest s hx hP
    obtain ⟨U, rfl, hU⟩ := hP
    have hs := ht.of_unmarked hU.unmarked
    have hmem : x ∈ U.links.map TcLink.name := by
      have hframe := congrArg (List.map Prod.fst) (congrArg Prod.snd (Table.frame_of_unmarked hU.unmarked))
      rw [Table.frame, Table.frame, List.map_map, List.map_map] at hframe
      obtain ⟨l, hl, -, rfl⟩ := mem_group.1 hx
      exact hframe.symm ▸ List.mem_map_of_mem hl
    obtain ⟨l, hl, rfl⟩ := List.mem_map.1 hmem
    refine ⟨p.withTable (U.setLink l.name fun d => { d with is_active := false }), ?_, _, rfl,
      (hU.trans .setLink).mono (fun _ _ => False.elim) fun l' _ hl' => ?_⟩
    · have hs' := hs.of_unmarked (Table.unmarked_setLink (b := false) (x := l.name))
      refine Option.bind_eq_some_iff.2 ⟨_, hs.setDst hl _, Option.bind_eq_some_iff.2 ⟨_, if_pos ?_, rfl⟩⟩
      have hmem' : l.name ∈ (U.setLink l.name fun d => { d with is_active := false }).links.map TcLink.name := by
        rw [Table.map_setLink TcLink.name fun _ => rfl]
        exact List.mem_map_of_mem hl
      obtain ⟨l', hl', hname⟩ := List.mem_map.1 hmem'
      exact hname ▸ hs'.liveDst hl'
    · by_cases h : l'.name = l.name
      · exact Or.inr h
      · exact Or.inl ⟨hl'.1, fun hmem => (List.mem_cons.1 hmem).elim h hl'.2⟩
  have hstart : P (group TcLink.key TcLink.name T.links (n.name, i)) p := by
    refine ⟨T, ht.withTable_self.symm, Clears.refl.mono (fun _ _ => id) fun l hl h => ?_⟩
    exact h.2 (mem_group.2 ⟨l, hl, h.1, rfl⟩)
  have hids : group TcLink.key TcLink.name T.links (n.name, i) =
      (group TcLink.key TcLink.name T.links (n.name, i)).map id := (List.map_id _).symm
  obtain ⟨s, hwalk, U, rfl, hU⟩ := ht.dst_tab.walk_map hids P hstep (ht.dst_length (n.name, i)) hstart
  refine ⟨U, ?_, hU.mono (fun _ _ => id) fun l _ hl => ⟨hl, List.not_mem_nil⟩⟩
  exact Option.bind_eq_some_iff.2 ⟨_, if_pos (ht.liveEntry hn), hwalk⟩

theorem names_of_unmarked (h : U.unmarked = T.unmarked) :
    U.nodes.map (fun n => (n.name, n.addr)) = T.nodes.map fun n => (n.name, n.addr) := by
  have hframe := congrArg (List.map fun s => (s.1, s.2.1)) (congrArg Prod.fst (Table.frame_of_unmarked h))
  rw [Table.frame, Table.frame, List.map_map, List.map_map] at hframe
  exact hframe

theorem node_of_unmarked (h : U.unmarked = T.unmarked) {n : TcNode} (hn : n ∈ T.nodes) :
    ∃ m ∈ U.nodes, m.name = n.name ∧ m.addr = n.addr := by
  have hmem : (n.name, n.addr) ∈ T.nodes.map fun n => (n.name, n.addr) :=
    List.mem_map_of_mem (f := fun n : TcNode => (n.name, n.addr)) hn
  rw [← names_of_unmarked h] at hmem
  obtain ⟨m, hm, heq⟩ := List.mem_map.1 hmem
  exact ⟨m, hm, Prod.mk.inj heq⟩

end Stored

namespace Threaded

/-- The marks of a node and its links are reset. -/
theorem resetEntry_spec (ht : Threaded ifnet p T) {n : TcNode} (hn : n ∈ T.nodes) : ∃ U,
    Plugin.resetEntry p n.name = some (p.withTable U, p.tab.next n.name) ∧
      Clears (fun m => m.name = n.name) (fun l => l.src = n.name) T U := by
  let T₀ : Table := T.setNode n.name fun e => { e with is_active := false }
  have hT₀ : Clears (fun m => m.name = n.name) (fun _ => False) T T₀ := .setNode
  let P : List HashKey → Plugin ws → Prop := fun done s => ∃ U, s = p.withTable U ∧
    Clears (fun m => m.name = n.name) (fun l => l.src = n.name ∧ olsr_ip_hashing l.block.dst_addr ∈ done) T U
  have hstep : ∀ done i rest s, List.finRange 128 = done ++ i :: rest → P done s →
      ∃ s', Plugin.resetChain s n.name i = some s' ∧ P (done ++ [i]) s' := by
    intro done i rest s _ hP
    obtain ⟨U, rfl, hU⟩ := hP
    have hs := ht.toStored.of_unmarked hU.unmarked
    obtain ⟨m, hm, hname, -⟩ := Stored.node_of_unmarked hU.unmarked hn
    obtain ⟨V, hrun, hV⟩ := hs.resetChain_spec hm i
    rw [hname] at hrun hV
    refine ⟨_, hrun, V, rfl, (hU.trans hV).mono (fun _ _ => Or.inl) fun l _ hl => ?_⟩
    rcases List.mem_append.1 hl.2 with h | h
    · exact Or.inl ⟨hl.1, h⟩
    · exact Or.inr (Prod.ext hl.1 (List.mem_singleton.1 h))
  have hstart : P [] (p.withTable T₀) :=
    ⟨T₀, rfl, hT₀.mono (fun _ _ => id) fun _ _ h => (List.not_mem_nil h.2).elim⟩
  obtain ⟨s, hrun, U, rfl, hU⟩ := Fault.foldlM_invariant P hstart hstep
  have hs := ht.toStored.of_unmarked hU.unmarked
  obtain ⟨m, hm, hname, -⟩ := Stored.node_of_unmarked hU.unmarked hn
  refine ⟨U, ?_, hU.mono (fun _ _ => id) fun l _ hl => ⟨hl, List.mem_finRange _⟩⟩
  refine Option.bind_eq_some_iff.2 ⟨_, ht.setEntry hn _, Option.bind_eq_some_iff.2 ⟨_, hrun, ?_⟩⟩
  exact Option.bind_eq_some_iff.2 ⟨_, if_pos (hname ▸ hs.liveEntry hm), rfl⟩

/-- The marks of the nodes in a chain and of their links are reset. -/
theorem resetBucket_spec (ht : Threaded ifnet p T) (k : HashKey) : ∃ U,
    walk Plugin.resetEntry p.brk p (p.tab.head k) = some (p.withTable U) ∧
      Clears (fun n => n.key = k) (fun l => olsr_ip_hashing l.src_addr = k) T U := by
  let P : List Ptr → Plugin ws → Prop := fun rest s => ∃ U, s = p.withTable U ∧
    Clears (fun n => n.key = k ∧ n.name ∉ rest) (fun l => olsr_ip_hashing l.src_addr = k ∧ l.src ∉ rest) T U
  have hstep : ∀ x rest s, x ∈ group TcNode.key TcNode.name T.nodes k → P (x :: rest) s →
      ∃ s', Plugin.resetEntry s x = some (s', p.tab.next x) ∧ P rest s' := by
    intro x rest s hx hP
    obtain ⟨U, rfl, hU⟩ := hP
    obtain ⟨n, hn, -, rfl⟩ := mem_group.1 hx
    obtain ⟨m, hm, hname, -⟩ := Stored.node_of_unmarked hU.unmarked hn
    obtain ⟨V, hrun, hV⟩ := (ht.reframe (Table.frame_of_unmarked hU.unmarked)).resetEntry_spec hm
    rw [hname] at hrun hV
    refine ⟨_, hrun, V, rfl, (hU.trans hV).mono (fun n' _ hn' => ?_) fun l _ hl => ?_⟩
    · by_cases h : n'.name = n.name
      · exact Or.inr h
      · exact Or.inl ⟨hn'.1, fun hmem => (List.mem_cons.1 hmem).elim h hn'.2⟩
    · by_cases h : l.src = n.name
      · exact Or.inr h
      · exact Or.inl ⟨hl.1, fun hmem => (List.mem_cons.1 hmem).elim h hl.2⟩
  have hstart : P (group TcNode.key TcNode.name T.nodes k) p := by
    refine ⟨T, ht.withTable_self.symm, Clears.refl.mono (fun n hn h => ?_) fun l hl h => ?_⟩
    · exact h.2 (mem_group.2 ⟨n, hn, h.1, rfl⟩)
    · obtain ⟨n, hn, hname, haddr⟩ := ht.source hl
      refine h.2 (mem_group.2 ⟨n, hn, ?_, hname⟩)
      rw [TcNode.key, haddr]
      exact h.1
  have hids : group TcNode.key TcNode.name T.nodes k = (group TcNode.key TcNode.name T.nodes k).map id :=
    (List.map_id _).symm
  obtain ⟨s, hwalk, U, rfl, hU⟩ := ht.tab.walk_map hids P hstep (ht.chain_length k) hstart
  exact ⟨U, hwalk, hU.mono (fun _ _ h => ⟨h, List.not_mem_nil⟩) fun _ _ h => ⟨h, List.not_mem_nil⟩⟩

/-- All marks are reset. -/
theorem tc_reset_active_flag_spec (ht : Threaded ifnet p T) : p.tc_reset_active_flag =
    some { p.withTable T.unmarked with g_cur_mid_tc := p.g_cur_mid_tc.map fun m => { m with is_active := false } } := by
  let P : List HashKey → Plugin ws → Prop := fun done s => ∃ U, s = p.withTable U ∧
    Clears (fun n => n.key ∈ done) (fun l => olsr_ip_hashing l.src_addr ∈ done) T U
  have hstep : ∀ done k rest s, List.finRange 128 = done ++ k :: rest → P done s →
      ∃ s', walk Plugin.resetEntry s.brk s (s.tab.head k) = some s' ∧ P (done ++ [k]) s' := by
    intro done k rest s _ hP
    obtain ⟨U, rfl, hU⟩ := hP
    obtain ⟨V, hrun, hV⟩ := (ht.reframe (Table.frame_of_unmarked hU.unmarked)).resetBucket_spec k
    refine ⟨_, hrun, V, rfl, (hU.trans hV).mono (fun n _ hn => ?_) fun l _ hl => ?_⟩
    · exact (List.mem_append.1 hn).imp_right List.mem_singleton.1
    · exact (List.mem_append.1 hl).imp_right List.mem_singleton.1
  have hstart : P [] p :=
    ⟨T, ht.withTable_self.symm, Clears.refl.mono (fun _ _ => List.not_mem_nil) fun _ _ => List.not_mem_nil⟩
  obtain ⟨s, hrun, U, rfl, hU⟩ := Fault.foldlM_invariant P hstart hstep
  have hall : U = T.unmarked :=
    (hU.mono (fun _ _ _ => List.mem_finRange _) fun _ _ _ => List.mem_finRange _).eq_unmarked
  rw [Plugin.tc_reset_active_flag]
  refine Option.bind_eq_some_iff.2 ⟨_, hrun, ?_⟩
  rw [hall]
  rfl

end Threaded

/-! ### A node that is not allocated -/

/-- The reset leaves the chains of nodes and what is allocated alone. -/
def KeepsNodes (p q : Plugin ws) : Prop := q.tab = p.tab ∧ ∀ x, q.liveEntry x = p.liveEntry x

theorem KeepsNodes.trans {q r : Plugin ws} (h : KeepsNodes p q) (h' : KeepsNodes q r) : KeepsNodes p r :=
  ⟨h'.1.trans h.1, fun x => (h'.2 x).trans (h.2 x)⟩

theorem resetDst_keeps {q : Plugin ws} {x : Ptr} {next : Option Ptr} (h : p.resetDst x = some (q, next)) :
    KeepsNodes p q := by
  obtain ⟨r, hset, hrun⟩ := Option.bind_eq_some_iff.1 h
  obtain ⟨_, -, hret⟩ := Option.bind_eq_some_iff.1 hrun
  obtain ⟨d, -, rfl⟩ := Option.map_eq_some_iff.1 hset
  cases hret
  exact ⟨rfl, fun _ => rfl⟩

theorem resetChain_keeps {q : Plugin ws} {x : Ptr} {i : HashKey} (h : p.resetChain x i = some q) : KeepsNodes p q := by
  obtain ⟨first, -, hrun⟩ := Option.bind_eq_some_iff.1 h
  exact walk_keeps (P := fun q => KeepsNodes p q) (fun q _ _ hq hstep => hq.trans (resetDst_keeps hstep))
    ⟨rfl, fun _ => rfl⟩ hrun

theorem resetEntry_keeps {q : Plugin ws} {x : Ptr} {next : Option Ptr} (h : p.resetEntry x = some (q, next)) :
    KeepsNodes p q ∧ next = p.tab.next x ∧ p.liveEntry x = true := by
  obtain ⟨r, hset, hrun⟩ := Option.bind_eq_some_iff.1 h
  obtain ⟨r', hloop, hrun⟩ := Option.bind_eq_some_iff.1 hrun
  obtain ⟨next', hnext, hret⟩ := Option.bind_eq_some_iff.1 hrun
  cases hret
  obtain ⟨e, he, rfl⟩ := Option.map_eq_some_iff.1 hset
  have hlive : p.liveEntry x = true := by rw [Plugin.liveEntry, he]; rfl
  have hr : KeepsNodes p { p with entries := Function.update p.entries x (some { e with is_active := false }) } := by
    refine ⟨rfl, fun y => ?_⟩
    by_cases hy : y = x
    · rw [hy, hlive]
      show (Function.update p.entries x _ x).isSome = true
      rw [Function.update_self]
      rfl
    · show (Function.update p.entries x _ y).isSome = _
      rw [Function.update_of_ne hy]
      rfl
  have hq : KeepsNodes p q :=
    Fault.foldlM_keeps (P := fun q => KeepsNodes p q) (fun _ _ _ hs hstep => hs.trans (resetChain_keeps hstep)) hr hloop
  have hlive' : q.liveEntry x = true := (hq.2 x).trans hlive
  rw [Links.getNext, if_pos hlive', Option.some.injEq, hq.1] at hnext
  exact ⟨hq, hnext.symm, hlive⟩

/-- The reset is a fault if a node on a chain is not allocated. -/
theorem tc_reset_active_flag_none {k : HashKey} {x : Ptr} (hx : p.tab.Reach k x) (hfree : p.liveEntry x = false) :
    p.tc_reset_active_flag = none := by
  rw [Option.eq_none_iff_forall_ne_some]
  intro q hrun
  obtain ⟨r, hloop, -⟩ := Option.bind_eq_some_iff.1 hrun
  obtain ⟨a, b, hab⟩ := List.append_of_mem (List.mem_finRange k)
  rw [hab, List.foldlM_append] at hloop
  obtain ⟨s, hfirst, hloop⟩ := Option.bind_eq_some_iff.1 hloop
  rw [List.foldlM_cons] at hloop
  obtain ⟨s', hwalk, -⟩ := Option.bind_eq_some_iff.1 hloop
  have hs : KeepsNodes p s := by
    refine Fault.foldlM_keeps (P := fun s => KeepsNodes p s) (fun s _ _ hs hstep => ?_) ⟨rfl, fun _ => rfl⟩ hfirst
    exact walk_keeps (P := fun s => KeepsNodes p s) (fun s _ _ hs h => hs.trans (resetEntry_keeps h).1) hs hstep
  have hvisit : ∀ s y r, KeepsNodes p s → Plugin.resetEntry s y = some r →
      KeepsNodes p r.1 ∧ r.2 = p.tab.next y ∧ p.liveEntry y = true := by
    intro s y r hs h
    obtain ⟨hr, hnext, hy⟩ := resetEntry_keeps h
    exact ⟨hs.trans hr, by rw [hnext, hs.1], (hs.2 y).symm.trans hy⟩
  obtain ⟨l, hl, hfollow, hlive⟩ := walk_visits hvisit hs hwalk
  have hmem : x ∈ l := by
    clear hfree
    induction hx with
    | head hx =>
      rw [← hs.1, hl] at hx
      exact List.mem_of_head? hx
    | next _ hy ih =>
      obtain ⟨a, b, rfl⟩ := List.append_of_mem ih
      rw [hfollow a _ b rfl] at hy
      exact List.mem_append_right _ (List.mem_cons_of_mem _ (List.mem_of_head? hy))
  rw [hlive x hmem] at hfree
  cases hfree

end MpOlsr
