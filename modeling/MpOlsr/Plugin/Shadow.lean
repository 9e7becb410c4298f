import MpOlsr.Lib.Simulation
import MpOlsr.Plugin.Rounds

/-!
# The shadow topology

The tables of the plugin should hold the accepted edges of the last snapshot and their ends (`Shadows`).  They do after
every round of a run if, in every chain of nodes, the nodes that go stand in front of the nodes that stay and of no new
node (`inOrder`, `shadows_iff`).  Otherwise a freed node stays on its chain, and the next round is a fault.
-/

namespace MpOlsr

open DoublyLinked Records MarkSweep

variable {ws : WordSize} {ifnet : List OlsrIpAddr} {p : Plugin ws} {T : Table} {S : Snapshot} {X : Copy}

/-! ### What the tables should hold -/

/-- An edge is accepted unless its source is a local address and its destination is not a symmetric neighbour. -/
def Snapshot.Accepted (ifnet : List OlsrIpAddr) (S : Snapshot) (e : OlsrIpAddr × OlsrIpAddr) : Prop :=
  e ∈ S.edges ∧ ¬ (e.1 ∈ ifnet ∧ ¬ ∃ neigh ∈ S.neighbortable, neigh.neighbor_main_addr = e.2 ∧ neigh.status = .SYM)

namespace Plugin

/-- The addresses on a chain of nodes. -/
def collect (p : Plugin ws) : ℕ → Option Ptr → List OlsrIpAddr
  | 0, _ => []
  | _, none => []
  | n + 1, some x =>
    match p.entries x with
    | none => []
    | some e => e.src_addr :: p.collect n (p.tab.next x)

def chainAddrs (p : Plugin ws) (k : HashKey) : List OlsrIpAddr := p.collect p.brk (p.tab.head k)

/-- In every chain of nodes, with the new nodes in front, the nodes that go stand before the others. -/
def inOrder (ifnet : List OlsrIpAddr) (p : Plugin ws) (S : Snapshot) : Bool :=
  let kept := endpoints (S.accepted ifnet)
  (List.finRange 128).all fun k =>
    let chain := p.chainAddrs k
    failFirst kept.contains ((kept.filter fun a => olsr_ip_hashing a == k && !chain.contains a) ++ chain)

end Plugin

theorem collect_eq (ht : Threaded ifnet p T) {k : HashKey} : ∀ {rest done : List TcNode} {n : ℕ},
    T.nodes.filter (fun m => m.key = k) = done ++ rest → rest.length ≤ n →
      p.collect n (rest.map TcNode.name).head? = rest.map TcNode.addr := by
  intro rest
  induction rest with
  | nil =>
    intro _ n _ _
    cases n <;> rfl
  | cons m rest ih =>
    intro done n hsplit hn
    have hm : m ∈ T.nodes := by
      have hmem : m ∈ T.nodes.filter fun m => m.key = k := by rw [hsplit]; simp
      exact (List.mem_filter.1 hmem).1
    have hgroup : group TcNode.key TcNode.name T.nodes k =
        done.map TcNode.name ++ m.name :: rest.map TcNode.name := by
      rw [group, hsplit]
      simp
    cases n with
    | zero => simp at hn
    | succ n =>
      have hsplit' : T.nodes.filter (fun m => m.key = k) = (done ++ [m]) ++ rest := by rw [hsplit]; simp
      have hrest := ih (n := n) hsplit' (by simpa using hn)
      rw [List.map_cons, List.head?_cons, Plugin.collect, ht.node hm]
      simp only [ht.tab.next_of_split hgroup, hrest]
      rfl

theorem chainAddrs_eq (ht : Threaded ifnet p T) (k : HashKey) :
    p.chainAddrs k = (T.nodes.filter fun m => m.key = k).map TcNode.addr := by
  have hlength := ht.chain_length k
  rw [group, List.length_map] at hlength
  rw [Plugin.chainAddrs, ht.tab.head k]
  exact collect_eq ht (show _ = [] ++ _ from rfl) hlength

/-- With its marks, a chain after the marking shows the order. -/
theorem failFirst_chain {q : Plugin ws} {V : Table} (h : Shows ifnet p T X) (hV : Marked ifnet S p q T V X)
    (k : HashKey) :
    let chain := p.chainAddrs k
    failFirst (fun n => n.2.2) (V.marks.filter fun n => Table.markKey n = k) =
      failFirst (endpoints (S.accepted ifnet)).contains (((endpoints (S.accepted ifnet)).filter fun a =>
        olsr_ip_hashing a == k && !chain.contains a) ++ chain) := by
  intro chain
  let kept := endpoints (S.accepted ifnet)
  have hnodes : (keys X.nodes).Nodup := by
    rw [← h.nodeMarks, Table.keys_nodeMarks]
    exact h.addrs
  have hchain : chain = (keys X.nodes).filter fun a => olsr_ip_hashing a = k := by
    rw [← h.nodeMarks, Table.keys_nodeMarks, List.filter_map]
    exact chainAddrs_eq h.toThreaded k
  -- the addresses of the chain after the marking
  have haddrs : (V.marks.filter fun n => Table.markKey n = k).map (fun n => n.2.1) =
      ((newcomers (reset X.nodes) kept).reverse.filter fun a => olsr_ip_hashing a = k) ++ chain := by
    have hkeys : V.marks.map (fun n => n.2.1) = (newcomers (reset X.nodes) kept).reverse ++ keys X.nodes := by
      have hV' : keys V.nodeMarks = V.marks.map fun n => n.2.1 := by
        rw [Table.nodeMarks_marks, keys, List.map_map]
        rfl
      rw [← hV', hV.nodeMarks, keys_foldl, keys_reset]
    have hfilter : (V.marks.filter fun n => Table.markKey n = k).map (fun n => n.2.1) =
        (V.marks.map fun n => n.2.1).filter fun a => olsr_ip_hashing a = k := by
      rw [List.filter_map]
      rfl
    rw [hfilter, hkeys, List.filter_append, hchain]
  have htest : ∀ n ∈ V.marks.filter (fun n => Table.markKey n = k), n.2.2 = kept.contains n.2.1 := by
    intro n hn
    have hmem : n.2 ∈ V.nodeMarks := by
      rw [Table.nodeMarks_marks]
      exact List.mem_map_of_mem (List.mem_filter.1 hn).1
    rw [hV.nodeMarks] at hmem
    rw [Bool.eq_iff_iff, List.contains_iff_mem]
    exact mark_iff hnodes hmem
  have hmap : failFirst kept.contains ((V.marks.filter fun n => Table.markKey n = k).map fun n => n.2.1) =
      failFirst (fun n => kept.contains n.2.1) (V.marks.filter fun n => Table.markKey n = k) := failFirst_map
  rw [failFirst_congr htest]
  refine hmap.symm.trans ?_
  rw [haddrs]
  have hnew : ∀ a, a ∈ (newcomers (reset X.nodes) kept).reverse.filter (fun a => olsr_ip_hashing a = k) ↔
      a ∈ kept.filter fun a => olsr_ip_hashing a == k && !chain.contains a := by
    intro a
    have hin : a ∈ chain ↔ a ∈ keys X.nodes ∧ olsr_ip_hashing a = k := by
      rw [hchain, List.mem_filter, decide_eq_true_iff]
    rw [List.mem_filter, List.mem_reverse, mem_newcomers, List.mem_filter, keys_reset, decide_eq_true_iff,
      Bool.and_eq_true, beq_iff_eq, Bool.not_eq_true', ← Bool.not_eq_true, List.contains_iff_mem, hin]
    tauto
  apply failFirst_replace
  · intro a ha
    exact List.contains_iff_mem.2 (List.mem_filter.1 ((hnew a).1 ha)).1
  · intro a ha
    exact List.contains_iff_mem.2 (List.mem_filter.1 ha).1
  · rw [List.eq_nil_iff_forall_not_mem, List.eq_nil_iff_forall_not_mem]
    exact forall_congr' fun a => not_congr (hnew a)

/-- If the chains are in order, the `hash_next` fields are right. -/
theorem Swept.threaded {q p' : Plugin ws} {V U : Table} (h : Shows ifnet p T X) (hV : Marked ifnet S p q T V X)
    (hU : Swept ifnet S p q p' V U X) (hord : p.inOrder ifnet S = true) : Threaded ifnet p' U := by
  refine ⟨hU.toStored, ?_⟩
  obtain ⟨D, hD, htab⟩ := hU.stale
  rw [← Table.chains_eq, htab]
  refine hD.congr (fun _ => rfl) (fun k x hx => ?_) fun _ _ _ => rfl
  have hord' := List.all_eq_true.1 hord k (List.mem_finRange k)
  rw [← failFirst_chain h hV k] at hord'
  obtain ⟨a, b, hab, ha, hb⟩ := failFirst_split hord'
  have hVk : V.chains k = a.map Prod.fst ++ b.map Prod.fst := by
    rw [Table.chains, group, hab, List.map_append]
  have hUk : U.chains k = b.map Prod.fst := by
    have hfilter : (U.marks.filter fun n => Table.markKey n = k) = b := by
      rw [hU.marks, List.filter_filter]
      have hcomm : (V.marks.filter fun n => decide (Table.markKey n = k) && n.2.2) =
          (V.marks.filter fun n => Table.markKey n = k).filter fun n => n.2.2 := by
        rw [List.filter_filter]
        exact List.filter_congr fun n _ => Bool.and_comm _ _
      rw [hcomm, hab, List.filter_append, List.filter_eq_nil_iff.2 fun n hn => by rw [ha n hn]; exact Bool.false_ne_true,
        List.filter_eq_self.2 hb, List.nil_append]
    rw [Table.chains, group, hfilter]
  have hVtab : Holds q.tab V.chains := by
    rw [Table.chains_eq]
    exact hV.tab
  have hnot : x ∉ a.map Prod.fst := by
    have hnodup := hVtab.nodup k
    rw [hVk] at hnodup
    exact fun hxa => (List.nodup_append.1 hnodup).2.2 x hxa x (hUk ▸ hx) rfl
  have hmem : x ∈ V.chains k := by
    rw [hVk]
    exact List.mem_append_right _ (hUk ▸ hx)
  rw [hD.next k x hx, hUk]
  show q.tab.next x = _
  rw [hVtab.next k x hmem, hVk, nextIn_append_of_notMem hnot]

/-- Otherwise a freed node is still on its chain. -/
theorem Swept.dangles {q p' : Plugin ws} {V U : Table} (h : Shows ifnet p T X) (hV : Marked ifnet S p q T V X)
    (hU : Swept ifnet S p q p' V U X) (hord : p.inOrder ifnet S = false) : ∃ k x, p'.tab.Reach k x ∧
      p'.liveEntry x = false := by
  obtain ⟨D, hD, htab⟩ := hU.stale
  obtain ⟨k, -, hk⟩ := List.all_eq_false.1 hord
  rw [Bool.not_eq_true, ← failFirst_chain h hV k] at hk
  obtain ⟨a, b, c, x, y, hsplit, ha, hb, hy⟩ := not_failFirst_split hk
  have hmemV : y ∈ V.marks := by
    have hmem : y ∈ V.marks.filter fun n => Table.markKey n = k := by rw [hsplit]; simp
    exact (List.mem_filter.1 hmem).1
  refine ⟨k, y.1, Links.reach_of_follow (l := (x :: b ++ y :: c).map Prod.fst) ?_ ?_ (by simp), ?_⟩
  · -- the first node that stays is at the head
    have hfilter : U.marks.filter (fun n => Table.markKey n = k) = x :: b ++ (y :: c).filter fun n => n.2.2 := by
      have hcomm : (V.marks.filter fun n => decide (Table.markKey n = k) && n.2.2) =
          (V.marks.filter fun n => Table.markKey n = k).filter fun n => n.2.2 := by
        rw [List.filter_filter]
        exact List.filter_congr fun n _ => Bool.and_comm _ _
      rw [hU.marks, List.filter_filter, hcomm, hsplit, List.filter_append, List.filter_append,
        List.filter_eq_nil_iff.2 fun n hn => by rw [ha n hn]; exact Bool.false_ne_true, List.filter_eq_self.2 hb,
        List.nil_append]
    have hhead : p'.tab.head k = D.head k := by rw [htab]
    rw [hhead, hD.head k, Table.chains, group, hfilter]
    rfl
  · intro done z rest hz
    have hVk : V.chains k = (a.map Prod.fst ++ done) ++ z :: rest := by
      rw [Table.chains, group, hsplit, List.map_append, hz, List.append_assoc]
    have hVtab : Holds q.tab V.chains := by
      rw [Table.chains_eq]
      exact hV.tab
    have hnext : p'.tab.next z = q.tab.next z := by rw [htab]
    rw [hnext, hVtab.next_of_split hVk]
  · rw [Plugin.liveEntry, ← Bool.not_eq_true, hU.entries, Table.entries, blocks_isSome]
    intro hmem
    have hmem' : y.1 ∈ U.marks.map Prod.fst := by
      rw [Table.marks, List.map_map]
      exact hmem
    obtain ⟨n, hn, hname⟩ := List.mem_map.1 hmem'
    rw [hU.marks] at hn
    obtain ⟨hn, hact⟩ := List.mem_filter.1 hn
    rw [List.inj_on_of_nodup_map hV.nodup_marks hn hmemV hname, hy] at hact
    cases hact

/-- A round with the chains in order. -/
theorem Shows.check (h : Shows ifnet p T X) (hord : p.inOrder ifnet S = true) : ∃ p' U,
    p.tc_check_data ifnet S = some p' ∧ Shows ifnet p' U (X.check ifnet S) ∧
      ∃ msgs, p'.msgQueue_ = p.msgQueue_ ++ msgs ∧ X.Sends ifnet S msgs := by
  obtain ⟨q, V, p', U, hrun, hV, hU⟩ := h.swept S
  have hmids : (keys (X.check ifnet S).mids).Nodup :=
    (nodup_renew h.midPairs S.aliases).sublist (List.filter_sublist.map _)
  exact ⟨p', U, hrun, ⟨Swept.threaded h hV hU hord, hU.nodeMarks, hU.linkMarks, hU.mids, hmids⟩, hU.queue⟩

theorem shows_init : Shows ifnet (Plugin.tc_init_data : Plugin ws) ⟨[], []⟩ Copy.empty := by
  have hnil : ∀ {β κ : Type} [DecidableEq κ] (key : β → κ) (name : β → Ptr), group key name [] = fun _ => [] :=
    fun _ _ => rfl
  refine ⟨⟨⟨?_, rfl, rfl, List.nodup_nil, List.nodup_nil, ?_, ?_, List.nodup_nil, List.nodup_nil, ?_, ?_⟩, ?_⟩, rfl,
    rfl, rfl, List.nodup_nil⟩
  · exact .of_head_none fun _ => rfl
  · simp
  · simp
  · simp
  · simp
  · exact .of_head_none fun _ => rfl

/-! ### The tables after a round -/

theorem tc_is_in_neighbourhood_iff {table : List NeighborEntry} {addr : OlsrIpAddr}
    (h : (table.map NeighborEntry.neighbor_main_addr).Nodup) : tc_is_in_neighbourhood table addr = true ↔
      ∃ neigh ∈ table, neigh.neighbor_main_addr = addr ∧ neigh.status = .SYM := by
  induction table with
  | nil => simp [tc_is_in_neighbourhood]
  | cons neigh table ih =>
    rw [List.map_cons, List.nodup_cons] at h
    rw [tc_is_in_neighbourhood]
    by_cases hn : neigh.neighbor_main_addr = addr
    · subst hn
      have hother : ∀ n ∈ table, n.neighbor_main_addr ≠ neigh.neighbor_main_addr := fun n hn heq =>
        h.1 (heq ▸ List.mem_map_of_mem hn)
      rw [if_pos rfl, decide_eq_true_iff]
      constructor
      · intro hs
        exact ⟨neigh, List.mem_cons_self, rfl, hs⟩
      · rintro ⟨n, hn, heq, hs⟩
        rcases List.mem_cons.1 hn with rfl | hn
        · exact hs
        · exact absurd heq (hother n hn)
    · rw [if_neg hn, ih h.2]
      simp [hn]

theorem mem_accepted {e : OlsrIpAddr × OlsrIpAddr} : e ∈ S.accepted ifnet ↔ S.Accepted ifnet e := by
  have hlocal : tc_is_addr_local ifnet e.1 = true ↔ e.1 ∈ ifnet := by simp [tc_is_addr_local]
  rw [Snapshot.accepted, List.mem_filter, Snapshot.Accepted, Snapshot.accepts, ← tc_is_in_neighbourhood_iff S.nodup,
    ← hlocal, Bool.not_eq_true', ← Bool.not_eq_true, Bool.and_eq_true, Bool.not_eq_true', Bool.not_eq_true]

theorem mem_endpoints {es : List (OlsrIpAddr × OlsrIpAddr)} {a : OlsrIpAddr} :
    a ∈ endpoints es ↔ ∃ e ∈ es, a = e.1 ∨ a = e.2 := by
  simp [endpoints]

namespace Plugin

/-- A node on a chain has the address. -/
def HasNode (p : Plugin ws) (addr : OlsrIpAddr) : Prop :=
  ∃ k x e, p.tab.Reach k x ∧ p.entries x = some e ∧ e.src_addr = addr

/-- A link on a chain of a node has the addresses. -/
def HasLink (p : Plugin ws) (src_addr dst_addr : OlsrIpAddr) : Prop :=
  ∃ k x e i y d, p.tab.Reach k x ∧ p.entries x = some e ∧ e.src_addr = src_addr ∧ p.dst_tab.Reach (x, i) y ∧
    p.dsts y = some d ∧ d.dst_addr = dst_addr

end Plugin

namespace Shows

theorem nodeKeys (h : Shows ifnet p T X) : T.nodes.map TcNode.addr = keys X.nodes := by
  rw [← h.nodeMarks, Table.keys_nodeMarks]

theorem linkKeys (h : Shows ifnet p T X) : T.links.map TcLink.pair = keys X.links := by
  rw [← h.linkMarks, Table.keys_linkMarks]

theorem reach (h : Shows ifnet p T X) {k : HashKey} {x : Ptr} (hx : p.tab.Reach k x) :
    ∃ n ∈ T.nodes, n.key = k ∧ n.name = x := mem_group.1 (h.tab.reach_iff.1 hx)

theorem reach_link (h : Shows ifnet p T X) {x y : Ptr} {i : HashKey} (hy : p.dst_tab.Reach (x, i) y) :
    ∃ l ∈ T.links, l.key = (x, i) ∧ l.name = y := mem_group.1 (h.dst_tab.reach_iff.1 hy)

theorem hasNode_iff (h : Shows ifnet p T X) {a : OlsrIpAddr} : p.HasNode a ↔ a ∈ keys X.nodes := by
  rw [← h.nodeKeys, List.mem_map]
  constructor
  · rintro ⟨k, x, e, hx, he, rfl⟩
    obtain ⟨n, hn, -, rfl⟩ := h.reach hx
    rw [h.node hn] at he
    exact ⟨n, hn, congrArg SerTcEntry.src_addr (Option.some.inj he)⟩
  · rintro ⟨n, hn, rfl⟩
    exact ⟨n.key, n.name, n.block, h.tab.reach_iff.2 (mem_group.2 ⟨n, hn, rfl, rfl⟩), h.node hn, rfl⟩

theorem hasLink_iff (h : Shows ifnet p T X) {a b : OlsrIpAddr} : p.HasLink a b ↔ (a, b) ∈ keys X.links := by
  rw [← h.linkKeys, List.mem_map]
  constructor
  · rintro ⟨k, x, e, i, y, d, hx, he, rfl, hy, hd, rfl⟩
    obtain ⟨n, hn, -, rfl⟩ := h.reach hx
    obtain ⟨l, hl, hkey, rfl⟩ := h.reach_link hy
    rw [h.node hn] at he
    rw [h.link hl] at hd
    have hsrc := (h.src_eq hn hl).1 (congrArg Prod.fst hkey)
    refine ⟨l, hl, Prod.ext (hsrc.trans ?_) ?_⟩
    · exact congrArg SerTcEntry.src_addr (Option.some.inj he)
    · exact congrArg SerTcEntryDst.dst_addr (Option.some.inj hd)
  · rintro ⟨l, hl, heq⟩
    obtain ⟨rfl, rfl⟩ := Prod.mk.inj heq
    obtain ⟨n, hn, hname, haddr⟩ := h.source hl
    have hkey : l.key = (n.name, olsr_ip_hashing l.block.dst_addr) := by rw [TcLink.key, hname]
    exact ⟨n.key, n.name, n.block, olsr_ip_hashing l.block.dst_addr, l.name, l.block,
      h.tab.reach_iff.2 (mem_group.2 ⟨n, hn, rfl, rfl⟩), h.node hn, haddr,
      h.dst_tab.reach_iff.2 (mem_group.2 ⟨l, hl, hkey, rfl⟩), h.link hl, rfl⟩

end Shows

namespace Plugin

/-- Rounds one after the other, from the start. -/
def run (ws : WordSize) (ifnet : List OlsrIpAddr) (Ss : List Snapshot) : Option (Plugin ws) :=
  Ss.foldlM (fun p S => p.tc_check_data ifnet S) tc_init_data

/-- In every round the chains are in order. -/
def runInOrder (ws : WordSize) (ifnet : List OlsrIpAddr) (Ss : List Snapshot) : Bool :=
  Simulation.guarded (fun (p : Plugin ws) S => p.tc_check_data ifnet S) (inOrder ifnet) tc_init_data Ss

end Plugin

theorem tc_check_data_none {k : HashKey} {x : Ptr} (hx : p.tab.Reach k x) (hfree : p.liveEntry x = false) :
    p.tc_check_data ifnet S = none := by
  rw [Plugin.tc_check_data, tc_reset_active_flag_none hx hfree]
  rfl

/-- The tables follow the copy in every run with the chains in order. -/
theorem shows_run {Ss : List Snapshot} (h : Plugin.runInOrder ws ifnet Ss = true) : ∃ p T,
    Plugin.run ws ifnet Ss = some p ∧ Shows ifnet p T (Ss.foldl (fun X S => X.check ifnet S) Copy.empty) := by
  obtain ⟨p, hrun, T, hT⟩ := Simulation.guarded_simulates (R := fun X p => ∃ T, Shows ifnet p T X)
    (fun X p S hp hok => by
      obtain ⟨T, hT⟩ := hp
      obtain ⟨p', U, hrun, hU, -⟩ := hT.check hok
      exact ⟨p', hrun, U, hU⟩)
    ⟨_, shows_init⟩ Ss h
  exact ⟨p, T, hrun, hT⟩

/-- A property of the tables that hold a copy, and not of a chain with a freed node, holds after the last round if and
only if the chains were in order in every round. -/
theorem run_inOrder_iff {Q : Snapshot → Plugin ws → Prop}
    (hgood : ∀ S p T X, Shows ifnet p T (Copy.check ifnet S X) → Q S p)
    (hbad : ∀ S p k x, p.tab.Reach k x → p.liveEntry x = false → ¬ Q S p) (Ss : List Snapshot) (S : Snapshot) :
    (∃ p, Plugin.run ws ifnet (Ss ++ [S]) = some p ∧ Q S p) ↔ Plugin.runInOrder ws ifnet (Ss ++ [S]) = true := by
  refine Simulation.guarded_iff (R := fun X p => ∃ T, Shows ifnet p T X) (f := fun X S => X.check ifnet S)
    (fun X p S hp hok => ?_) (fun X p S hp hok p' hrun => ?_) ⟨_, shows_init⟩ Ss S
  · obtain ⟨T, hT⟩ := hp
    obtain ⟨p', U, hrun, hU, -⟩ := hT.check hok
    exact ⟨p', hrun, ⟨U, hU⟩, hgood S p' U X hU⟩
  · obtain ⟨T, hT⟩ := hp
    obtain ⟨q, V, p'', U, hrun', hV, hU⟩ := hT.swept S
    obtain rfl := Option.some.inj (hrun.symm.trans hrun')
    obtain ⟨k, x, hx, hfree⟩ := Swept.dangles hT hV hU hok
    refine ⟨hbad S p' k x hx hfree, fun S' => ?_⟩
    exact tc_check_data_none hx hfree

/-- A network without neighbours. -/
def Snapshot.remote (tc_set mid_set : List (OlsrIpAddr × List OlsrIpAddr)) : Snapshot :=
  ⟨tc_set, [], mid_set, List.nodup_nil⟩

end MpOlsr
