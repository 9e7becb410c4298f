import MpOlsr.Olsr.TcEdges

/-!
# The loops over the edges of a node

`olsr_delete_outdated_tc_edges`, `olsr_delete_revoked_tc_edges` and `olsr_delete_tc_entry`.  The loops fetch the next
edge before they delete the current one, so that they visit the edges that the tree had at their start.
-/

namespace MpOlsr

namespace TcSet

open SearchTree

variable {Q : Type} {cnf : OlsrCnf} {s : TcSet Q}

theorem exists_node {x : Ptr} {d : TcEntry Q} (h : s.view.node x = some d) :
    ∃ tc, s.entries x = some tc ∧ tc.data = d := by
  simpa [view] using h

theorem exists_link {e : Ptr} {d : TcEdgeEntry Q} (h : s.view.link e = some d) :
    ∃ edge, s.edges e = some edge ∧ edge.data = d := by
  simpa [view] using h

theorem link_removeLink {V : TcView Q} {e e' : Ptr} (hne : e' ≠ e) : (V.removeLink e).link e' = V.link e' := by
  simp [TcView.removeLink, hne]

/-- The edges that a loop still visits keep their data when another one goes. -/
theorem Visits.filter_eq {s' : TcSet Q} {x : Ptr} {p : OlsrIpAddr × Ptr} {es : List (OlsrIpAddr × Ptr)}
    (h : Visits s x (p :: es)) (hview : s'.view = s.view.removeLink p.2)
    (c : OlsrIpAddr × Ptr → Option (TcEdgeEntry Q) → Bool) :
    es.filter (fun q => c q (s'.view.link q.2)) = es.filter fun q => c q (s.view.link q.2) := by
  obtain ⟨-, hnodup⟩ := h
  rw [List.map_cons, List.nodup_cons] at hnodup
  refine List.filter_congr fun q hq => ?_
  have hne : q.2 ≠ p.2 := fun heq => hnodup.1 (List.mem_map.2 ⟨q, hq, heq⟩)
  rw [hview, link_removeLink hne]

/-- The body of the loop of `olsr_delete_outdated_tc_edges`. -/
theorem Shape.deleteOutdated (h : Shape s) {x : Ptr} {d : TcEntry Q} (hx : s.view.node x = some d)
    {es : List (OlsrIpAddr × Ptr)} (hes : Visits s x es) (retval : Bool) : ∃ s' retval',
    es.foldlM (fun (s, retval) p => do
      let entry ← TcSet.entries s x
      let edge ← TcSet.edges s p.2
      if seqnoGreaterThan entry.ansn edge.ansn then
        let s ← s.olsr_delete_tc_edge_entry p.2
        return (s, true)
      else return (s, retval)) (s, retval) = some (s', retval') ∧ Shape s' ∧
    s'.view = (es.filter fun p => (s.view.link p.2).any fun edge => seqnoGreaterThan d.ansn edge.ansn).foldl
      (fun V p => V.removeLink p.2) s.view := by
  induction es generalizing s retval with
  | nil => exact ⟨s, retval, rfl, h, rfl⟩
  | cons p es ih =>
    have harc := hes.arc p List.mem_cons_self
    obtain ⟨tc, htc, hdata⟩ := exists_node hx
    obtain ⟨edge, he, -, -⟩ := exists_edge harc
    have hansn : tc.ansn = d.ansn := by
      rw [← hdata]
      rfl
    have hany : ((s.view.link p.2).any fun edge => seqnoGreaterThan d.ansn edge.ansn) =
        seqnoGreaterThan d.ansn edge.ansn := by
      rw [link_eq he]
      rfl
    rw [List.foldlM_cons]
    dsimp only
    rw [Fault.bind_of_some htc, Fault.bind_of_some he, hansn, List.filter_cons, hany]
    split
    · rename_i hgreater
      obtain ⟨s₁, hrun, hs₁, hview⟩ := h.olsr_delete_tc_edge_entry harc
      obtain ⟨s', retval', hrun', hs', hview'⟩ := ih hs₁ (by rw [hview]; exact hx) (hes.tail hview) true
      refine ⟨s', retval', ?_, hs', ?_⟩
      · rw [Fault.bind_of_some hrun]
        exact hrun'
      · rw [hview', hes.filter_eq hview fun q link => link.any fun edge => seqnoGreaterThan d.ansn edge.ansn, hview,
          List.foldl_cons]
    · obtain ⟨s', retval', hrun', hs', hview'⟩ := ih h hx hes.weaken retval
      exact ⟨s', retval', hrun', hs', hview'⟩

theorem Shape.olsr_delete_outdated_tc_edges (h : Shape s) {x : Ptr} {d : TcEntry Q} (hx : s.view.node x = some d) :
    ∃ s' retval, s.olsr_delete_outdated_tc_edges x = some (s', retval) ∧ Shape s' ∧
      s'.view = s.view.removeLinks x fun edge => seqnoGreaterThan d.ansn edge.ansn := by
  obtain ⟨tc, htc, -⟩ := exists_node hx
  obtain ⟨s', retval, hrun, hs', hview⟩ := h.deleteOutdated hx (h.visits htc) false
  rw [h.foldl_filter htc] at hview
  exact ⟨s', retval, by rw [TcSet.olsr_delete_outdated_tc_edges, Fault.bind_of_some htc]; exact hrun, hs', hview⟩

/-- The loop of `olsr_delete_revoked_tc_edges`, over edges in the order of their destinations. -/
theorem Shape.deleteRevoked (h : Shape s) {x : Ptr} (ansn : BitVec 16) (lower upper : OlsrIpAddr)
    {es : List (OlsrIpAddr × Ptr)} (hes : Visits s x es) (hsorted : Sorted BitVec.toNat es) (passed : Bool)
    (hpassed : passed = true → ∀ p ∈ es, lower.toNat ≤ p.1.toNat) : ∃ s',
    TcSet.deleteRevoked ansn lower upper passed es s = some s' ∧ Shape s' ∧
      s'.view = (es.filter fun p => (lower.toNat ≤ p.1.toNat && p.1.toNat < upper.toNat) &&
        (s.view.link p.2).any fun edge => seqnoGreaterThan ansn edge.ansn).foldl
          (fun V p => V.removeLink p.2) s.view := by
  induction es generalizing s passed with
  | nil => exact ⟨s, rfl, h, rfl⟩
  | cons p es ih =>
    have harc := hes.arc p List.mem_cons_self
    obtain ⟨edge, he, -, hdest⟩ := exists_edge harc
    have hany : ((s.view.link p.2).any fun edge => seqnoGreaterThan ansn edge.ansn) =
        seqnoGreaterThan ansn edge.ansn := by
      rw [link_eq he]
      rfl
    unfold Sorted at hsorted
    rw [List.pairwise_cons] at hsorted
    rw [TcSet.deleteRevoked, Fault.bind_of_some he, hdest, List.filter_cons, hany]
    dsimp only
    by_cases hlow : lower.toNat ≤ p.1.toNat
    · have hpass : (passed || decide (lower ≤ p.1)) = true := by simp [BitVec.le_def, hlow]
      have hlater : ∀ q ∈ es, lower.toNat ≤ q.1.toNat := fun q hq => by
        have hlt := hsorted.1 q hq
        omega
      rw [hpass, if_neg (by decide)]
      by_cases hup : upper.toNat ≤ p.1.toNat
      · rw [if_pos (BitVec.le_def.2 hup), if_neg (by simp only [Bool.and_eq_true, decide_eq_true_eq]; omega)]
        refine ⟨s, rfl, h, ?_⟩
        have hnil : (es.filter fun p => (lower.toNat ≤ p.1.toNat && p.1.toNat < upper.toNat) &&
            (s.view.link p.2).any fun edge => seqnoGreaterThan ansn edge.ansn) = [] := by
          rw [List.filter_eq_nil_iff]
          intro q hq
          have hlt := hsorted.1 q hq
          simp only [Bool.and_eq_true, decide_eq_true_eq]
          omega
        rw [hnil]
        rfl
      · rw [if_neg (by rw [BitVec.le_def]; exact hup)]
        by_cases hgreater : seqnoGreaterThan ansn edge.ansn = true
        · rw [if_pos hgreater, if_pos (by simp [hgreater, hlow, Nat.lt_of_not_le hup])]
          obtain ⟨s₁, hrun, hs₁, hview⟩ := h.olsr_delete_tc_edge_entry harc
          obtain ⟨s', hrun', hs', hview'⟩ := ih hs₁ (hes.tail hview) hsorted.2 true fun _ => hlater
          refine ⟨s', ?_, hs', ?_⟩
          · rw [Fault.bind_of_some hrun]
            exact hrun'
          · rw [hview', hes.filter_eq hview fun q link => (lower.toNat ≤ q.1.toNat && q.1.toNat < upper.toNat) &&
              link.any fun edge => seqnoGreaterThan ansn edge.ansn, hview, List.foldl_cons]
        · rw [if_neg hgreater, if_neg (by simp [hgreater])]
          exact ih h hes.weaken hsorted.2 true fun _ => hlater
    · have hfalse : passed = false := by
        cases passed with
        | false => rfl
        | true => exact absurd (hpassed rfl p List.mem_cons_self) hlow
      have hpass : (passed || decide (lower ≤ p.1)) = false := by simp [hfalse, BitVec.le_def, hlow]
      rw [hpass, if_pos (by decide), if_neg (by simp [hlow])]
      exact ih h hes.weaken hsorted.2 false fun hcontra => absurd hcontra Bool.false_ne_true

theorem Shape.olsr_delete_revoked_tc_edges (h : Shape s) {x : Ptr} {a : OlsrIpAddr} (hx : s.view.addr x = some a)
    (ansn : BitVec 16) (lower upper : OlsrIpAddr) : ∃ s',
    s.olsr_delete_revoked_tc_edges x ansn lower upper = some s' ∧ Shape s' ∧
      s'.view = s.view.removeLinks x fun edge => (lower.toNat ≤ edge.T_dest_addr.toNat &&
        edge.T_dest_addr.toNat < upper.toNat) && seqnoGreaterThan ansn edge.ansn := by
  obtain ⟨tc, htc, -⟩ := exists_entry hx
  have hvisits := h.visits htc
  obtain ⟨s', hrun, hs', hview⟩ := h.deleteRevoked ansn lower upper hvisits (h.sorted_edges x tc htc) false
    fun hcontra => absurd hcontra Bool.false_ne_true
  refine ⟨s', by rw [TcSet.olsr_delete_revoked_tc_edges, Fault.bind_of_some htc]; exact hrun, hs', ?_⟩
  rw [hview, ← h.foldl_filter htc]
  congr 1
  refine List.filter_congr fun p hp => ?_
  obtain ⟨edge, he, -, hdest⟩ := exists_edge (hvisits.arc p hp)
  rw [link_eq he, ← hdest]
  rfl

/-! ### A node goes -/

/-- Delete the prefixes of a node. -/
theorem Shape.deletePrefixes (h : Shape s) {x : Ptr} {tc : TcEntry Q} (hx : s.entries x = some tc) : ∃ s',
    tc.prefix_tree.foldlM (fun s p => s.olsr_delete_rt_path x p.1) s = some s' ∧ Shape s' ∧
      s'.view = s.view.setNode x fun d => { d with prefix_tree := [] } := by
  obtain ⟨n, hn⟩ : ∃ t, tc.prefix_tree = t := ⟨_, rfl⟩
  rw [hn]
  induction n generalizing s tc with
  | nil =>
    refine ⟨s, rfl, h, (TcView.setNode_self (node_eq hx) ?_).symm⟩
    simp [TcEntry.data, hn]
  | cons p t ih =>
    have hhead : (tc.prefix_tree.lookup p.1).isSome = true := by simp [hn]
    obtain ⟨s₁, hrun, hs₁, hview⟩ := h.olsr_delete_rt_path hx hhead
    have hnode : s₁.view.node x = some { tc.data with prefix_tree := t } := by
      rw [hview]
      simp [TcView.setNode, node_eq hx, TcEntry.data, hn]
    obtain ⟨tc₁, htc₁, hdata⟩ := exists_node hnode
    have htree : tc₁.prefix_tree = t := congrArg TcEntry.prefix_tree hdata
    obtain ⟨s', hrun', hs', hview'⟩ := ih hs₁ htc₁ htree
    refine ⟨s', by rw [List.foldlM_cons, Fault.bind_of_some hrun, hrun'], hs', ?_⟩
    rw [hview', hview]
    simp [TcView.setNode, node_eq hx]

/-- A node goes that has no edges and no prefixes. -/
theorem Shape.removeEntry (h : Shape s) {x : Ptr} {tc : TcEntry Q} (hx : s.entries x = some tc)
    (hedges : ∀ e b, s.view.arc e ≠ some (x, b)) : Shape { s with
      entries := Function.update s.entries x none
      tc_tree := SearchTree.remove x s.tc_tree
      validity_timer := Function.update s.validity_timer x false
      edge_gc_timer := Function.update s.edge_gc_timer x false } := by
  generalize hs' : ({ s with
      entries := Function.update s.entries x none
      tc_tree := SearchTree.remove x s.tc_tree
      validity_timer := Function.update s.validity_timer x false
      edge_gc_timer := Function.update s.edge_gc_timer x false } : TcSet Q) = s'
  have haddr : s'.view.addr = Function.update s.view.addr x none := by
    subst hs'
    funext y
    by_cases hy : y = x
    · subst hy
      simp [view, TcView.addr]
    · simp [view, TcView.addr, hy]
  have harc : s'.view.arc = s.view.arc := by
    subst hs'
    rfl
  have hends : s'.view.ends = s.view.ends := by
    funext e
    unfold TcView.ends
    rw [harc]
    cases hl : s.view.arc e with
    | none => rfl
    | some l =>
      obtain ⟨y, b⟩ := l
      have hne : y ≠ x := by
        rintro rfl
        exact hedges e b hl
      simp [haddr, hne]
  have hentry : ∀ y tc', s'.entries y = some tc' → y ≠ x ∧ s.entries y = some tc' := by
    intro y tc' hy
    subst hs'
    by_cases hxy : y = x
    · subst hxy
      simp at hy
    · simp only [Function.update_of_ne hxy] at hy
      exact ⟨hxy, hy⟩
  refine ⟨⟨?_, ?_, ?_, ?_, ?_, ?_, ?_, ?_⟩, ?_⟩
  · subst hs'
    exact h.sorted.remove x
  · intro a y
    have hmem : (a, y) ∈ s'.tc_tree ↔ (a, y) ∈ s.tc_tree ∧ y ≠ x := by
      subst hs'
      exact mem_remove
    rw [hmem, h.mem_tree, haddr]
    by_cases hy : y = x
    · simp [hy]
    · simp [hy]
  · exact fun y tc' hy => h.sorted_edges y tc' (hentry y tc' hy).2
  · intro y tc' hy
    rw [harc]
    exact h.mem_edges y tc' (hentry y tc' hy).2
  · intro e y b he
    rw [harc] at he
    obtain ⟨a, ha⟩ := h.owner e y b he
    have hne : y ≠ x := by
      rintro rfl
      exact hedges e b he
    exact ⟨a, by rw [haddr, Function.update_of_ne hne, ha]⟩
  · exact fun y tc' hy => h.refcount y tc' (hentry y tc' hy).2
  · intro y hy
    have hfresh := h.fresh y (by subst hs'; exact hy)
    subst hs'
    by_cases hxy : y = x
    · simp [hxy, ← hfresh.2]
    · simp [hxy, hfresh.1, hfresh.2]
  · intro y hy
    by_cases hxy : y = x
    · subst hs'
      simp [hxy] at hy
    · have htimer : (s.validity_timer y || s.edge_gc_timer y) = true := by
        subst hs'
        simpa [hxy] using hy
      obtain ⟨a, ha⟩ := h.timers y htimer
      exact ⟨a, by rw [haddr, Function.update_of_ne hxy, ha]⟩
  · rw [hends]
    subst hs'
    exact h.inverse

theorem Shape.olsr_delete_tc_entry (h : Shape s) {x : Ptr} {a : OlsrIpAddr} (hx : s.view.addr x = some a) : ∃ s',
    s.olsr_delete_tc_entry x = some s' ∧ Shape s' ∧ s'.view = s.view.removeNode x := by
  obtain ⟨tc, htc, rfl⟩ := exists_entry hx
  -- the route of the node goes first
  obtain ⟨s₁, hrun₁, hs₁, hcases₁⟩ := h.olsr_delete_routing_table tc.addr maxplen tc.addr
  have hview₁ : ∃ f : TcEntry Q → TcEntry Q, (∀ d, (f d).addr = d.addr) ∧ s₁.view = s.view.setNode x f := by
    rcases hcases₁ with rfl | ⟨y, hy, hview⟩
    · exact ⟨id, fun _ => rfl, (TcView.setNode_self (node_eq htc) rfl).symm⟩
    · obtain rfl := h.addr_inj hx hy
      exact ⟨fun d => { d with prefix_tree := d.prefix_tree.eraseP fun q => q.1 == (tc.addr, maxplen) },
        fun _ => rfl, hview⟩
  obtain ⟨f₁, hf₁, hview₁⟩ := hview₁
  have hx₁ : s₁.view.addr x = some tc.addr := by rw [hview₁, TcView.addr_setNode hf₁, hx]
  obtain ⟨tc₁, htc₁, -⟩ := exists_entry hx₁
  obtain ⟨s₂, hrun₂, hs₂, hview₂⟩ := hs₁.deleteEdges (hs₁.visits htc₁)
  have hall : (tc₁.edge_tree.filter fun p => (s₁.view.link p.2).any fun _ => true) = tc₁.edge_tree := by
    refine List.filter_eq_self.2 fun p hp => ?_
    obtain ⟨edge, he, -⟩ := exists_edge ((hs₁.visits htc₁).arc p hp)
    rw [link_eq he]
    rfl
  have hloop := hs₁.foldl_filter htc₁ fun _ => true
  rw [hall, ← hview₂] at hloop
  have hx₂ : s₂.view.addr x = some tc.addr := by rw [hloop]; exact hx₁
  obtain ⟨tc₂, htc₂, -⟩ := exists_entry hx₂
  obtain ⟨s₃, hrun₃, hs₃, hview₃⟩ := hs₂.deletePrefixes htc₂
  have hnode₃ : s₃.view.node x = some { tc₂.data with prefix_tree := [] } := by
    rw [hview₃]
    simp [TcView.setNode, node_eq htc₂]
  obtain ⟨tc₃, htc₃, hdata₃⟩ := exists_node hnode₃
  have hedges₃ : ∀ e b, s₃.view.arc e ≠ some (x, b) := by
    intro e b he
    rw [hview₃, hloop] at he
    obtain ⟨edge, hedge, hpair⟩ := Option.map_eq_some_iff.1 he
    simp only [TcView.setNode, TcView.removeLinks, Option.filter_eq_some_iff] at hedge
    simp_all
  have hcount : tc₃.refcount = 1 := by
    have hprefixes : tc₃.prefix_tree = [] := congrArg TcEntry.prefix_tree hdata₃
    have htree : tc₃.edge_tree = [] := by
      refine List.eq_nil_iff_forall_not_mem.2 fun p hp => ?_
      exact hedges₃ p.2 p.1 ((hs₃.mem_edges x tc₃ htc₃ p.1 p.2).1 hp)
    rw [hs₃.refcount x tc₃ htc₃, hprefixes, htree]
    rfl
  have hdelete : avl_delete s₃.liveEntry s₃.tc_tree x = some (SearchTree.remove x s₃.tc_tree) := by
    refine if_pos ?_
    rw [hs₃.liveTree, Bool.true_and, List.any_eq_true]
    exact ⟨(tc₃.addr, x), (hs₃.mem_tree _ _).2 (addr_eq htc₃), beq_self_eq_true x⟩
  have hs₄ := hs₃.removeEntry htc₃ hedges₃
  refine ⟨_, ?_, hs₄, ?_⟩
  · rw [TcSet.olsr_delete_tc_entry, Fault.bind_of_some htc, Fault.bind_of_some hrun₁, Fault.bind_of_some htc₁,
      Fault.bind_of_some hrun₂, Fault.bind_of_some htc₂, Fault.bind_of_some hrun₃]
    dsimp only
    have hdelete' : avl_delete ({ s₃ with
        edge_gc_timer := Function.update s₃.edge_gc_timer x false
        validity_timer := Function.update s₃.validity_timer x false } : TcSet Q).liveEntry s₃.tc_tree x =
          some (SearchTree.remove x s₃.tc_tree) := hdelete
    rw [Fault.bind_of_some hdelete', olsr_unlock_tc_entry, Fault.bind_of_some htc₃, if_neg (by omega), if_pos hcount]
    rfl
  · have hview₄ : s₃.view = ((s.view.setNode x f₁).removeLinks x fun _ => true).setNode x
        fun d => { d with prefix_tree := [] } := by rw [hview₃, hloop, hview₁]
    simp only [view, TcView.setNode, TcView.removeLinks] at hview₄
    simp only [view, TcView.removeNode, map_update]
    injection hview₄ with hnode hlink hmyself hvalidity hgc
    rw [hnode, hlink, hmyself, hvalidity, hgc]
    simp

end TcSet

end MpOlsr
