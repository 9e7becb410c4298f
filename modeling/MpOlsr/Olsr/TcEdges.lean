import MpOlsr.Olsr.TcShape

/-!
# What the operations on the TC set do

Every function of `tc_set.c` that changes nodes and edges runs without a fault, keeps the shape of the set and changes
its view as stated.
-/

namespace MpOlsr

namespace TcView

variable {Q : Type} (V : TcView Q)

def addLink (e : Ptr) (edge : TcEdgeEntry Q) : TcView Q := { V with link := Function.update V.link e (some edge) }

def removeLink (e : Ptr) : TcView Q := { V with link := Function.update V.link e none }

/-- The edges of a node go for which `P` holds. -/
def removeLinks (x : Ptr) (P : TcEdgeEntry Q → Bool) : TcView Q :=
  { V with link := fun e => (V.link e).filter fun edge => !(edge.tc == x && P edge) }

/-- A node goes with its edges and its timers. -/
def removeNode (x : Ptr) : TcView Q :=
  { V with
    node := Function.update V.node x none
    link := fun e => (V.link e).filter fun edge => !(edge.tc == x)
    validity_timer := Function.update V.validity_timer x false
    edge_gc_timer := Function.update V.edge_gc_timer x false }

end TcView

namespace TcSet

open SearchTree

variable {Q : Type} {cnf : OlsrCnf} {H : LqHandler Q} {s : TcSet Q}

/-! ### Nodes and prefixes -/

theorem Shape.olsr_locate_tc_entry (h : Shape s) (hmain : cnf.main_addr ≠ 0) (adr : OlsrIpAddr) : ∃ s' x,
    s.olsr_locate_tc_entry cnf adr = some (s', some x) ∧ Shape s' ∧ s'.view.addr x = some adr ∧
      (s.view.addr x = some adr ∧ s' = s ∨
        x = s.brk ∧ (∀ y, s.view.addr y ≠ some adr) ∧ s'.view = s.view.addNode s.brk adr) := by
  obtain ⟨found, hlookup, hfound⟩ := h.olsr_lookup_tc_entry adr
  rw [TcSet.olsr_locate_tc_entry, Fault.bind_of_some hlookup]
  cases found with
  | some x =>
    have hx := (hfound x).1 rfl
    exact ⟨s, x, rfl, h, hx, Or.inl ⟨hx, rfl⟩⟩
  | none =>
    have hnew : ∀ y, s.view.addr y ≠ some adr := fun y hy => by simpa using (hfound y).2 hy
    obtain ⟨s', hrun, hs', hview⟩ := h.olsr_add_tc_entry hmain hnew
    refine ⟨s', s.brk, hrun, hs', ?_, Or.inr ⟨rfl, hnew, hview⟩⟩
    rw [hview]
    simp [TcView.addNode, TcView.addr, TcEntry.ofAddr]

/-- More than one reference. -/
theorem unlock_eq {x : Ptr} {tc : TcEntry Q} (hx : s.entries x = some tc) (hcount : 2 ≤ tc.refcount) :
    s.olsr_unlock_tc_entry x = s.setEntry x fun tc => { tc with refcount := tc.refcount - 1 } := by
  rw [olsr_unlock_tc_entry, Fault.bind_of_some hx, if_neg (by omega), if_neg (by omega)]

theorem Shape.olsr_delete_rt_path (h : Shape s) {x : Ptr} {tc : TcEntry Q} (hx : s.entries x = some tc)
    {p : OlsrIpAddr × Byte} (hp : (tc.prefix_tree.lookup p).isSome = true) :
    ∃ s', s.olsr_delete_rt_path x p = some s' ∧ Shape s' ∧ s'.view = s.view.setNode x fun d =>
      { d with prefix_tree := d.prefix_tree.eraseP fun q => q.1 == p } := by
  obtain ⟨origin, horigin⟩ := Option.isSome_iff_exists.1 hp
  have hlength : (tc.prefix_tree.eraseP fun q => q.1 == p).length + 1 = tc.prefix_tree.length := by
    have hmem := mem_of_lookup horigin
    have hpos := List.length_pos_of_mem hmem
    rw [List.length_eraseP_of_mem hmem (beq_self_eq_true p)]
    omega
  have hcount := h.refcount x tc hx
  obtain ⟨s', hrun, hs', hview⟩ := h.setEntry hx
    (f := (fun tc => { tc with refcount := tc.refcount - 1 }) ∘
      fun tc => { tc with prefix_tree := tc.prefix_tree.eraseP fun q => q.1 == p })
    (g := fun d => { d with prefix_tree := d.prefix_tree.eraseP fun q => q.1 == p })
    (fun _ => rfl) rfl rfl (by
      simp only [Function.comp_apply]
      omega)
  refine ⟨s', ?_, hs', hview⟩
  rw [← setEntry_setEntry] at hrun
  obtain ⟨s₁, hs₁, hlast⟩ := Option.bind_eq_some_iff.1 hrun
  have hentry : s₁.entries x = some { tc with prefix_tree := tc.prefix_tree.eraseP fun q => q.1 == p } := by
    rw [setEntry_eq hx, Option.some.injEq] at hs₁
    subst hs₁
    simp
  rw [TcSet.olsr_delete_rt_path, Fault.bind_of_some hs₁, unlock_eq hentry (by simp only; omega), hlast]

theorem Shape.olsr_insert_routing_table (h : Shape s) (hmain : cnf.main_addr ≠ 0) (dst : OlsrIpAddr) (plen : Byte)
    (originator : OlsrIpAddr) (origin : Byte) : ∃ s', s.olsr_insert_routing_table cnf dst plen originator origin =
      some s' ∧ Shape s' ∧ (s' = s ∨ ∃ V x, s'.view = V.setNode x (fun d =>
        { d with prefix_tree := (SearchTree.insert prefixRank (dst, plen) origin d.prefix_tree).1 }) ∧
        V.addr x = some originator ∧ (V = s.view ∨ x = s.brk ∧ (∀ y, s.view.addr y ≠ some originator) ∧
          V = s.view.addNode s.brk originator)) := by
  rw [TcSet.olsr_insert_routing_table]
  split
  · exact ⟨s, rfl, h, Or.inl rfl⟩
  · obtain ⟨s₁, x, hrun, hs₁, hx, hcases⟩ := h.olsr_locate_tc_entry hmain originator
    obtain ⟨tc, hentry, -⟩ := exists_entry hx
    obtain ⟨s', hinsert, hs', hview⟩ := hs₁.insertPrefix hentry (dst, plen) origin
    refine ⟨s', ?_, hs', Or.inr ⟨s₁.view, x, hview, hx, ?_⟩⟩
    · rw [Fault.bind_of_some hrun]
      exact hinsert
    · rcases hcases with ⟨-, rfl⟩ | ⟨hbrk, hnew, hview₁⟩
      · exact Or.inl rfl
      · exact Or.inr ⟨hbrk, hnew, hview₁⟩

theorem Shape.olsr_delete_routing_table (h : Shape s) (dst : OlsrIpAddr) (plen : Byte) (originator : OlsrIpAddr) :
    ∃ s', s.olsr_delete_routing_table dst plen originator = some s' ∧ Shape s' ∧
      (s' = s ∨ ∃ x, s.view.addr x = some originator ∧ s'.view = s.view.setNode x fun d =>
        { d with prefix_tree := d.prefix_tree.eraseP fun q => q.1 == (dst, plen) }) := by
  rw [TcSet.olsr_delete_routing_table]
  split
  · exact ⟨s, rfl, h, Or.inl rfl⟩
  · obtain ⟨found, hlookup, hfound⟩ := h.olsr_lookup_tc_entry originator
    rw [Fault.bind_of_some hlookup]
    cases found with
    | none => exact ⟨s, rfl, h, Or.inl rfl⟩
    | some x =>
      have hx := (hfound x).1 rfl
      obtain ⟨tc, hentry, -⟩ := exists_entry hx
      dsimp only
      rw [Fault.bind_of_some hentry]
      split
      · rename_i hp
        obtain ⟨s₁, hrun, hs₁, hview⟩ := h.olsr_delete_rt_path hentry hp
        refine ⟨{ s₁ with changes_hna := true }, ?_, hs₁.flags _ _, Or.inr ⟨x, hx, hview⟩⟩
        rw [Fault.bind_of_some hrun]
        rfl
      · exact ⟨s, rfl, h, Or.inl rfl⟩

/-! ### Edges -/

variable (cnf H) in
theorem Shape.olsr_calc_tc_edge_entry_etx (h : Shape s) {e : Ptr} {edge : TcEdgeEntry Q}
    (he : s.edges e = some edge) : ∃ s' relevant, s.olsr_calc_tc_edge_entry_etx cnf H e = some (s', relevant) ∧
      Shape s' ∧ s'.view = if cnf.lq_level < 1 then s.view else s.view.setLink e fun d =>
        { d with cost := H.calc_tc_cost d.linkquality } := by
  rw [TcSet.olsr_calc_tc_edge_entry_etx]
  split
  · exact ⟨s, false, rfl, h, rfl⟩
  · rw [Fault.bind_of_some he]
    obtain ⟨s', hrun, hs', hview⟩ := h.setEdge he
      (f := fun edge' => { edge' with cost := H.calc_tc_cost edge.linkquality }) (fun _ => ⟨rfl, rfl⟩) rfl rfl
    dsimp only
    rw [Fault.bind_of_some hrun]
    refine ⟨s', _, rfl, hs', ?_⟩
    rw [hview]
    simp only [TcView.setLink]
    congr 1
    simp [view, he, TcEdgeEntry.data]

/-- A new edge, which is not connected yet. -/
theorem Trees.addEdge (h : Trees s) {x : Ptr} {tc : TcEntry Q} (hx : s.entries x = some tc) {edge : TcEdgeEntry Q}
    (htc : edge.tc = x) (hnew : ∀ e, s.view.arc e ≠ some (x, edge.T_dest_addr)) :
    Trees { s with
      entries := Function.update s.entries x (some { tc with
        edge_tree := (SearchTree.insert BitVec.toNat edge.T_dest_addr s.brk tc.edge_tree).1
        refcount := tc.refcount + 1 })
      edges := Function.update s.edges s.brk (some edge)
      brk := s.brk + 1 } := by
  generalize hs' : ({ s with
      entries := Function.update s.entries x (some { tc with
        edge_tree := (SearchTree.insert BitVec.toNat edge.T_dest_addr s.brk tc.edge_tree).1
        refcount := tc.refcount + 1 })
      edges := Function.update s.edges s.brk (some edge)
      brk := s.brk + 1 } : TcSet Q) = s'
  have hlive : ∀ y tc', s.entries y = some tc' → y ≠ s.brk := by
    rintro y tc' hy rfl
    simp [(h.fresh _ (le_refl _)).1] at hy
  have haddr : s'.view.addr = s.view.addr := by
    subst hs'
    funext y
    by_cases hy : y = x
    · subst hy
      simp [view, TcView.addr, hx, TcEntry.data]
    · simp [view, TcView.addr, hy]
  have harc : s'.view.arc = Function.update s.view.arc s.brk (some (x, edge.T_dest_addr)) := by
    subst hs'
    funext e
    by_cases he : e = s.brk
    · subst he
      simp [view, TcView.arc, TcEdgeEntry.data, htc]
    · simp [view, TcView.arc, he]
  have hnone : tc.edge_tree.lookup edge.T_dest_addr = none := by
    rw [lookup_eq_none_iff]
    exact fun e he => hnew e ((h.mem_edges x tc hx _ e).1 he)
  have hentry : ∀ y tc', s'.entries y = some tc' → y = x ∧ tc' = { tc with
        edge_tree := (SearchTree.insert BitVec.toNat edge.T_dest_addr s.brk tc.edge_tree).1
        refcount := tc.refcount + 1 } ∨ y ≠ x ∧ s.entries y = some tc' := by
    intro y tc' hy
    subst hs'
    by_cases hxy : y = x
    · subst hxy
      simp only [Function.update_self, Option.some.injEq] at hy
      exact Or.inl ⟨rfl, hy.symm⟩
    · simp only [Function.update_of_ne hxy] at hy
      exact Or.inr ⟨hxy, hy⟩
  refine ⟨?_, ?_, ?_, ?_, ?_, ?_, ?_, ?_⟩
  · subst hs'
    exact h.sorted
  · rw [haddr]
    subst hs'
    exact h.mem_tree
  · intro y tc' hy
    rcases hentry y tc' hy with ⟨rfl, rfl⟩ | ⟨-, hy'⟩
    · exact (h.sorted_edges y tc hx).insert toNat_injective _ _
    · exact h.sorted_edges y tc' hy'
  · intro y tc' hy b e
    rw [harc]
    rcases hentry y tc' hy with ⟨rfl, rfl⟩ | ⟨hne, hy'⟩
    · rw [mem_insert hnone, h.mem_edges y tc hx]
      by_cases he : e = s.brk
      · subst he
        simp [h.fresh_arc, eq_comm]
      · simp [he]
    · rw [h.mem_edges y tc' hy']
      by_cases he : e = s.brk
      · subst he
        simp [h.fresh_arc, Ne.symm hne]
      · simp [he]
  · intro e y b he
    rw [haddr]
    rw [harc] at he
    by_cases hbrk : e = s.brk
    · subst hbrk
      simp only [Function.update_self, Option.some.injEq, Prod.mk.injEq] at he
      obtain ⟨rfl, -⟩ := he
      exact ⟨_, addr_eq hx⟩
    · rw [Function.update_of_ne hbrk] at he
      exact h.owner e y b he
  · intro y tc' hy
    rcases hentry y tc' hy with ⟨rfl, rfl⟩ | ⟨-, hy'⟩
    · simp only [length_insert hnone, h.refcount y tc hx]
      omega
    · exact h.refcount y tc' hy'
  · intro y hy
    have hlt : s.brk < y := by
      subst hs'
      exact hy
    obtain ⟨hentry', hedge⟩ := h.fresh y (Nat.le_of_lt hlt)
    have hne : y ≠ x := by
      rintro rfl
      simp [hx] at hentry'
    subst hs'
    simp [hne, hentry', hedge, Nat.ne_of_gt hlt]
  · rw [haddr]
    subst hs'
    exact h.timers

/-- The pointer of an edge changes. -/
theorem Trees.setInv (h : Trees s) {e : Ptr} {a b : OlsrIpAddr} (hends : s.view.ends e = some (a, b))
    (i : Option Ptr) : ∃ s', s.setEdge e (fun edge => { edge with edge_inv := i }) = some s' ∧ Trees s' ∧
      s'.view = s.view ∧ s'.inv = Function.update s.inv e (some i) := by
  obtain ⟨x, harc, -⟩ := TcView.ends_iff.1 hends
  obtain ⟨edge, he, -⟩ := exists_edge harc
  have hview : ({ s with edges := Function.update s.edges e (some { edge with edge_inv := i }) } : TcSet Q).view =
      s.view := by
    simp only [view, map_update, Option.map_some]
    congr 1
    funext e'
    by_cases hne : e' = e
    · subst hne
      simp [he, TcEdgeEntry.data]
    · simp [hne]
  refine ⟨_, setEdge_eq he _, ⟨h.sorted, ?_, h.sorted_edges, ?_, ?_, h.refcount, ?_, ?_⟩, hview, ?_⟩
  · rw [hview]
    exact h.mem_tree
  · rw [hview]
    exact h.mem_edges
  · rw [hview]
    exact h.owner
  · intro y hy
    obtain ⟨hentry, hedge⟩ := h.fresh y hy
    have hne : y ≠ e := by
      rintro rfl
      simp [he] at hedge
    simp [hne, hentry, hedge]
  · rw [hview]
    exact h.timers
  · unfold TcSet.inv
    simp only [map_update, Option.map_some]

theorem Trees.connect (h : Trees s) {e : Ptr} {a b : OlsrIpAddr} (hends : s.view.ends e = some (a, b)) : ∃ s',
    s.connect e a b = some s' ∧ Trees s' ∧ s'.view = s.view ∧
      ((∀ e', s.view.ends e' ≠ some (b, a)) ∧ s'.inv = s.inv ∨ ∃ i, s.view.ends i = some (b, a) ∧
        s'.inv = Function.update (Function.update s.inv i (some (some e))) e (some (some i))) := by
  obtain ⟨found, hlookup, hfound⟩ := h.olsr_lookup_tc_entry b
  rw [TcSet.connect, Fault.bind_of_some hlookup]
  cases found with
  | none =>
    refine ⟨s, rfl, h, rfl, Or.inl ⟨fun e' he' => ?_, rfl⟩⟩
    obtain ⟨y, -, hy⟩ := TcView.ends_iff.1 he'
    simpa using (hfound y).2 hy
  | some y =>
    have hy := (hfound y).1 rfl
    obtain ⟨tc, hentry, -⟩ := exists_entry hy
    obtain ⟨found', hlookup', hfound'⟩ := h.olsr_lookup_tc_edge hentry a
    dsimp only
    rw [Fault.bind_of_some hlookup']
    cases found' with
    | none =>
      refine ⟨s, rfl, h, rfl, Or.inl ⟨fun e' he' => ?_, rfl⟩⟩
      obtain ⟨y', harc, hy'⟩ := TcView.ends_iff.1 he'
      obtain rfl := h.addr_inj hy hy'
      simpa using (hfound' e').2 harc
    | some i =>
      have hi : s.view.ends i = some (b, a) := TcView.ends_iff.2 ⟨y, (hfound' i).1 rfl, hy⟩
      obtain ⟨s₁, hrun₁, hs₁, hview₁, hinv₁⟩ := h.setInv hi (some e)
      obtain ⟨s₂, hrun₂, hs₂, hview₂, hinv₂⟩ := hs₁.setInv (by rw [hview₁]; exact hends) (some i)
      refine ⟨s₂, ?_, hs₂, hview₂.trans hview₁, Or.inr ⟨i, hi, by rw [hinv₂, hinv₁]⟩⟩
      dsimp only
      rw [Fault.bind_of_some hrun₁, hrun₂]

/-- The edge that `olsr_add_tc_edge_entry` makes. -/
def newEdge (cnf : OlsrCnf) (H : LqHandler Q) (x : Ptr) (addr : OlsrIpAddr) (ansn : BitVec 16) : TcEdgeEntry Q where
  T_dest_addr := addr
  edge_inv := none
  tc := x
  cost := if cnf.lq_level < 1 then 0 else H.calc_tc_cost H.zero
  ansn := ansn
  linkquality := H.zero

theorem ends_addLink {V : TcView Q} {e x : Ptr} {edge : TcEdgeEntry Q} {a : OlsrIpAddr} (htc : edge.tc = x)
    (hx : V.addr x = some a) : (V.addLink e edge).ends = Function.update V.ends e (some (a, edge.T_dest_addr)) := by
  funext e'
  by_cases he : e' = e
  · subst he
    rw [Function.update_self]
    exact TcView.ends_iff.2 ⟨x, by simp [TcView.arc, TcView.addLink, htc], hx⟩
  · have hlink : (V.addLink e edge).arc e' = V.arc e' := by simp [TcView.arc, TcView.addLink, he]
    rw [Function.update_of_ne he]
    unfold TcView.ends
    rw [hlink]
    rfl

variable (cnf H) in
theorem Shape.olsr_add_tc_edge_entry (h : Shape s) {x : Ptr} {tc : TcEntry Q} (hx : s.entries x = some tc)
    {addr : OlsrIpAddr} (hnew : ∀ e, s.view.arc e ≠ some (x, addr)) (ansn : BitVec 16) : ∃ s',
    s.olsr_add_tc_edge_entry cnf H x addr ansn = some (s', s.brk) ∧ Shape s' ∧
      s'.view = s.view.addLink s.brk (newEdge cnf H x addr ansn) := by
  generalize hedge : (⟨addr, none, x, 0, ansn, H.zero⟩ : TcEdgeEntry Q) = edge
  have htc : edge.tc = x := by rw [← hedge]
  have hdest : edge.T_dest_addr = addr := by rw [← hedge]
  have hs₁ := h.addEdge hx htc (by rw [hdest]; exact hnew)
  rw [hdest] at hs₁
  generalize hst : ({ s with
      entries := Function.update s.entries x (some { tc with
        edge_tree := (SearchTree.insert BitVec.toNat addr s.brk tc.edge_tree).1
        refcount := tc.refcount + 1 })
      edges := Function.update s.edges s.brk (some edge)
      brk := s.brk + 1 } : TcSet Q) = s₁ at hs₁
  have hview₁ : s₁.view = s.view.addLink s.brk edge := by
    subst hst
    simp only [view, TcView.addLink, map_update, Option.map_some]
    congr 1
    · funext y
      by_cases hy : y = x
      · subst hy
        simp [hx, TcEntry.data]
      · simp [hy]
    · rw [← hedge]
      rfl
  have hends₁ : s₁.view.ends = Function.update s.view.ends s.brk (some (tc.addr, addr)) := by
    rw [hview₁, ends_addLink htc (addr_eq hx), hdest]
  have hinv₁ : s₁.inv = Function.update s.inv s.brk (some none) := by
    subst hst
    unfold TcSet.inv
    simp only [map_update, Option.map_some]
    rw [← hedge]
  obtain ⟨s₂, hconnect, hs₂, hview₂, hcases⟩ := hs₁.connect (e := s.brk) (a := tc.addr) (b := addr)
    (by rw [hends₁, Function.update_self])
  have hfresh : s.view.ends s.brk = none := by simp [TcView.ends, h.fresh_arc]
  have hshape : Shape s₂ := by
    refine ⟨hs₂, ?_⟩
    rw [hview₂, hends₁]
    rcases hcases with ⟨halone, hinv₂⟩ | ⟨i, hi, hinv₂⟩
    · rw [hinv₂, hinv₁]
      rw [hends₁] at halone
      exact h.inverse.add (fun n => rfl) hfresh halone
    · have hinj := hs₁.ends_inj
      rw [hends₁] at hi hinj
      have hsame : Function.update (Function.update (Function.update s.inv s.brk (some none)) i (some (some s.brk)))
          s.brk (some (some i)) =
          Function.update (Function.update s.inv i (some (some s.brk))) s.brk (some (some i)) := by
        funext e
        simp only [Function.update_apply]
        split
        · rfl
        · split <;> rfl
      rw [hinv₂, hinv₁, hsame]
      exact h.inverse.connect (fun n => rfl) hfresh hinj hi
  obtain ⟨edge', hedge', hdata⟩ : ∃ edge', s₂.edges s.brk = some edge' ∧ edge'.data = edge := by
    have hlink : s₂.view.link s.brk = some edge := by
      rw [hview₂, hview₁]
      simp [TcView.addLink]
    simpa [view] using hlink
  obtain ⟨s₃, relevant, hetx, hs₃, hview₃⟩ := hshape.olsr_calc_tc_edge_entry_etx cnf H hedge'
  refine ⟨s₃, ?_, hs₃, ?_⟩
  · have hentry : (s.allocEdge edge).entries x = some tc := hx
    have hlive : (tc.edge_tree.all fun p => (s.allocEdge edge).liveEdge p.2) = true := by
      rw [List.all_eq_true]
      intro p hp
      have hp' := List.all_eq_true.1 (h.liveEdges hx) p hp
      by_cases hne : p.2 = s.brk
      · simp [liveEdge, allocEdge, hne]
      · simpa [liveEdge, allocEdge, hne] using hp'
    have hinsert : avl_insert BitVec.toNat (s.allocEdge edge).liveEdge tc.edge_tree addr s.brk =
        some (SearchTree.insert BitVec.toNat addr s.brk tc.edge_tree).1 := if_pos hlive
    have hboth : (((s.allocEdge edge).setEntry x fun tc' => { tc' with
        edge_tree := (SearchTree.insert BitVec.toNat addr s.brk tc.edge_tree).1 }).bind fun s =>
          s.olsr_lock_tc_entry x) = some s₁ := by
      unfold olsr_lock_tc_entry
      rw [setEntry_setEntry, setEntry_eq hentry]
      subst hst
      rfl
    obtain ⟨s₀, hs₀, hlock⟩ := Option.bind_eq_some_iff.1 hboth
    rw [TcSet.olsr_add_tc_edge_entry, hedge]
    dsimp only
    rw [Fault.bind_of_some hentry, Fault.bind_of_some hinsert, Fault.bind_of_some hs₀, Fault.bind_of_some hlock,
      Fault.bind_of_some hconnect, Fault.bind_of_some hetx]
    rfl
  · rw [hview₃, hview₂, hview₁]
    subst hedge
    by_cases hlevel : cnf.lq_level < 1
    · simp [hlevel, newEdge]
    · simp [hlevel, newEdge, TcView.setLink, TcView.addLink]

/-- The set after an edge has left the tree of its node, with the edges `edges`. -/
def unhook (s : TcSet Q) (x : Ptr) (tc : TcEntry Q) (e : Ptr) (edges : Ptr → Option (TcEdgeEntry Q)) : TcSet Q :=
  { s with
    entries := Function.update s.entries x (some { tc with
      edge_tree := SearchTree.remove e tc.edge_tree
      refcount := tc.refcount - 1 })
    edges := edges }

/-- An edge goes; the others may have other pointers. -/
theorem Trees.removeEdge (h : Trees s) {x e : Ptr} {tc : TcEntry Q} {b : OlsrIpAddr} (hx : s.entries x = some tc)
    (he : s.view.arc e = some (x, b)) (edges : Ptr → Option (TcEdgeEntry Q))
    (hedges : (fun e' => (edges e').map TcEdgeEntry.data) = Function.update s.view.link e none) :
    Trees (s.unhook x tc e edges) ∧ (s.unhook x tc e edges).view = s.view.removeLink e := by
  generalize hs' : s.unhook x tc e edges = s'
  unfold unhook at hs'
  have hview : s'.view = s.view.removeLink e := by
    subst hs'
    simp only [view, TcView.removeLink, map_update]
    congr 1
    funext y
    by_cases hy : y = x
    · subst hy
      simp [hx, TcEntry.data]
    · simp [hy]
  have harc : (s.view.removeLink e).arc = Function.update s.view.arc e none := by
    funext e'
    by_cases hne : e' = e
    · subst hne
      simp [TcView.arc, TcView.removeLink]
    · simp [TcView.arc, TcView.removeLink, hne]
  have haddr : (s.view.removeLink e).addr = s.view.addr := rfl
  have hentry : ∀ y tc', s'.entries y = some tc' → y = x ∧ tc' = { tc with
        edge_tree := SearchTree.remove e tc.edge_tree
        refcount := tc.refcount - 1 } ∨ y ≠ x ∧ s.entries y = some tc' := by
    intro y tc' hy
    subst hs'
    by_cases hxy : y = x
    · subst hxy
      simp only [Function.update_self, Option.some.injEq] at hy
      exact Or.inl ⟨rfl, hy.symm⟩
    · simp only [Function.update_of_ne hxy] at hy
      exact Or.inr ⟨hxy, hy⟩
  refine ⟨⟨?_, ?_, ?_, ?_, ?_, ?_, ?_, ?_⟩, hview⟩
  · subst hs'
    exact h.sorted
  · rw [hview, haddr]
    subst hs'
    exact h.mem_tree
  · intro y tc' hy
    rcases hentry y tc' hy with ⟨rfl, rfl⟩ | ⟨-, hy'⟩
    · exact (h.sorted_edges y tc hx).remove e
    · exact h.sorted_edges y tc' hy'
  · intro y tc' hy b' e'
    rw [hview, harc]
    rcases hentry y tc' hy with ⟨rfl, rfl⟩ | ⟨hne, hy'⟩
    · rw [mem_remove, h.mem_edges y tc hx]
      by_cases hee : e' = e
      · simp [hee]
      · simp [hee]
    · rw [h.mem_edges y tc' hy']
      by_cases hee : e' = e
      · subst hee
        simp [he, Ne.symm hne]
      · simp [hee]
  · intro e' y b' he'
    rw [hview, harc] at he'
    rw [hview, haddr]
    by_cases hee : e' = e
    · simp [hee] at he'
    · rw [Function.update_of_ne hee] at he'
      exact h.owner e' y b' he'
  · intro y tc' hy
    rcases hentry y tc' hy with ⟨rfl, rfl⟩ | ⟨-, hy'⟩
    · have hlength := (h.sorted_edges y tc hx).length_remove ((h.mem_edges y tc hx b e).2 he) fun b' hb' => by
        have harc' := (h.mem_edges y tc hx b' e).1 hb'
        rw [he] at harc'
        exact (Prod.mk.inj (Option.some_inj.1 harc')).2.symm
      simp only [h.refcount y tc hx]
      omega
    · exact h.refcount y tc' hy'
  · intro y hy
    have hbrk : s'.brk = s.brk := by rw [← hs']
    rw [hbrk] at hy
    obtain ⟨hentry', hedge⟩ := h.fresh y hy
    have hne : y ≠ x := by
      rintro rfl
      simp [hx] at hentry'
    have hedge' : (edges y).map TcEdgeEntry.data = none := by
      rw [show (edges y).map TcEdgeEntry.data = Function.update s.view.link e none y from congrFun hedges y]
      by_cases hye : y = e
      · simp [hye]
      · simp [hye, view, hedge]
    subst hs'
    exact ⟨by simp [hne, hentry'], Option.map_eq_none_iff.1 hedge'⟩
  · rw [hview, haddr]
    subst hs'
    exact h.timers

theorem ends_removeLink {V : TcView Q} (e : Ptr) : (V.removeLink e).ends = Function.update V.ends e none := by
  funext e'
  by_cases he : e' = e
  · subst he
    simp [TcView.ends, TcView.arc, TcView.removeLink]
  · have hlink : (V.removeLink e).arc e' = V.arc e' := by simp [TcView.arc, TcView.removeLink, he]
    rw [Function.update_of_ne he]
    unfold TcView.ends
    rw [hlink]
    rfl

theorem Shape.olsr_delete_tc_edge_entry (h : Shape s) {e x : Ptr} {b : OlsrIpAddr} (harc : s.view.arc e = some (x, b)) :
    ∃ s', s.olsr_delete_tc_edge_entry e = some s' ∧ Shape s' ∧ s'.view = s.view.removeLink e := by
  obtain ⟨a, ha⟩ := h.owner e x b harc
  obtain ⟨edge, he, rfl, hdest⟩ := exists_edge harc
  obtain ⟨tc, hx, haddr⟩ := exists_entry ha
  have hends : s.view.ends e = some (a, b) := TcView.ends_iff.2 ⟨edge.tc, harc, ha⟩
  have hmem := (h.mem_edges edge.tc tc hx b e).2 harc
  have hdelete : avl_delete s.liveEdge tc.edge_tree e = some (SearchTree.remove e tc.edge_tree) := by
    refine if_pos ?_
    rw [h.liveEdges hx, Bool.true_and, List.any_eq_true]
    exact ⟨(b, e), hmem, beq_self_eq_true e⟩
  have hcount : 2 ≤ tc.refcount := by
    have hpos := List.length_pos_of_mem hmem
    rw [h.refcount edge.tc tc hx]
    omega
  -- the node, with one edge and one reference less
  have hboth : ((s.setEntry edge.tc fun tc' => { tc' with edge_tree := SearchTree.remove e tc.edge_tree }).bind
      fun s => s.olsr_unlock_tc_entry edge.tc) = some (s.unhook edge.tc tc e s.edges) := by
    have hentry : ∀ tc' : TcEntry Q, ({ s with
        entries := Function.update s.entries edge.tc (some tc') } : TcSet Q).entries edge.tc = some tc' :=
      fun tc' => Function.update_self ..
    have hdrop := unlock_eq (hentry { tc with edge_tree := SearchTree.remove e tc.edge_tree }) hcount
    rw [setEntry_eq hx, Option.bind_some, hdrop, setEntry_eq (hentry _)]
    simp [unhook]
  obtain ⟨s₀, hs₀, hunlock⟩ := Option.bind_eq_some_iff.1 hboth
  have hptr : s.inv e = some edge.edge_inv := by simp [TcSet.inv, he]
  have hpaired := h.inverse.remove (fun n => rfl) h.ends_inj hptr hends
  have hrun : ∀ edges, (s.unhook edge.tc tc e s.edges).clearInverse edge.edge_inv =
      some (s.unhook edge.tc tc e edges) → (edges e).isSome = true →
      s.olsr_delete_tc_edge_entry e = some (s.unhook edge.tc tc e (Function.update edges e none)) := by
    intro edges hclear hlive
    rw [TcSet.olsr_delete_tc_edge_entry, Fault.bind_of_some he, Fault.bind_of_some hx, Fault.bind_of_some hdelete,
      Fault.bind_of_some hs₀, Fault.bind_of_some hunlock, Fault.bind_of_some hclear]
    exact if_pos hlive
  cases hinv : edge.edge_inv with
  | none =>
    rw [hinv] at hrun hpaired
    obtain ⟨htrees, hview⟩ := h.removeEdge hx harc (Function.update s.edges e none) (by
      simp only [map_update, Option.map_none]
      rfl)
    refine ⟨_, hrun s.edges rfl (by simp [he]), ⟨htrees, ?_⟩, hview⟩
    rw [hview, ends_removeLink]
    unfold TcSet.inv unhook
    simp only [map_update, Option.map_none]
    exact hpaired
  | some i =>
    rw [hinv] at hrun hpaired hptr
    have hi : s.view.ends i = some (b, a) := (h.inverse e (some i) (a, b) hptr hends i).1 rfl
    obtain ⟨y, harci, -⟩ := TcView.ends_iff.1 hi
    obtain ⟨edgei, hedgei, -⟩ := exists_edge harci
    obtain ⟨htrees, hview⟩ := h.removeEdge hx harc
      (Function.update (Function.update s.edges i (some { edgei with edge_inv := none })) e none) (by
      simp only [map_update, Option.map_none, Option.map_some]
      congr 1
      funext e'
      by_cases hne : e' = i
      · subst hne
        simp [view, hedgei, TcEdgeEntry.data]
      · simp [view, hne])
    have hclear : (s.unhook edge.tc tc e s.edges).clearInverse (some i) =
        some (s.unhook edge.tc tc e (Function.update s.edges i (some { edgei with edge_inv := none }))) :=
      setEdge_eq (s := s.unhook edge.tc tc e s.edges) hedgei _
    refine ⟨_, hrun _ hclear ?_, ⟨htrees, ?_⟩, hview⟩
    · by_cases hei : e = i
      · simp [hei]
      · simp [hei, he]
    · rw [hview, ends_removeLink]
      unfold TcSet.inv unhook
      simp only [map_update, Option.map_none, Option.map_some]
      exact hpaired

/-! ### Several edges -/

theorem link_eq {e : Ptr} {edge : TcEdgeEntry Q} (he : s.edges e = some edge) : s.view.link e = some edge.data := by
  simp [view, he]

theorem arc_removeLink {V : TcView Q} {e e' : Ptr} (hne : e' ≠ e) : (V.removeLink e).arc e' = V.arc e' := by
  simp [TcView.arc, TcView.removeLink, hne]

/-- The edges of a list go. -/
theorem foldl_removeLink (es : List (OlsrIpAddr × Ptr)) (V : TcView Q) :
    es.foldl (fun V p => V.removeLink p.2) V =
      { V with link := fun e => if e ∈ es.map Prod.snd then none else V.link e } := by
  induction es generalizing V with
  | nil => simp
  | cons p es ih =>
    rw [List.foldl_cons, ih, TcView.removeLink]
    congr 1
    funext e
    by_cases he : e = p.2
    · simp [he]
    · by_cases hes : e ∈ es.map Prod.snd <;> simp [he, hes]

/-- The edges of a part of a tree, which the loops visit. -/
structure Visits (s : TcSet Q) (x : Ptr) (es : List (OlsrIpAddr × Ptr)) : Prop where
  arc : ∀ p ∈ es, s.view.arc p.2 = some (x, p.1)
  nodup : (es.map Prod.snd).Nodup

theorem Visits.tail {s' : TcSet Q} {x : Ptr} {p : OlsrIpAddr × Ptr} {es : List (OlsrIpAddr × Ptr)}
    (h : Visits s x (p :: es)) (hview : s'.view = s.view.removeLink p.2) : Visits s' x es := by
  obtain ⟨harc, hnodup⟩ := h
  rw [List.map_cons, List.nodup_cons] at hnodup
  refine ⟨fun q hq => ?_, hnodup.2⟩
  have hne : q.2 ≠ p.2 := fun heq => hnodup.1 (List.mem_map.2 ⟨q, hq, heq⟩)
  rw [hview, arc_removeLink hne]
  exact harc q (List.mem_cons_of_mem _ hq)

theorem Visits.weaken {x : Ptr} {p : OlsrIpAddr × Ptr} {es : List (OlsrIpAddr × Ptr)} (h : Visits s x (p :: es)) :
    Visits s x es := by
  obtain ⟨harc, hnodup⟩ := h
  rw [List.map_cons, List.nodup_cons] at hnodup
  exact ⟨fun q hq => harc q (List.mem_cons_of_mem _ hq), hnodup.2⟩

theorem Trees.visits (h : Trees s) {x : Ptr} {tc : TcEntry Q} (hx : s.entries x = some tc) :
    Visits s x tc.edge_tree := by
  refine ⟨fun p hp => (h.mem_edges x tc hx p.1 p.2).1 hp, ?_⟩
  unfold List.Nodup
  rw [List.pairwise_map]
  refine (h.sorted_edges x tc hx).imp_of_mem fun hp hq hlt heq => ?_
  have harc := (h.mem_edges x tc hx _ _).1 hp
  have harc' := (h.mem_edges x tc hx _ _).1 hq
  rw [heq, harc'] at harc
  rw [(Prod.mk.inj (Option.some_inj.1 harc)).2] at hlt
  exact lt_irrefl _ hlt

/-- The edges of the tree of a node that a loop has deleted, in the view. -/
theorem Trees.foldl_filter (h : Trees s) {x : Ptr} {tc : TcEntry Q} (hx : s.entries x = some tc)
    (P : TcEdgeEntry Q → Bool) :
    (tc.edge_tree.filter fun p => (s.view.link p.2).any P).foldl (fun V p => V.removeLink p.2) s.view =
      s.view.removeLinks x P := by
  rw [foldl_removeLink, TcView.removeLinks]
  congr 1
  funext e
  cases he : s.view.link e with
  | none => simp
  | some edge =>
    have harc : s.view.arc e = some (edge.tc, edge.T_dest_addr) := by rw [TcView.arc, he, Option.map_some]
    have hmem : e ∈ (tc.edge_tree.filter fun p => (s.view.link p.2).any P).map Prod.snd ↔
        edge.tc = x ∧ P edge = true := by
      rw [List.mem_map]
      constructor
      · rintro ⟨⟨b, e'⟩, hp, rfl⟩
        rw [List.mem_filter, h.mem_edges x tc hx, harc, he] at hp
        exact ⟨(Prod.mk.inj (Option.some_inj.1 hp.1)).1, hp.2⟩
      · rintro ⟨htc, hP⟩
        refine ⟨(edge.T_dest_addr, e), List.mem_filter.2 ⟨(h.mem_edges x tc hx _ _).2 ?_, ?_⟩, rfl⟩
        · rw [harc, htc]
        · simp [he, hP]
    have hkeep : (edge.tc == x && P edge) = true ↔ edge.tc = x ∧ P edge = true := by
      rw [Bool.and_eq_true, beq_iff_eq]
    rw [Option.filter_some]
    by_cases hdel : edge.tc = x ∧ P edge = true
    · rw [if_pos (hmem.2 hdel), hkeep.2 hdel]
      rfl
    · rw [if_neg (hmem.not.2 hdel), Bool.eq_false_iff.2 (hkeep.not.2 hdel)]
      rfl

theorem Shape.deleteEdges (h : Shape s) {x : Ptr} {es : List (OlsrIpAddr × Ptr)} (hes : Visits s x es) : ∃ s',
    es.foldlM (fun s p => s.olsr_delete_tc_edge_entry p.2) s = some s' ∧ Shape s' ∧
      s'.view = es.foldl (fun V p => V.removeLink p.2) s.view := by
  induction es generalizing s with
  | nil => exact ⟨s, rfl, h, rfl⟩
  | cons p es ih =>
    obtain ⟨s₁, hrun, hs₁, hview⟩ := h.olsr_delete_tc_edge_entry (hes.arc p List.mem_cons_self)
    obtain ⟨s', hrun', hs', hview'⟩ := ih hs₁ (hes.tail hview)
    refine ⟨s', ?_, hs', ?_⟩
    · rw [List.foldlM_cons, Fault.bind_of_some hrun, hrun']
    · rw [hview', hview, List.foldl_cons]

end TcSet

end MpOlsr
