import MpOlsr.Lib.Candidates
import MpOlsr.Olsr.Spf

/-!
# The rounds of the calculation

The algorithm only changes the labels of the nodes (`Relabels`), and keeps in step with Dijkstra's algorithm on the edges
that have an edge in the other direction (`graph`): the labels are in the entries, and the candidates are the vertices
that are reached but not settled (`Tracks`).
-/

namespace MpOlsr

open Dijkstra

namespace TcSet

variable {Q : Type} {s s' s'' : TcSet Q} {cand_tree : CandTree} {p : Labels Ptr (BitVec 32) × (Ptr → Option (LinkEntry Q))}
  {candidate : Ptr → Prop} {x y n : Ptr}

/-- The edge in the other direction. -/
def inverseEdge (s : TcSet Q) (e : Ptr) : Option (TcEdgeEntry Q) := do
  let edge ← s.edges e
  let inv ← edge.edge_inv
  s.edges inv

def hasInverse (s : TcSet Q) (e : Ptr) : Bool := (s.inverseEdge e).isSome

/-- The edges that have an edge in the other direction. -/
def graph (s : TcSet Q) : Graph Ptr Ptr (BitVec 32) where
  out x := ((s.entries x).elim [] fun tc => tc.edge_tree.map Prod.snd).filter s.hasInverse
  dst e := (s.inverseEdge e).elim 0 TcEdgeEntry.tc
  weight e := (s.edges e).elim 0 TcEdgeEntry.cost

/-! ### Labels -/

/-- Only the labels of the nodes differ. -/
structure Relabels (s s' : TcSet Q) : Prop where
  entries : ∀ x, (s'.entries x).map TcEntry.unlabelled = (s.entries x).map TcEntry.unlabelled
  rest : { s' with entries := s.entries } = s

theorem Relabels.refl (s : TcSet Q) : Relabels s s := ⟨fun _ => rfl, rfl⟩

theorem Relabels.trans (h : Relabels s s') (h' : Relabels s' s'') : Relabels s s'' := by
  refine ⟨fun x => (h'.entries x).trans (h.entries x), ?_⟩
  have hrest : { s'' with entries := s.entries } = { ({ s'' with entries := s'.entries } : TcSet Q) with
    entries := s.entries } := rfl
  rw [hrest, h'.rest, h.rest]

theorem Relabels.entry (h : Relabels s s') {tc : TcEntry Q} (hx : s.entries x = some tc) :
    ∃ tc', s'.entries x = some tc' ∧ tc'.unlabelled = tc.unlabelled := by
  have hentry := h.entries x
  rw [hx, Option.map_some, Option.map_eq_some_iff] at hentry
  exact hentry

theorem Relabels.symm (h : Relabels s s') : Relabels s' s := by
  refine ⟨fun x => (h.entries x).symm, ?_⟩
  have hrest := congrArg (fun t : TcSet Q => { t with entries := s'.entries }) h.rest
  exact hrest.symm

/-- Set a label. -/
theorem Relabels.setEntry (h : Relabels s s') {tc : TcEntry Q} (hx : s'.entries x = some tc)
    {f : TcEntry Q → TcEntry Q} (hf : (f tc).unlabelled = tc.unlabelled) :
    Relabels s { s' with entries := Function.update s'.entries x (some (f tc)) } := by
  refine h.trans ⟨fun y => ?_, rfl⟩
  by_cases hy : y = x
  · subst hy
    simp [hx, hf]
  · simp [hy]

theorem unlabelled_fields {tc tc' : TcEntry Q} (h : tc'.unlabelled = tc.unlabelled) :
    tc'.addr = tc.addr ∧ tc'.edge_tree = tc.edge_tree ∧ tc'.prefix_tree = tc.prefix_tree ∧
      tc'.refcount = tc.refcount := by
  unfold TcEntry.unlabelled at h
  injection h with haddr hcost hedges hprefixes hnext hrefcount
  exact ⟨haddr, hedges, hprefixes, hrefcount⟩

theorem Relabels.shape (h : Relabels s s') (hs : Shape s) : Shape s' := by
  have haddr : s'.view.addr = s.view.addr := by
    funext x
    have hentry := h.entries x
    cases hx : s.entries x with
    | none => simp_all [view, TcView.addr]
    | some tc =>
      obtain ⟨tc', hx', hsame⟩ := h.entry hx
      simp [view, TcView.addr, hx, hx', TcEntry.data, (unlabelled_fields hsame).1]
  have hs' : s' = { s with entries := s'.entries } := h.symm.rest.symm
  have harc : s'.view.arc = s.view.arc := by
    rw [hs']
    rfl
  have hinv : s'.inv = s.inv := by
    rw [hs']
    rfl
  refine ⟨⟨?_, ?_, ?_, ?_, ?_, ?_, ?_, ?_⟩, ?_⟩
  · rw [hs']
    exact hs.sorted
  · rw [haddr, hs']
    exact hs.mem_tree
  · intro x tc' hx
    obtain ⟨tc, hx', hsame⟩ := h.symm.entry hx
    rw [← (unlabelled_fields hsame).2.1]
    exact hs.sorted_edges x tc hx'
  · intro x tc' hx
    obtain ⟨tc, hx', hsame⟩ := h.symm.entry hx
    rw [← (unlabelled_fields hsame).2.1, harc]
    exact hs.mem_edges x tc hx'
  · rw [haddr, harc]
    exact hs.owner
  · intro x tc' hx
    obtain ⟨tc, hx', hsame⟩ := h.symm.entry hx
    obtain ⟨-, hedges, hprefixes, hrefcount⟩ := unlabelled_fields hsame
    rw [← hedges, ← hprefixes, ← hrefcount]
    exact hs.refcount x tc hx'
  · intro x hx
    have hbrk : s.brk ≤ x := by
      rw [hs'] at hx
      exact hx
    obtain ⟨hentry, hedge⟩ := hs.fresh x hbrk
    constructor
    · have hnone := h.entries x
      rwa [hentry, Option.map_none, Option.map_eq_none_iff] at hnone
    · rw [hs']
      exact hedge
  · rw [haddr, hs']
    exact hs.timers
  · rw [hinv, TcView.ends_congr haddr harc]
    exact hs.inverse

theorem Relabels.edges (h : Relabels s s') : s'.edges = s.edges := by
  have hrest := congrArg TcSet.edges h.rest
  exact hrest

theorem Relabels.graph (h : Relabels s s') : s'.graph = s.graph := by
  have hedge : s'.inverseEdge = s.inverseEdge := by
    funext e
    unfold inverseEdge
    rw [h.edges]
  unfold TcSet.graph hasInverse
  rw [hedge, h.edges]
  congr 1
  funext x
  congr 1
  have hentry := h.entries x
  cases hx : s.entries x with
  | none => simp_all
  | some tc =>
    obtain ⟨tc', hx', hsame⟩ := h.entry hx
    rw [hx', Option.elim_some, Option.elim_some, (unlabelled_fields hsame).2.1]

/-! ### Candidates -/

/-- The labels and the candidates are those of the algorithm. -/
structure Tracks (s : TcSet Q) (cand_tree : CandTree) (p : Labels Ptr (BitVec 32) × (Ptr → Option (LinkEntry Q)))
    (candidate : Ptr → Prop) : Prop where
  label : ∀ x tc, s.entries x = some tc →
    tc.path_cost = p.1.cost x ∧ tc.hops = BitVec.ofNat 8 (p.1.hops x) ∧ tc.next_hop = p.2 x
  live : ∀ x, candidate x → s.liveEntry x = true
  mem : ∀ c x, (c, x) ∈ cand_tree ↔ candidate x ∧ p.1.cost x = c ∧ c < ROUTE_COST_BROKEN
  ascending : SearchTree.Ascending BitVec.toNat cand_tree
  nodup : (cand_tree.map Prod.snd).Nodup

theorem Tracks.liveTree (h : Tracks s cand_tree p candidate) : (cand_tree.all fun q => s.liveEntry q.2) = true := by
  rw [List.all_eq_true]
  rintro ⟨c, x⟩ hmem
  exact h.live x ((h.mem c x).1 hmem).1

theorem mem_value {k : BitVec 32} {t : CandTree} (h : (k, x) ∈ t) : (t.any fun q => q.2 == x) = true := by
  rw [List.any_eq_true]
  exact ⟨(k, x), h, by simp⟩

/-- A candidate is taken out of the tree, where it is if it is reached. -/
theorem Tracks.dropCandidate (h : Tracks s cand_tree p candidate) (hx : candidate x) :
    s.dropCandidate cand_tree x (p.1.cost x) = some (SearchTree.remove x cand_tree) := by
  rw [TcSet.dropCandidate]
  split
  · rename_i hlt
    rw [olsr_spf_del_cand_tree, avl_delete, if_pos]
    rw [Bool.and_eq_true]
    exact ⟨h.liveTree, mem_value ((h.mem _ x).2 ⟨hx, rfl, hlt⟩)⟩
  · rename_i hge
    refine congrArg some (List.filter_eq_self.2 ?_).symm
    rintro ⟨c, y⟩ hmem
    obtain ⟨-, hc, hlt⟩ := (h.mem c y).1 hmem
    have hne : y ≠ x := by
      rintro rfl
      exact hge (hc ▸ hlt)
    simpa using hne

theorem Tracks.improve (h : Tracks s cand_tree p candidate) {tn : TcEntry Q} (hn : s.entries n = some tn)
    (hy : candidate y) (hne : n ≠ y) {G : Graph Ptr Ptr (BitVec 32)} {e : Ptr} (hdst : G.dst e = y)
    (hlt : p.1.cost n + G.weight e < p.1.cost y) : ∃ s' cand_tree',
    s.improve cand_tree n y (p.1.cost n + G.weight e) = some (s', cand_tree') ∧ Relabels s s' ∧
      Tracks s' cand_tree' (reach G n p.1 e, handOn n p.2 y) candidate := by
  obtain ⟨ty, hty⟩ := Option.isSome_iff_exists.1 (h.live y hy)
  obtain ⟨hcost, hhops, hnext⟩ := h.label y ty hty
  obtain ⟨hcostn, hhopsn, hnextn⟩ := h.label n tn hn
  generalize hnew : p.1.cost n + G.weight e = new_cost at hlt
  have hnewlt : new_cost < ROUTE_COST_BROKEN := by
    have hle := (measure_bitVec 32).le_top (p.1.cost y)
    have hlt' := BitVec.lt_def.1 hlt
    exact BitVec.lt_def.2 (Nat.lt_of_lt_of_le hlt' hle)
  let s₁ : TcSet Q := { s with entries := Function.update s.entries y (some { ty with path_cost := new_cost }) }
  have hlive₁ : s₁.liveEntry = s.liveEntry := by
    funext z
    by_cases hz : z = y
    · subst hz
      simp [liveEntry, s₁, hty]
    · simp [liveEntry, s₁, hz]
  let t₂ : TcEntry Q := pullUp tn.next_hop { ty with path_cost := new_cost }
  let t₃ : TcEntry Q := { t₂ with hops := tn.hops + 1 }
  let s₃ : TcSet Q := { s with entries := Function.update s.entries y (some t₃) }
  let cand₃ : CandTree := SearchTree.insertDup BitVec.toNat new_cost y (SearchTree.remove y cand_tree)
  have hrun : s.improve cand_tree n y new_cost = some (s₃, cand₃) := by
    have hadd : s₁.olsr_spf_add_cand_tree (SearchTree.remove y cand_tree) y = some cand₃ := by
      have hentry : s₁.entries y = some { ty with path_cost := new_cost } := Function.update_self ..
      rw [olsr_spf_add_cand_tree, Fault.bind_of_some hentry, if_pos]
      rw [hlive₁, List.all_eq_true]
      intro q hq
      exact List.all_eq_true.1 h.liveTree q (SearchTree.mem_remove.1 hq).1
    have hset₁ : s.setEntry y (fun new_tc => { new_tc with path_cost := new_cost }) = some s₁ := setEntry_eq hty _
    have hn₁ : s₁.entries n = some tn := by simp [s₁, hne, hn]
    have hset₂ : s₁.setEntry y (pullUp tn.next_hop) = some { s with entries := Function.update s.entries y (some t₂) } := by
      rw [setEntry_eq (Function.update_self ..)]
      simp [s₁, t₂]
    have hn₂ : ({ s with entries := Function.update s.entries y (some t₂) } : TcSet Q).entries n = some tn := by
      simp [hne, hn]
    have hset₃ : ({ s with entries := Function.update s.entries y (some t₂) } : TcSet Q).setEntry y
        (fun new_tc => { new_tc with hops := tn.hops + 1 }) = some s₃ := by
      rw [setEntry_eq (Function.update_self ..)]
      simp [s₃, t₃]
    rw [TcSet.improve, Fault.bind_of_some hty, hcost, Fault.bind_of_some (h.dropCandidate hy), Fault.bind_of_some hset₁, Fault.bind_of_some hadd, Fault.bind_of_some hn₁,
      Fault.bind_of_some hset₂, Fault.bind_of_some hn₂, Fault.bind_of_some hset₃]
    rfl
  have hrelabels : Relabels s s₃ := by
    refine (Relabels.refl s).setEntry hty (f := fun _ => t₃) ?_
    simp only [t₃, t₂, pullUp, TcEntry.unlabelled]
    split <;> rfl
  refine ⟨s₃, cand₃, hrun, hrelabels, ?_, ?_, ?_, ?_, ?_⟩
  · intro z tz hz
    by_cases hzy : z = y
    · subst hzy
      obtain rfl : t₃ = tz := by simpa [s₃] using hz
      refine ⟨?_, ?_, ?_⟩
      · simp only [t₃, t₂, pullUp, reach, hdst, Function.update_self, hnew]
        split <;> rfl
      · simp only [t₃, reach, hdst, Function.update_self, hhopsn]
        rw [BitVec.ofNat_add]
        rfl
      · simp only [t₃, t₂, pullUp, handOn, Function.update_self, hnextn]
        split
        · rfl
        · exact hnext
    · have hz' : s.entries z = some tz := by simpa [s₃, hzy] using hz
      have hlabel := h.label z tz hz'
      simpa [reach, handOn, hdst, hzy] using hlabel
  · intro z hz
    by_cases hzy : z = y
    · subst hzy
      simp [liveEntry, s₃]
    · have hlive := h.live z hz
      simpa [liveEntry, s₃, hzy] using hlive
  · intro c z
    have hmem := (SearchTree.insertDup_perm BitVec.toNat new_cost y
      (SearchTree.remove y cand_tree)).mem_iff (a := (c, z))
    rw [hmem, List.mem_cons, SearchTree.mem_remove, h.mem]
    by_cases hzy : z = y
    · subst hzy
      simp only [reach, hdst, Function.update_self, Prod.mk.injEq, and_true, ne_eq, not_true_eq_false, and_false, or_false,
        hnew]
      constructor
      · rintro rfl
        exact ⟨hy, rfl, hnewlt⟩
      · rintro ⟨-, rfl, -⟩
        rfl
    · simp [reach, hdst, hzy]
  · exact (h.ascending.remove y).insertDup new_cost y
  · have hperm := (SearchTree.insertDup_perm BitVec.toNat new_cost y (SearchTree.remove y cand_tree)).map Prod.snd
    rw [hperm.nodup_iff, List.map_cons, List.nodup_cons]
    constructor
    · intro hmem
      obtain ⟨q, hq, hqy⟩ := List.mem_map.1 hmem
      exact (SearchTree.mem_remove.1 hq).2 hqy
    · exact h.nodup.sublist (List.filter_sublist.map _)

/-! ### One round -/

/-- The nodes of the set. -/
def nodes (s : TcSet Q) : List Ptr := s.tc_tree.map Prod.snd

theorem Trees.mem_nodes (h : Trees s) : x ∈ s.nodes ↔ ∃ a, s.view.addr x = some a := by
  unfold nodes
  rw [List.mem_map]
  constructor
  · rintro ⟨⟨a, x⟩, hmem, rfl⟩
    exact ⟨a, (h.mem_tree a x).1 hmem⟩
  · rintro ⟨a, ha⟩
    exact ⟨(a, x), (h.mem_tree a x).2 ha, rfl⟩

theorem Trees.nodup_nodes (h : Trees s) : s.nodes.Nodup := by
  unfold nodes
  refine List.Nodup.map_on ?_ (List.Pairwise.imp (fun hlt heq => by subst heq; exact Nat.lt_irrefl _ hlt) h.sorted)
  rintro ⟨a, x⟩ hx ⟨b, y⟩ hy rfl
  have hax := (h.mem_tree a x).1 hx
  have hbx := (h.mem_tree b x).1 hy
  rw [Option.some_inj.1 (hax.symm.trans hbx)]

/-- What the pointer of an edge leads to. -/
theorem Shape.inverse_spec (h : Shape s) {e x : Ptr} {b : OlsrIpAddr} (he : s.view.arc e = some (x, b)) {i : Ptr}
    {edge : TcEdgeEntry Q} (hedge : s.edges e = some edge) (hi : edge.edge_inv = some i) :
    ∃ a y inv, s.view.addr x = some a ∧ s.edges i = some inv ∧ inv.tc = y ∧ inv.T_dest_addr = a ∧
      s.view.addr y = some b := by
  obtain ⟨a, ha⟩ := h.owner e x b he
  have hends : s.view.ends e = some (a, b) := TcView.ends_iff.2 ⟨x, he, ha⟩
  have hptr : s.inv e = some (some i) := by rw [TcSet.inv, hedge, Option.map_some, hi]
  obtain ⟨y, harc, hy⟩ := TcView.ends_iff.1 ((h.inverse e (some i) (a, b) hptr hends i).1 rfl)
  obtain ⟨inv, hinv, htc, hdest⟩ := exists_edge harc
  exact ⟨a, y, inv, ha, hinv, htc, hdest, hy⟩

/-- The edges of the graph are those that are advertised in both directions. -/
theorem Shape.mem_out (h : Shape s) {e : Ptr} : e ∈ s.graph.out x ↔ ∃ a b i, s.view.arc e = some (x, b) ∧
    s.view.addr x = some a ∧ s.view.arc i = some (s.graph.dst e, a) ∧ s.view.addr (s.graph.dst e) = some b := by
  constructor
  · intro he
    rw [TcSet.graph, List.mem_filter] at he
    obtain ⟨hmem, hsome⟩ := he
    cases hx : s.entries x with
    | none => simp [hx] at hmem
    | some tc =>
      rw [hx, Option.elim_some, List.mem_map] at hmem
      obtain ⟨⟨b, e⟩, hmem, rfl⟩ := hmem
      have harc := (h.mem_edges x tc hx b e).1 hmem
      obtain ⟨edge, hedge, -⟩ := exists_edge harc
      unfold hasInverse inverseEdge at hsome
      rw [Fault.bind_of_some hedge] at hsome
      cases hi : edge.edge_inv with
      | none => simp [hi] at hsome
      | some i =>
        obtain ⟨a, y, inv, ha, hinv, rfl, rfl, hy⟩ := h.inverse_spec harc hedge hi
        have hdst : s.graph.dst e = inv.tc := by
          simp [TcSet.graph, inverseEdge, hedge, hi, hinv]
        exact ⟨inv.T_dest_addr, b, i, harc, ha, by rw [hdst]; exact arc_eq hinv, by rw [hdst, hy]⟩
  · rintro ⟨a, b, i, harc, ha, hinv, hb⟩
    obtain ⟨tc, hx, -⟩ := exists_entry ha
    obtain ⟨edge, hedge, -⟩ := exists_edge harc
    have hends : s.view.ends e = some (a, b) := TcView.ends_iff.2 ⟨x, harc, ha⟩
    have hswap : s.view.ends i = some (b, a) := TcView.ends_iff.2 ⟨_, hinv, hb⟩
    have hptr : s.inv e = some edge.edge_inv := by rw [TcSet.inv, hedge, Option.map_some]
    have hi : edge.edge_inv = some i := (h.inverse e _ (a, b) hptr hends i).2 hswap
    obtain ⟨inv, hinv', -⟩ := exists_edge hinv
    rw [TcSet.graph, List.mem_filter, hx, Option.elim_some, List.mem_map]
    refine ⟨⟨(b, e), (h.mem_edges x tc hx b e).2 harc, rfl⟩, ?_⟩
    simp [hasInverse, inverseEdge, hedge, hi, hinv']

theorem explore_todo (G : Graph Ptr Ptr (BitVec 32)) (n : Ptr)
    (p : Labels Ptr (BitVec 32) × (Ptr → Option (LinkEntry Q))) (e : Ptr) :
    (explore G n p e).1.todo = p.1.todo := by
  unfold explore
  split <;> rfl

/-- The vertices that are not settled, and the one whose edges are relaxed. -/
def Open (n : Ptr) (p : Labels Ptr (BitVec 32) × (Ptr → Option (LinkEntry Q))) (x : Ptr) : Prop :=
  x ∈ p.1.todo ∨ x = n

/-- An edge is skipped if there is none in the other direction, else it is explored. -/
theorem Shape.relaxEdge (h : Shape s) (hs : Relabels s s') (ht : Tracks s' cand_tree p (Open n p)) {e : Ptr}
    {b : OlsrIpAddr} (he : s.view.arc e = some (n, b)) (hn : n ∉ p.1.todo)
    (hopen : p.1.cost n + s.graph.weight e < p.1.cost (s.graph.dst e) → s.graph.dst e ∈ p.1.todo) :
    ∃ s'' cand_tree', s'.relaxEdge n cand_tree e = some (s'', cand_tree') ∧ Relabels s s'' ∧
      Tracks s'' cand_tree' (if s.hasInverse e then explore s.graph n p e else p) (Open n p) := by
  obtain ⟨edge, hedge, -⟩ := exists_edge he
  have hedge' : s'.edges e = some edge := by rw [hs.edges, hedge]
  rw [TcSet.relaxEdge, Fault.bind_of_some hedge']
  cases hi : edge.edge_inv with
  | none =>
    have hnone : s.hasInverse e = false := by simp [hasInverse, inverseEdge, hedge, hi]
    rw [hnone, if_neg Bool.false_ne_true]
    exact ⟨s', cand_tree, rfl, hs, ht⟩
  | some i =>
    obtain ⟨a, y, inv, ha, hinv, htc, -, hy⟩ := h.inverse_spec he hedge hi
    have hsome : s.hasInverse e = true := by simp [hasInverse, inverseEdge, hedge, hi, hinv]
    have hdst : s.graph.dst e = y := by simp [TcSet.graph, inverseEdge, hedge, hi, hinv, htc]
    have hweight : s.graph.weight e = edge.cost := by simp [TcSet.graph, hedge]
    have hinv' : s'.edges i = some inv := by rw [hs.edges, hinv]
    obtain ⟨tn, htn, -⟩ := exists_entry ha
    obtain ⟨tn', htn', -⟩ := hs.entry htn
    obtain ⟨ty, hty, -⟩ := exists_entry hy
    obtain ⟨ty', hty', -⟩ := hs.entry hty
    rw [hsome, if_pos rfl]
    dsimp only
    rw [Fault.bind_of_some htn', Fault.bind_of_some hinv', htc, Fault.bind_of_some hty', (ht.label n tn' htn').1,
      (ht.label y ty' hty').1, ← hweight, explore, hdst]
    split
    · rename_i hlt
      have hmem : y ∈ p.1.todo := hdst ▸ hopen (by rw [hdst]; exact hlt)
      have hne : n ≠ y := fun heq => hn (heq ▸ hmem)
      obtain ⟨s'', cand_tree', hrun, hrelabels, htracks⟩ := ht.improve htn' (Or.inl hmem) hne hdst hlt
      exact ⟨s'', cand_tree', hrun, hs.trans hrelabels, htracks⟩
    · exact ⟨s', cand_tree, rfl, hs, ht⟩

section Search

variable {myself : Ptr} {first : Ptr → Option (LinkEntry Q)} {m : ℕ}

/-- The edges of a round. -/
theorem Shape.relaxEdges (h : Shape s) (hsmall : Small s.graph BitVec.toNat ROUTE_COST_BROKEN s.nodes m)
    (hmyself : myself ∈ s.nodes) (es : List (OlsrIpAddr × Ptr)) : ∀ {s' : TcSet Q} {cand_tree : CandTree}
    {p : Labels Ptr (BitVec 32) × (Ptr → Option (LinkEntry Q))}, (∀ q ∈ es, s.view.arc q.2 = some (n, q.1)) →
    Relabels s s' → Tracks s' cand_tree p (Open n p) →
    Exploring s.graph BitVec.toNat ROUTE_COST_BROKEN s.nodes myself first n
      ((es.map Prod.snd).filter s.hasInverse) p →
    (∀ e ∈ (es.map Prod.snd).filter s.hasInverse, e ∈ s.graph.out n) → ∃ s'' cand_tree' p',
      es.foldlM (fun (s, cand_tree) q => TcSet.relaxEdge s n cand_tree q.2) (s', cand_tree) = some (s'', cand_tree') ∧
      Relabels s s'' ∧ Tracks s'' cand_tree' p' (Open n p') ∧ p'.1.todo = p.1.todo ∧
      (∀ x, x ∉ p.1.todo → p'.1.cost x = p.1.cost x ∧ p'.1.hops x = p.1.hops x) ∧
      Exploring s.graph BitVec.toNat ROUTE_COST_BROKEN s.nodes myself first n [] p' := by
  induction es with
  | nil =>
    intro s' cand_tree p _ hs ht hexploring _
    exact ⟨s', cand_tree, p, rfl, hs, ht, rfl, fun _ _ => ⟨rfl, rfl⟩, hexploring⟩
  | cons q es ih =>
    intro s' cand_tree p hes hs ht hexploring hout
    have harc := hes q List.mem_cons_self
    have hes' : ∀ q' ∈ es, s.view.arc q'.2 = some (n, q'.1) := fun q' hq' => hes q' (List.mem_cons_of_mem _ hq')
    rw [List.foldlM_cons]
    rw [List.map_cons] at hexploring hout
    cases hsome : s.hasInverse q.2 with
    | false =>
      rw [List.filter_cons_of_neg (by simp [hsome])] at hexploring hout
      have hskip : s'.relaxEdge n cand_tree q.2 = some (s', cand_tree) := by
        obtain ⟨edge, hedge, -⟩ := exists_edge harc
        have hedge' : s'.edges q.2 = some edge := by rw [hs.edges, hedge]
        rw [TcSet.relaxEdge, Fault.bind_of_some hedge']
        cases hi : edge.edge_inv with
        | none => rfl
        | some i =>
          obtain ⟨-, -, inv, -, hinv, -⟩ := h.inverse_spec harc hedge hi
          simp [hasInverse, inverseEdge, hedge, hi, hinv] at hsome
      rw [Fault.bind_of_some hskip]
      exact ih hes' hs ht hexploring hout
    | true =>
      rw [List.filter_cons_of_pos hsome] at hexploring hout
      obtain ⟨hopen, hnext⟩ := hexploring.explore (measure_bitVec 32) hsmall hmyself (hout _ List.mem_cons_self)
      obtain ⟨s₁, cand₁, hrun, hs₁, ht₁⟩ := h.relaxEdge hs ht harc hexploring.settled hopen
      rw [hsome, if_pos rfl] at ht₁
      have htodo := explore_todo s.graph n p q.2
      have hsame : Open n (explore s.graph n p q.2) = Open n p := by
        unfold Open
        rw [htodo]
      obtain ⟨s'', cand', p', hrun', hs'', ht'', htodo', hkeep, hexploring'⟩ := ih hes' hs₁ (by rwa [hsame]) hnext
        fun e he => hout e (List.mem_cons_of_mem _ he)
      refine ⟨s'', cand', p', ?_, hs'', ht'', htodo'.trans htodo, fun x hx => ?_, hexploring'⟩
      · rw [Fault.bind_of_some hrun]
        exact hrun'
      · obtain ⟨hcost, hhops⟩ := hkeep x (by rwa [htodo])
        rw [hcost, hhops, explore]
        split
        · rename_i hlt
          have hne : x ≠ s.graph.dst q.2 := fun heq => hx (heq ▸ hopen hlt)
          exact ⟨Function.update_of_ne hne _ _, Function.update_of_ne hne _ _⟩
        · exact ⟨rfl, rfl⟩

theorem Tracks.congr (h : Tracks s cand_tree p candidate) {p' : Labels Ptr (BitVec 32) × (Ptr → Option (LinkEntry Q))}
    {candidate' : Ptr → Prop} (hcost : p'.1.cost = p.1.cost) (hhops : p'.1.hops = p.1.hops) (hnext : p'.2 = p.2)
    (hcandidate : ∀ x, candidate' x ↔ candidate x) : Tracks s cand_tree p' candidate' := by
  refine ⟨?_, fun x hx => h.live x ((hcandidate x).1 hx), fun c x => ?_, h.ascending, h.nodup⟩
  · rw [hcost, hhops, hnext]
    exact h.label
  · rw [hcost, hcandidate x]
    exact h.mem c x

/-- The first candidate is a vertex with the least label. -/
theorem Tracks.least {c : BitVec 32} {rest : CandTree} (h : Tracks s ((c, n) :: rest) p (· ∈ p.1.todo)) :
    Least BitVec.toNat ROUTE_COST_BROKEN p.1 n := by
  obtain ⟨hmem, hcost, hlt⟩ := (h.mem c n).1 List.mem_cons_self
  refine ⟨hmem, hcost ▸ hlt, fun v hv => ?_⟩
  by_cases hreached : p.1.cost v < ROUTE_COST_BROKEN
  · have hv' := (h.mem _ v).2 ⟨hv, rfl, hreached⟩
    rcases List.mem_cons.1 hv' with heq | hmem'
    · rw [hcost, (Prod.mk.inj heq).1]
    · have hle := (List.pairwise_cons.1 h.ascending).1 _ hmem'
      rw [hcost]
      exact hle
  · have htop := (measure_bitVec 32).le_top (p.1.cost n)
    exact Nat.le_trans htop (Nat.not_lt.1 fun hlt' => hreached (BitVec.lt_def.2 hlt'))

/-- The settled vertex is taken out of the tree. -/
theorem Tracks.settle (h : Tracks s cand_tree p (Open n p)) (hn : n ∉ p.1.todo)
    (hreached : p.1.cost n < ROUTE_COST_BROKEN) :
    s.olsr_spf_del_cand_tree cand_tree n = some (SearchTree.remove n cand_tree) ∧
      Tracks s (SearchTree.remove n cand_tree) p (· ∈ p.1.todo) := by
  have hdrop := h.dropCandidate (Or.inr rfl)
  rw [TcSet.dropCandidate, if_pos hreached] at hdrop
  refine ⟨hdrop, h.label, fun x hx => h.live x (Or.inl hx), fun c x => ?_, h.ascending.remove n, ?_⟩
  · rw [SearchTree.mem_remove, h.mem]
    constructor
    · rintro ⟨⟨hopen, hc⟩, hne⟩
      exact ⟨hopen.resolve_right hne, hc⟩
    · rintro ⟨hmem, hc⟩
      exact ⟨⟨Or.inl hmem, hc⟩, fun heq => hn (heq ▸ hmem)⟩
  · exact h.nodup.sublist (List.filter_sublist.map _)

/-- The path list contains the settled vertices in the order of their costs. -/
structure Listed (N : List Ptr) (L : Labels Ptr (BitVec 32)) (path_list : List Ptr) : Prop where
  nodup : path_list.Nodup
  mem : ∀ x, x ∈ path_list ↔ x ∈ N ∧ x ∉ L.todo
  ascending : path_list.Pairwise fun x y => L.cost x ≤ L.cost y

theorem Listed.snoc {N path_list : List Ptr} {L L' : Labels Ptr (BitVec 32)} (h : Listed N L path_list)
    (hnodup : L.todo.Nodup) (hN : n ∈ N) (hn : n ∈ L.todo) (htodo : L'.todo = L.todo.erase n)
    (hcost : ∀ x, x ∉ L.todo.erase n → L'.cost x = L.cost x) (hle : ∀ x ∈ N, x ∉ L.todo → L.cost x ≤ L.cost n) :
    Listed N L' (path_list ++ [n]) := by
  have hkeep : ∀ x, x ∉ L.todo → L'.cost x = L.cost x := fun x hx => hcost x fun hmem => hx (List.mem_of_mem_erase hmem)
  have hsame : L'.cost n = L.cost n := hcost n (List.Nodup.not_mem_erase hnodup)
  refine ⟨?_, fun x => ?_, ?_⟩
  · rw [List.nodup_append]
    refine ⟨h.nodup, List.nodup_singleton n, fun x hx y hy hxy => ?_⟩
    rw [List.mem_singleton] at hy
    subst hy hxy
    exact ((h.mem x).1 hx).2 hn
  · rw [List.mem_append, List.mem_singleton, h.mem, htodo, hnodup.mem_erase_iff]
    constructor
    · rintro (⟨hx, hxt⟩ | rfl)
      · exact ⟨hx, fun hmem => hxt hmem.2⟩
      · exact ⟨hN, fun hmem => hmem.1 rfl⟩
    · rintro ⟨hx, hxt⟩
      by_cases hxn : x = n
      · exact Or.inr hxn
      · exact Or.inl ⟨hx, fun hmem => hxt ⟨hxn, hmem⟩⟩
  · rw [List.pairwise_append]
    refine ⟨h.ascending.imp_of_mem fun {x y} hx hy hxy => ?_, List.pairwise_singleton _ _, fun x hx y hy => ?_⟩
    · rwa [hkeep x ((h.mem x).1 hx).2, hkeep y ((h.mem y).1 hy).2]
    · obtain ⟨hxN, hxt⟩ := (h.mem x).1 hx
      rw [List.mem_singleton] at hy
      rw [hy, hkeep x hxt, hsame]
      exact hle x hxN hxt

theorem Shape.olsr_spf_relax (h : Shape s) (hsmall : Small s.graph BitVec.toNat ROUTE_COST_BROKEN s.nodes m)
    (hmyself : myself ∈ s.nodes) (hs : Relabels s s') (hn : n ∈ s.nodes) (ht : Tracks s' cand_tree p (Open n p))
    (hexploring : Exploring s.graph BitVec.toNat ROUTE_COST_BROKEN s.nodes myself first n (s.graph.out n) p) :
    ∃ s'' cand_tree' p', s'.olsr_spf_relax cand_tree n = some (s'', cand_tree') ∧
      Relabels s s'' ∧ Tracks s'' cand_tree' p' (Open n p') ∧ p'.1.todo = p.1.todo ∧
      (∀ x, x ∉ p.1.todo → p'.1.cost x = p.1.cost x ∧ p'.1.hops x = p.1.hops x) ∧
      Exploring s.graph BitVec.toNat ROUTE_COST_BROKEN s.nodes myself first n [] p' := by
  obtain ⟨a, ha⟩ := h.mem_nodes.1 hn
  obtain ⟨tc, htc, -⟩ := exists_entry ha
  obtain ⟨tc', htc', hsame⟩ := hs.entry htc
  have hout : s.graph.out n = (tc.edge_tree.map Prod.snd).filter s.hasInverse := by
    simp [TcSet.graph, htc]
  rw [hout] at hexploring
  have hedges := h.relaxEdges hsmall hmyself tc.edge_tree (fun q hq => (h.mem_edges n tc htc q.1 q.2).1 hq) hs ht hexploring
    fun e he => hout ▸ he
  rw [TcSet.olsr_spf_relax, Fault.bind_of_some htc', (unlabelled_fields hsame).2.1]
  exact hedges

/-- The loop ends, with the path list of all vertices that are reached. -/
theorem Shape.olsr_spf_run_full (h : Shape s) (hsmall : Small s.graph BitVec.toNat ROUTE_COST_BROKEN s.nodes m)
    (hmyself : myself ∈ s.nodes) (fuel : ℕ) : ∀ {s' : TcSet Q} {cand_tree : CandTree}
    {p : Labels Ptr (BitVec 32) × (Ptr → Option (LinkEntry Q))} {path_list : List Ptr}, p.1.todo.length < fuel →
    Relabels s s' → Tracks s' cand_tree p (· ∈ p.1.todo) →
    Searching s.graph BitVec.toNat ROUTE_COST_BROKEN s.nodes myself first p → Listed s.nodes p.1 path_list →
    ∃ s'' p' path_list', TcSet.olsr_spf_run_full fuel s' cand_tree path_list = some (s'', path_list') ∧
      Relabels s s'' ∧ Tracks s'' [] p' (· ∈ p'.1.todo) ∧
      Searching s.graph BitVec.toNat ROUTE_COST_BROKEN s.nodes myself first p' ∧ Listed s.nodes p'.1 path_list' ∧
      p'.1.hops myself = p.1.hops myself := by
  induction fuel with
  | zero => exact fun hfuel => absurd hfuel (Nat.not_lt_zero _)
  | succ fuel ih =>
    intro s' cand_tree p path_list hfuel hs ht hsearching hlisted
    cases cand_tree with
    | nil => exact ⟨s', p, path_list, rfl, hs, ht, hsearching, hlisted, rfl⟩
    | cons q rest =>
      obtain ⟨c, n⟩ := q
      have hleast := ht.least
      have hexploring := hsearching.settle hleast
      have hnodup := hsearching.forest.nodup
      have hn := hexploring.mem
      -- the vertex is settled, but still in the tree
      have ht₁ : Tracks s' ((c, n) :: rest) ({ p.1 with todo := p.1.todo.erase n }, p.2)
          (Open n ({ p.1 with todo := p.1.todo.erase n }, p.2)) := by
        refine ht.congr rfl rfl rfl fun x => ?_
        unfold Open
        rw [hnodup.mem_erase_iff]
        constructor
        · rintro (hx | rfl)
          · exact hx.2
          · exact hleast.mem
        · intro hx
          by_cases hxn : x = n
          · exact Or.inr hxn
          · exact Or.inl ⟨hxn, hx⟩
      obtain ⟨s₂, cand₂, p₂, hrun₂, hs₂, ht₂, htodo₂, hkeep₂, hexploring₂⟩ :=
        h.olsr_spf_relax hsmall hmyself hs hn ht₁ hexploring
      have hreached : p₂.1.cost n < ROUTE_COST_BROKEN := by
        rw [(hkeep₂ n hexploring.settled).1]
        exact hleast.reached
      obtain ⟨hdel, ht₃⟩ := ht₂.settle hexploring₂.settled hreached
      obtain ⟨k, hordered⟩ := hsearching.ordered
      have hlisted₂ : Listed s.nodes p₂.1 (path_list ++ [n]) :=
        hlisted.snoc hnodup hn hleast.mem htodo₂ (fun x hx => (hkeep₂ x hx).1)
          fun x hx hxt => hordered.settled x hx hxt n hleast.mem
      have hlength : p₂.1.todo.length < fuel := by
        have hpos := List.length_pos_of_mem hleast.mem
        rw [htodo₂, List.length_erase_of_mem hleast.mem]
        omega
      obtain ⟨s'', p', path_list', hrun, hs'', ht', hsearching', hlisted', hhops⟩ :=
        ih hlength hs₂ ht₃ hexploring₂.finish hlisted₂
      refine ⟨s'', p', path_list', ?_, hs'', ht', hsearching', hlisted', ?_⟩
      · rw [TcSet.olsr_spf_run_full]
        dsimp only
        rw [Fault.bind_of_some hrun₂]
        dsimp only
        rw [Fault.bind_of_some hdel]
        exact hrun
      · rw [hhops, (hkeep₂ myself hexploring.source).2]

end Search

end TcSet

end MpOlsr
