import MpOlsr.Olsr.SpfRounds

/-!
# Routes

`olsr_calculate_routing_table` as a whole: the vertices are initialized, the edges to the symmetric neighbours are
brought up to date (`Neighbors`), and the algorithm finds the shortest paths (`Shape.olsr_calculate_routing_table`).
-/

namespace MpOlsr

open Dijkstra

namespace TcView

variable {Q : Type} {H : LqHandler Q} {V V' V'' : TcView Q} {myself x e : Ptr} {main b c : OlsrIpAddr}
  {neigh : SymNeighbor Q} {done : List (SymNeighbor Q)}

/-- The last word on the link to an address. -/
def linkTo (neighbours : List (SymNeighbor Q)) (c : OlsrIpAddr) : Option (Option (LinkEntry Q)) :=
  neighbours.reverse.lookup c

theorem linkTo_snoc : linkTo (done ++ [neigh]) c = if c == neigh.1 then some neigh.2 else linkTo done c := by
  unfold linkTo
  rw [List.reverse_append, List.reverse_singleton, List.singleton_append, List.lookup_cons]
  split <;> simp_all

theorem linkTo_single (neigh : SymNeighbor Q) (c : OlsrIpAddr) :
    linkTo [neigh] c = if c == neigh.1 then some neigh.2 else none := by
  unfold linkTo
  rw [List.reverse_singleton, List.lookup_cons]
  split <;> simp_all

theorem mem_of_linkTo {link : Option (LinkEntry Q)} (h : linkTo done c = some link) : (c, link) ∈ done :=
  List.mem_reverse.1 (SearchTree.mem_of_lookup h)

/-- What symmetric neighbours do to the set of the node `myself` with the address `main`: its edges to those that have a
link are there, and the links become the next hops of those that have edges to `myself`. -/
structure Neighbors (H : LqHandler Q) (myself : Ptr) (main : OlsrIpAddr) (done : List (SymNeighbor Q)) (V V' : TcView Q) :
    Prop where
  addr : V'.addr = V.addr
  tc_myself : V'.tc_myself = V.tc_myself
  validity_timer : V'.validity_timer = V.validity_timer
  edge_gc_timer : V'.edge_gc_timer = V.edge_gc_timer
  label : ∀ x d', V'.node x = some d' → ∃ d, V.node x = some d ∧ d' = { d with next_hop := d'.next_hop } ∧
    (d.next_hop.isSome = true → d'.next_hop.isSome = true) ∧
    ∀ link, d'.next_hop = some link → d.next_hop = some link ∨ (d.addr, some link) ∈ done
  hop : ∀ link x d', x ≠ myself → V'.node x = some d' → (d'.addr, some link) ∈ done → (∃ i, V.arc i = some (x, main)) →
    d'.next_hop.isSome = true
  arcs : ∀ x c, (∃ e, V'.arc e = some (x, c)) ↔
    if x = myself then (match linkTo done c with | none => ∃ e, V.arc e = some (x, c) | some link => link.isSome = true)
    else ∃ e, V.arc e = some (x, c)
  costs : ∀ C : BitVec 32 → Prop, (∀ q, C (H.calc_tc_cost q)) → C 0 → (∀ e d, V.link e = some d → C d.cost) →
    ∀ e d, V'.link e = some d → C d.cost

variable (H myself main) in
theorem neighbors_nil (V : TcView Q) : Neighbors H myself main [] V V where
  addr := rfl
  tc_myself := rfl
  validity_timer := rfl
  edge_gc_timer := rfl
  label := fun x d hd => ⟨d, hd, rfl, fun h => h, fun link hlink => Or.inl hlink⟩
  hop := by simp
  arcs := by simp [linkTo]
  costs := fun _ _ _ hV => hV

theorem Neighbors.snoc (h : Neighbors H myself main done V V') (h' : Neighbors H myself main [neigh] V' V'') :
    Neighbors H myself main (done ++ [neigh]) V V'' where
  addr := h'.addr.trans h.addr
  tc_myself := h'.tc_myself.trans h.tc_myself
  validity_timer := h'.validity_timer.trans h.validity_timer
  edge_gc_timer := h'.edge_gc_timer.trans h.edge_gc_timer
  label := by
    intro x d'' hd''
    obtain ⟨d', hd', hsame', hkeep', hhop'⟩ := h'.label x d'' hd''
    obtain ⟨d, hd, hsame, hkeep, hhop⟩ := h.label x d' hd'
    have haddr : d'.addr = d.addr := by rw [hsame]
    refine ⟨d, hd, ?_, fun hsome => hkeep' (hkeep hsome), fun link hlink => ?_⟩
    · rw [hsame', hsame]
    · rw [List.mem_append]
      rcases hhop' link hlink with hold | hnew
      · exact (hhop link hold).imp_right Or.inl
      · exact Or.inr (Or.inr (haddr ▸ hnew))
  hop := by
    intro link x d'' hx hd'' hmem harc
    obtain ⟨d', hd', hsame', hkeep', -⟩ := h'.label x d'' hd''
    have haddr : d''.addr = d'.addr := by rw [hsame']
    rcases List.mem_append.1 hmem with hmem | hmem
    · exact hkeep' (h.hop link x d' hx hd' (haddr ▸ hmem) harc)
    · refine h'.hop link x d'' hx hd'' hmem ?_
      rw [h.arcs, if_neg hx]
      exact harc
  arcs := by
    intro x c
    rw [h'.arcs, linkTo_snoc, linkTo_single]
    by_cases hx : x = myself
    · subst hx
      cases hc : c == neigh.1 <;> simp [h.arcs x c]
    · simp [h.arcs x c, hx]
  costs := fun C hcalc hzero hV => h'.costs C hcalc hzero (h.costs C hcalc hzero hV)

end TcView

namespace TcSet

open TcView

variable {Q : Type} {cnf : OlsrCnf} {H : LqHandler Q} {s : TcSet Q} {myself : Ptr} {main : OlsrIpAddr}

variable (cnf H) in
/-- The edge to a neighbour with a link is there afterwards. -/
theorem Shape.neighborEdge (h : Shape s) (hmyself : s.view.addr myself = some main) {b : OlsrIpAddr} (link : LinkEntry Q)
    {tc_edge : Option Ptr} (hfound : ∀ e, tc_edge = some e ↔ s.view.arc e = some (myself, b)) : ∃ s' e n,
    s.neighborEdge cnf H myself b link tc_edge = some (s', e) ∧ Shape s' ∧ Renews H e myself b n s.view s'.view ∧
      (s.view.arc e = none ∨ s.view.arc e = some (myself, b)) := by
  cases tc_edge with
  | none =>
    have hnew : ∀ e, s.view.arc e ≠ some (myself, b) := fun e he => by simpa using (hfound e).2 he
    obtain ⟨tc, htc, -⟩ := exists_entry hmyself
    obtain ⟨s', hrun, hs', hview⟩ := h.olsr_add_tc_edge_entry cnf H htc hnew 0
    refine ⟨s', s.brk, 0, hrun, hs', ?_, Or.inl h.fresh_arc⟩
    rw [hview]
    exact ⟨⟨rfl, rfl, rfl, rfl⟩, _, rfl, rfl, rfl, rfl, cost_newEdge 0⟩
  | some e =>
    have harc := (hfound e).1 rfl
    obtain ⟨edge, he, rfl, rfl⟩ := exists_edge harc
    obtain ⟨s₁, hrun₁, hs₁, hview₁⟩ := h.setEdge he (f := fun edge => { edge with linkquality := link.linkquality })
      (fun _ => ⟨rfl, rfl⟩) rfl rfl
    have hrenews₁ : Renews H e edge.tc edge.T_dest_addr edge.ansn s.view s₁.view := by
      rw [hview₁]
      exact renews_setLink (link_eq he) (fun edge => { edge with linkquality := link.linkquality }) rfl rfl
        (Or.inr (Or.inr ⟨_, link_eq he, rfl⟩))
    obtain ⟨d₁, hd₁, htc₁, hdest₁, hansn₁⟩ := hrenews₁.link_self
    obtain ⟨s₂, relevant, hrun₂, hs₂, hrenews₂⟩ := hs₁.renews_etx cnf H hd₁
    rw [htc₁, hdest₁, hansn₁] at hrenews₂
    refine ⟨s₂, e, edge.ansn, ?_, hs₂, hrenews₁.trans hrenews₂, Or.inr harc⟩
    rw [TcSet.neighborEdge, Fault.bind_of_some hrun₁, Fault.bind_of_some hrun₂]
    rfl

/-- The edges after one has been renewed. -/
theorem exists_arc_of_renews {V V' : TcView Q} {e x : Ptr} {b : OlsrIpAddr} {n : BitVec 16}
    (h : Renews H e x b n V V') (hold : V.arc e = none ∨ V.arc e = some (x, b)) (y : Ptr) (c : OlsrIpAddr) :
    (∃ e', V'.arc e' = some (y, c)) ↔ (y = x ∧ c = b) ∨ ∃ e', V.arc e' = some (y, c) := by
  obtain ⟨d, hlink, htc, hdest, -, -⟩ := h.link
  have harc : V'.arc = Function.update V.arc e (some (x, b)) := by
    funext e'
    unfold TcView.arc
    rw [hlink]
    by_cases he : e' = e
    · subst he
      simp [htc, hdest]
    · simp [he]
  rw [harc]
  constructor
  · rintro ⟨e', he'⟩
    by_cases he : e' = e
    · subst he
      rw [Function.update_self, Option.some_inj, Prod.mk.injEq] at he'
      exact Or.inl ⟨he'.1.symm, he'.2.symm⟩
    · rw [Function.update_of_ne he] at he'
      exact Or.inr ⟨e', he'⟩
  · rintro (⟨rfl, rfl⟩ | ⟨e', he'⟩)
    · exact ⟨e, Function.update_self ..⟩
    · by_cases he : e' = e
      · subst he
        rcases hold with hnone | hsame
        · rw [hnone] at he'
          exact absurd he' (by simp)
        · refine ⟨e', ?_⟩
          rw [Function.update_self, ← hsame, he']
      · exact ⟨e', by rw [Function.update_of_ne he, he']⟩

variable (cnf H) in
theorem Shape.updateNeighbor (h : Shape s) (hmyself : s.view.addr myself = some main) {neigh : SymNeighbor Q}
    (hmain : neigh.1 ≠ main) : ∃ s', s.updateNeighbor cnf H myself neigh = some s' ∧ Shape s' ∧
      Neighbors H myself main [neigh] s.view s'.view := by
  obtain ⟨b, link⟩ := neigh
  obtain ⟨tc, htc, -⟩ := exists_entry hmyself
  obtain ⟨found, hlookup, hfound⟩ := h.olsr_lookup_tc_edge htc b
  rw [TcSet.updateNeighbor, Fault.bind_of_some hlookup]
  cases link with
  | none =>
    cases found with
    | none =>
      have hnew : ¬ ∃ e, s.view.arc e = some (myself, b) := fun ⟨e, he⟩ => by simpa using (hfound e).2 he
      refine ⟨s, rfl, h, { neighbors_nil H myself main s.view with
        label := fun x d hd => ⟨d, hd, rfl, fun hsome => hsome, fun link hlink => Or.inl hlink⟩
        hop := by simp
        arcs := fun x c => ?_ }⟩
      rw [linkTo_single]
      by_cases hx : x = myself
      · cases hc : c == b with
        | true =>
          obtain rfl := eq_of_beq hc
          simpa [hx] using hnew
        | false => simp [hx]
      · simp [hx]
    | some e =>
      have harc := (hfound e).1 rfl
      obtain ⟨s', hrun, hs', hview⟩ := h.olsr_delete_tc_edge_entry harc
      refine ⟨s', hrun, hs', ?_⟩
      rw [hview]
      refine ⟨rfl, rfl, rfl, rfl, fun x d hd => ⟨d, hd, rfl, fun hsome => hsome, fun link hlink => Or.inl hlink⟩, by simp,
        fun x c => ?_, fun C _ _ hV e' d hd => ?_⟩
      · rw [linkTo_single]
        have hother : (∃ e', (s.view.removeLink e).arc e' = some (x, c)) ↔
            (∃ e', s.view.arc e' = some (x, c)) ∧ ¬ (x = myself ∧ c = b) := by
          constructor
          · rintro ⟨e', he'⟩
            have hne : e' ≠ e := by
              rintro rfl
              simp [removeLink, TcView.arc] at he'
            rw [arc_removeLink hne] at he'
            refine ⟨⟨e', he'⟩, ?_⟩
            rintro ⟨rfl, rfl⟩
            exact hne (h.ends_inj e' e _ (ends_iff.2 ⟨x, he', hmyself⟩) (ends_iff.2 ⟨x, harc, hmyself⟩))
          · rintro ⟨⟨e', he'⟩, hnot⟩
            have hne : e' ≠ e := by
              rintro rfl
              rw [harc, Option.some_inj, Prod.mk.injEq] at he'
              exact hnot ⟨he'.1.symm, he'.2.symm⟩
            exact ⟨e', by rw [arc_removeLink hne, he']⟩
        rw [hother]
        by_cases hx : x = myself
        · cases hc : c == b with
          | true => simp [hx, eq_of_beq hc]
          | false =>
            have hcb : c ≠ b := by simpa using hc
            simp [hx, hcb]
        · simp [hx]
      · by_cases hne : e' = e
        · subst hne
          simp [removeLink] at hd
        · rw [link_removeLink hne] at hd
          exact hV e' d hd
  | some link =>
    obtain ⟨s₁, e, n, hrun₁, hs₁, hrenews, hold⟩ := h.neighborEdge cnf H hmyself link hfound
    have haddr₁ : s₁.view.addr = s.view.addr := hrenews.addr
    obtain ⟨d, hd, htcd, hdest, -⟩ := hrenews.link_self
    obtain ⟨edge, hedge, rfl⟩ := exists_link hd
    have harc₁ : s₁.view.arc e = some (myself, b) := by
      rw [arc_eq hedge]
      exact congrArg some (Prod.ext htcd hdest)
    have hends₁ : s₁.view.ends e = some (main, b) := ends_iff.2 ⟨myself, harc₁, by rw [haddr₁, hmyself]⟩
    have hptr : s₁.inv e = some edge.edge_inv := by rw [TcSet.inv, hedge, Option.map_some]
    have harcs : ∀ x c, (∃ e, s₁.view.arc e = some (x, c)) ↔ if x = myself then
        (match linkTo [(b, some link)] c with
          | none => ∃ e, s.view.arc e = some (x, c)
          | some link => link.isSome = true)
        else ∃ e, s.view.arc e = some (x, c) := by
      intro x c
      rw [exists_arc_of_renews hrenews hold, linkTo_single]
      by_cases hx : x = myself
      · cases hc : c == b with
        | true => simp [hx, eq_of_beq hc]
        | false =>
          have hcb : c ≠ b := by simpa using hc
          simp [hx, hcb]
      · simp [hx]
    dsimp only
    rw [Fault.bind_of_some hrun₁]
    dsimp only
    rw [Fault.bind_of_some hedge]
    cases hi : edge.edge_inv with
    | none =>
      refine ⟨s₁, rfl, hs₁, haddr₁, hrenews.tc_myself, hrenews.validity_timer, hrenews.edge_gc_timer,
        fun x d hd => ⟨d, by rw [← hrenews.node, hd], rfl, fun hsome => hsome, fun link hlink => Or.inl hlink⟩, ?_, harcs,
        fun C hcalc hzero hV => hrenews.costs hcalc hzero hV⟩
      -- a node with an edge to `myself` would be what the pointer leads to
      intro link' x d' hx hd' hmem hback
      rw [List.mem_singleton, Prod.mk.injEq] at hmem
      have hx' : s₁.view.addr x = some b := by rw [TcView.addr, hd', Option.map_some, hmem.1]
      obtain ⟨i, hi'⟩ := (exists_arc_of_renews hrenews hold x main).2 (Or.inr hback)
      rw [(hs₁.inverse e _ (main, b) hptr hends₁ i).2 (ends_iff.2 ⟨x, hi', hx'⟩)] at hi
      exact absurd hi (by simp)
    | some i =>
      obtain ⟨a, y, inv, ha, hinv, rfl, -, hy⟩ := hs₁.inverse_spec harc₁ hedge hi
      obtain ⟨ty, hty, -⟩ := exists_entry hy
      obtain ⟨s₂, hrun₂, hs₂, hview₂⟩ := hs₁.setEntry hty (f := fun tc => { tc with next_hop := some link })
        (g := fun tc => { tc with next_hop := some link }) (fun _ => rfl) rfl rfl (hs₁.refcount _ ty hty)
      have hnode : ∀ x, s₂.view.node x = if x = inv.tc then (s.view.node x).map fun tc =>
          { tc with next_hop := some link } else s.view.node x := by
        intro x
        rw [hview₂, ← hrenews.node, setNode]
        by_cases hx : x = inv.tc
        · subst hx
          simp
        · simp [hx]
      have haddr₂ : s₂.view.addr = s.view.addr := by
        have hset := addr_setNode (V := s₁.view) (x := inv.tc) (f := fun tc => { tc with next_hop := some link })
          fun _ => rfl
        rw [hview₂, hset, haddr₁]
      refine ⟨s₂, ?_, hs₂, haddr₂, ?_, ?_, ?_, ?_, ?_, ?_, ?_⟩
      · dsimp only
        rw [Fault.bind_of_some hinv, hrun₂]
      · rw [hview₂]
        exact hrenews.tc_myself
      · rw [hview₂]
        exact hrenews.validity_timer
      · rw [hview₂]
        exact hrenews.edge_gc_timer
      · intro x d' hd'
        rw [hnode] at hd'
        split at hd'
        · rename_i hx
          subst hx
          obtain ⟨d, hd, rfl⟩ := Option.map_eq_some_iff.1 hd'
          refine ⟨d, hd, rfl, fun _ => rfl, fun link' hlink' => Or.inr ?_⟩
          have haddr : d.addr = b := by
            rw [haddr₁, TcView.addr, hd, Option.map_some, Option.some_inj] at hy
            exact hy
          simp_all
        · exact ⟨d', hd', rfl, fun hsome => hsome, fun link' hlink' => Or.inl hlink'⟩
      · intro link' x d' hx hd' hmem hback
        rw [List.mem_singleton, Prod.mk.injEq] at hmem
        have hx' : s₁.view.addr x = some b := by
          rw [haddr₁, ← haddr₂, TcView.addr, hd', Option.map_some, hmem.1]
        obtain rfl := hs₁.addr_inj hx' hy
        rw [hnode, if_pos rfl] at hd'
        obtain ⟨d, -, rfl⟩ := Option.map_eq_some_iff.1 hd'
        rfl
      · rw [hview₂]
        exact harcs
      · intro C hcalc hzero hV
        rw [hview₂]
        exact hrenews.costs hcalc hzero hV

variable (cnf H) in
theorem Shape.updateNeighbors (h : Shape s) (hmyself : s.view.addr myself = some main)
    {neighbours : List (SymNeighbor Q)} (hmain : ∀ neigh ∈ neighbours, neigh.1 ≠ main) : ∃ s',
    neighbours.foldlM (fun s neigh => TcSet.updateNeighbor cnf H s myself neigh) s = some s' ∧ Shape s' ∧
      Neighbors H myself main neighbours s.view s'.view := by
  obtain ⟨s', hrun, hs', hneighbors⟩ := Fault.foldlM_invariant
    (fun done s' => Shape s' ∧ Neighbors H myself main done s.view s'.view) (s := s) ⟨h, neighbors_nil H myself main _⟩
    (f := fun s neigh => TcSet.updateNeighbor cnf H s myself neigh) (l := neighbours) fun done neigh rest s₁ hsplit ⟨hs₁, hdone⟩ => by
      have hmyself₁ : s₁.view.addr myself = some main := by rw [hdone.addr, hmyself]
      have hmem : neigh ∈ neighbours := by rw [hsplit]; exact List.mem_append_right _ List.mem_cons_self
      obtain ⟨s₂, hrun₂, hs₂, hstep⟩ := hs₁.updateNeighbor cnf H hmyself₁ (hmain neigh hmem)
      exact ⟨s₂, hrun₂, hs₂, hdone.snoc hstep⟩
  exact ⟨s', hrun, hs', hneighbors⟩

/-- All vertices are initialized. -/
theorem Shape.initVertices (h : Shape s) : ∃ s', s.initVertices = some s' ∧ Relabels s s' ∧
    ∀ x tc, s'.entries x = some tc → tc.unlabelled = tc := by
  obtain ⟨s', hrun, hs', hdone⟩ := Fault.foldlM_invariant
    (fun done s' => Relabels s s' ∧ ∀ p ∈ done, ∀ tc, s'.entries p.2 = some tc → tc.unlabelled = tc) (s := s)
    ⟨.refl s, by simp⟩ (f := fun s p => s.setEntry p.2 TcEntry.unlabelled) (l := s.tc_tree) fun done p rest s₁ hsplit
    ⟨hs₁, hdone⟩ => by
      have hmem : p ∈ s.tc_tree := by rw [hsplit]; exact List.mem_append_right _ List.mem_cons_self
      obtain ⟨tc, htc, -⟩ := exists_entry ((h.mem_tree p.1 p.2).1 hmem)
      obtain ⟨tc', htc', -⟩ := hs₁.entry htc
      refine ⟨_, setEntry_eq htc' _, hs₁.setEntry htc' rfl, fun q hq tc'' htc'' => ?_⟩
      by_cases hqp : q.2 = p.2
      · rw [hqp] at htc''
        obtain rfl : tc'.unlabelled = tc'' := by simpa using htc''
        rfl
      · rw [List.mem_append, List.mem_singleton] at hq
        rcases hq with hq | rfl
        · exact hdone q hq tc'' (by simpa [hqp] using htc'')
        · exact absurd rfl hqp
  refine ⟨s', hrun, hs', fun x tc htc => ?_⟩
  obtain ⟨tc', htc', -⟩ := hs'.symm.entry htc
  exact hdone (tc'.addr, x) ((h.mem_tree _ x).2 (addr_eq htc')) tc htc

/-- Sets with the same addresses have the same nodes. -/
theorem Trees.nodes_perm {s' : TcSet Q} (h : Trees s) (h' : Trees s') (haddr : s'.view.addr = s.view.addr) :
    s'.nodes.Perm s.nodes := by
  rw [List.perm_ext_iff_of_nodup h'.nodup_nodes h.nodup_nodes]
  intro x
  rw [h'.mem_nodes, h.mem_nodes, haddr]

/-- The total cost of edges. -/
def total (s : TcSet Q) (es : List Ptr) : ℕ := (es.map fun e => (s.graph.weight e).toNat).sum

/-- The labels are those of the shortest paths from `myself`, along edges that are advertised in both directions; the
next hop is the link to the first neighbour on such a path, if every edge of `myself` leads to a neighbour with a link.
The list contains the nodes that are reached, in the order of their costs. -/
structure Calculated (s : TcSet Q) (myself : Ptr) (neighbours : List (SymNeighbor Q)) (path_list : List Ptr) : Prop where
  broken_iff : ∀ x tc, s.entries x = some tc →
    (tc.path_cost = ROUTE_COST_BROKEN ↔ ¬ ∃ es, Walk s.graph myself x es)
  least : ∀ x tc es, s.entries x = some tc → Walk s.graph myself x es → tc.path_cost.toNat ≤ s.total es
  path : ∀ x tc, s.entries x = some tc → tc.path_cost ≠ ROUTE_COST_BROKEN → ∃ es, Walk s.graph myself x es ∧
    tc.path_cost.toNat = s.total es ∧ tc.hops = BitVec.ofNat 8 es.length ∧
    ((∀ e b, s.view.arc e = some (myself, b) → ∃ link, (b, some link) ∈ neighbours) → x ≠ myself →
      ∃ e es' b link, es = e :: es' ∧ s.view.arc e = some (myself, b) ∧ (b, some link) ∈ neighbours ∧
        tc.next_hop = some link)
  nodup : path_list.Nodup
  mem : ∀ x, x ∈ path_list ↔ ∃ tc, s.entries x = some tc ∧ tc.path_cost ≠ ROUTE_COST_BROKEN
  ascending : path_list.Pairwise fun x y => ∀ tx ty, s.entries x = some tx → s.entries y = some ty →
    tx.path_cost ≤ ty.path_cost

/-- The labels before the algorithm. -/
def startLabels (s : TcSet Q) (myself : Ptr) : Labels Ptr (BitVec 32) × (Ptr → Option (LinkEntry Q)) :=
  (⟨fun x => if x = myself then ZERO_ROUTE_COST else ROUTE_COST_BROKEN, fun _ => none, fun _ => 0, s.nodes⟩,
    fun x => (s.entries x).bind TcEntry.next_hop)

theorem Shape.small (h : Shape s) (hcosts : ∀ e d, s.view.link e = some d → d.cost ≤ LINK_COST_BROKEN)
    (hcount : s.tc_tree.length ≤ 1023) :
    Small s.graph BitVec.toNat ROUTE_COST_BROKEN s.nodes LINK_COST_BROKEN.toNat where
  out := by
    intro v _ e he
    obtain ⟨a, b, i, -, -, -, hdst⟩ := h.mem_out.1 he
    exact h.mem_nodes.2 ⟨b, hdst⟩
  weight := by
    intro v e he
    obtain ⟨a, b, i, harc, -⟩ := h.mem_out.1 he
    obtain ⟨edge, hedge, -⟩ := exists_edge harc
    have hle := hcosts e edge.data (link_eq hedge)
    rw [TcSet.graph]
    dsimp only
    rw [hedge, Option.elim_some]
    exact hle
  top := by
    have hbroken : LINK_COST_BROKEN.toNat = 4194304 := rfl
    have htop : ROUTE_COST_BROKEN.toNat = 4294967295 := rfl
    rw [nodes, List.length_map, hbroken, htop]
    omega

/-- From the labels at the start, the algorithm calculates the shortest paths. -/
theorem Shape.calculated (h : Shape s) (hmyself : s.view.addr myself = some main)
    (hcosts : ∀ e d, s.view.link e = some d → d.cost ≤ LINK_COST_BROKEN) (hcount : s.tc_tree.length ≤ 1023)
    {neighbours : List (SymNeighbor Q)} (hmain : ∀ neigh ∈ neighbours, neigh.1 ≠ main)
    (hstart : ∀ x tc, s.entries x = some tc →
      tc.path_cost = (if x = myself then ZERO_ROUTE_COST else ROUTE_COST_BROKEN) ∧ tc.hops = 0)
    (hnext : ∀ x tc link, s.entries x = some tc → tc.next_hop = some link → (tc.addr, some link) ∈ neighbours)
    (hset : ∀ x tc link, x ≠ myself → s.entries x = some tc → (tc.addr, some link) ∈ neighbours →
      (∃ i, s.view.arc i = some (x, main)) → tc.next_hop.isSome = true) (fuel : ℕ) (hfuel : s.tc_tree.length < fuel) :
    ∃ s' path_list, TcSet.olsr_spf_run_full fuel s [(ZERO_ROUTE_COST, myself)] [] = some (s', path_list) ∧
      Relabels s s' ∧ Calculated s' myself neighbours path_list := by
  have hm := measure_bitVec 32
  have hsmall := h.small hcosts hcount
  have hmem : myself ∈ s.nodes := h.mem_nodes.2 ⟨main, hmyself⟩
  obtain ⟨tm, htm, haddrm⟩ := exists_entry hmyself
  have hsource : (s.entries myself).bind TcEntry.next_hop = none := by
    rw [htm, Option.bind_some]
    cases hlink : tm.next_hop with
    | none => rfl
    | some link => exact absurd haddrm (hmain _ (hnext myself tm link htm hlink))
  have htracks : Tracks s [(ZERO_ROUTE_COST, myself)] (s.startLabels myself) (· ∈ (s.startLabels myself).1.todo) := by
    refine ⟨fun x tc hx => ?_, fun x hx => ?_, fun c x => ?_, List.pairwise_singleton _ _, List.nodup_singleton _⟩
    · obtain ⟨hcost, hhops⟩ := hstart x tc hx
      exact ⟨hcost, hhops, by simp [startLabels, hx]⟩
    · obtain ⟨a, ha⟩ := h.mem_nodes.1 hx
      obtain ⟨tc, htc, -⟩ := exists_entry ha
      simp [liveEntry, htc]
    · rw [List.mem_singleton, Prod.mk.injEq]
      constructor
      · rintro ⟨rfl, rfl⟩
        exact ⟨hmem, if_pos rfl, by decide⟩
      · rintro ⟨-, hcost, hlt⟩
        by_cases hx : x = myself
        · exact ⟨by rw [← hcost]; exact if_pos hx, hx⟩
        · have hbroken : c = ROUTE_COST_BROKEN := by rw [← hcost]; exact if_neg hx
          rw [hbroken] at hlt
          exact absurd hlt (by decide)
  have hsearching : Searching s.graph BitVec.toNat ROUTE_COST_BROKEN s.nodes myself (s.startLabels myself).2
      (s.startLabels myself) :=
    searching_start hm h.nodup_nodes (by simp [ZERO_ROUTE_COST]) (fun v _ hv => if_neg hv) hsource
  have hlisted : Listed s.nodes (s.startLabels myself).1 [] := by
    refine ⟨List.nodup_nil, fun x => ?_, List.Pairwise.nil⟩
    simp [startLabels]
  obtain ⟨s', p, path_list, hrun, hs', htracks', hsearching', hlisted', hhops⟩ :=
    h.olsr_spf_run_full hsmall hmem fuel (by simpa [startLabels, nodes] using hfuel) (.refl s) htracks hsearching hlisted
  have hshape' := hs'.shape h
  have hgraph := hs'.graph
  have hview : s'.view.arc = s.view.arc := by
    funext e
    simp [view, TcView.arc, hs'.edges]
  have hdone : ∀ v ∈ p.1.todo, ¬ p.1.cost v < ROUTE_COST_BROKEN := by
    intro v hv hlt
    exact absurd ((htracks'.mem _ v).2 ⟨hv, rfl, hlt⟩) List.not_mem_nil
  have hcorrect : ∀ x tc, s'.entries x = some tc → x ∈ s.nodes ∧ tc.path_cost = p.1.cost x ∧
      tc.hops = BitVec.ofNat 8 (p.1.hops x) ∧ tc.next_hop = p.2 x := by
    intro x tc hx
    obtain ⟨tc₀, hx₀, -⟩ := hs'.symm.entry hx
    exact ⟨h.mem_nodes.2 ⟨tc₀.addr, addr_eq hx₀⟩, htracks'.label x tc hx⟩
  refine ⟨s', path_list, hrun, hs', ?_, ?_, ?_, hlisted'.nodup, fun x => ?_, ?_⟩
  · intro x tc hx
    obtain ⟨hxN, hcost, -⟩ := hcorrect x tc hx
    rw [hgraph, hcost]
    exact (hsearching'.correct hm hsmall hmem hdone hxN).1
  · intro x tc es hx hw
    obtain ⟨hxN, hcost, -⟩ := hcorrect x tc hx
    unfold total
    rw [hgraph] at hw ⊢
    rw [hcost]
    exact (hsearching'.correct hm hsmall hmem hdone hxN).2.1 es hw
  · intro x tc hx hne
    obtain ⟨hxN, hcost, hhopsx, hnextx⟩ := hcorrect x tc hx
    rw [hcost] at hne ⊢
    obtain ⟨es, hw, hsum, hlength, hfirst⟩ := (hsearching'.correct hm hsmall hmem hdone hxN).2.2 hne
    unfold total
    rw [hgraph, hview]
    refine ⟨es, hw, hsum, ?_, fun hcurrent hxm => ?_⟩
    · rw [hhopsx, hlength, hhops]
      simp [startLabels]
    · have hcovered : Covered s.graph myself (s.startLabels myself).2 := by
        intro e he
        obtain ⟨a, b, i, harc, ha, hback, hb⟩ := h.mem_out.1 he
        rw [hmyself, Option.some_inj] at ha
        subst ha
        obtain ⟨link, hlink⟩ := hcurrent e b harc
        obtain ⟨ty, hty, haddr⟩ := exists_entry hb
        have hym : s.graph.dst e ≠ myself := by
          intro heq
          rw [heq, hmyself, Option.some_inj] at hb
          exact hmain _ hlink hb.symm
        have hsome := hset _ ty link hym hty (by rw [haddr]; exact hlink) ⟨i, hback⟩
        simpa [startLabels, hty] using hsome
      obtain ⟨e, es', rfl, hvalue⟩ := hfirst hcovered hxm
      have he : e ∈ s.graph.out myself := hw.head_mem
      obtain ⟨a, b, i, harc, ha, hback, hb⟩ := h.mem_out.1 he
      obtain ⟨ty, hty, haddr⟩ := exists_entry hb
      have hvalue' : tc.next_hop = ty.next_hop := by
        rw [hnextx, hvalue]
        simp [startLabels, hty]
      have hsome := hcovered e he
      simp only [startLabels, hty, Option.bind_some] at hsome
      obtain ⟨link, hlink⟩ := Option.isSome_iff_exists.1 hsome
      exact ⟨e, es', b, link, rfl, harc, haddr ▸ hnext _ ty link hty hlink, hvalue'.trans hlink⟩
  · rw [hlisted'.mem]
    constructor
    · rintro ⟨hxN, hxt⟩
      obtain ⟨a, ha⟩ := h.mem_nodes.1 hxN
      obtain ⟨tc₀, hx₀, -⟩ := exists_entry ha
      obtain ⟨tc, hx, -⟩ := hs'.entry hx₀
      refine ⟨tc, hx, ?_⟩
      rw [(hcorrect x tc hx).2.1]
      exact hm.ne_top (hsearching'.forest.reached x hxN hxt)
    · rintro ⟨tc, hx, hne⟩
      obtain ⟨hxN, hcost, -⟩ := hcorrect x tc hx
      rw [hcost] at hne
      exact ⟨hxN, fun hmem' => hdone x hmem' (hm.lt_top hne)⟩
  · refine hlisted'.ascending.imp fun {x y} hxy tx ty htx hty => ?_
    rw [(hcorrect x tx htx).2.1, (hcorrect y ty hty).2.1]
    exact hxy

theorem Relabels.view (h : Relabels s s') : s'.view.addr = s.view.addr ∧ s'.view.link = s.view.link ∧
    s'.view.tc_myself = s.view.tc_myself ∧ s'.view.validity_timer = s.view.validity_timer ∧
    s'.view.edge_gc_timer = s.view.edge_gc_timer := by
  have hrest : s' = { s with entries := s'.entries } := h.symm.rest.symm
  refine ⟨?_, by rw [hrest]; rfl, by rw [hrest]; rfl, by rw [hrest]; rfl, by rw [hrest]; rfl⟩
  funext x
  cases hx : s.entries x with
  | none =>
    have hentry := h.entries x
    rw [hx, Option.map_none, Option.map_eq_none_iff] at hentry
    simp [TcSet.view, TcView.addr, hx, hentry]
  | some tc =>
    obtain ⟨tc', hx', hsame⟩ := h.entry hx
    rw [addr_eq hx, addr_eq hx', (unlabelled_fields hsame).1]

/-- The calculation of routes ends, with the shortest paths over the edges as they are then. -/
theorem Shape.olsr_calculate_routing_table (h : Shape s) (hself : s.tc_myself = some myself)
    (hmyself : s.view.addr myself = some cnf.main_addr)
    (hcalc : ∀ q, H.calc_tc_cost q ≤ LINK_COST_BROKEN)
    (hcosts : ∀ e d, s.view.link e = some d → d.cost ≤ LINK_COST_BROKEN) (hcount : s.tc_tree.length ≤ 1023)
    {neighbours : List (SymNeighbor Q)} (hmain : ∀ neigh ∈ neighbours, neigh.1 ≠ cnf.main_addr) {fuel : ℕ}
    (hfuel : s.tc_tree.length < fuel) : ∃ s' path_list,
    s.olsr_calculate_routing_table cnf H neighbours fuel = some (s', path_list) ∧ Shape s' ∧
      Calculated s' myself neighbours path_list ∧ s'.view.addr = s.view.addr ∧ s'.tc_myself = s.tc_myself ∧
      s'.validity_timer = s.validity_timer ∧ s'.edge_gc_timer = s.edge_gc_timer ∧
      (∀ x c, (∃ e, s'.view.arc e = some (x, c)) ↔
        if x = myself then
          (match linkTo neighbours c with
            | none => ∃ e, s.view.arc e = some (x, c)
            | some link => link.isSome = true)
        else ∃ e, s.view.arc e = some (x, c)) ∧
      ∀ e d, s'.view.link e = some d → d.cost ≤ LINK_COST_BROKEN := by
  obtain ⟨s₁, hrun₁, hs₁, hinit⟩ := h.initVertices
  have hself₁ : s₁.tc_myself = some myself := by
    rw [← hself]
    exact hs₁.view.2.2.1
  have hmyself₁ : s₁.view.addr myself = some cnf.main_addr := by rw [hs₁.view.1, hmyself]
  obtain ⟨tm, htm, haddr⟩ := exists_entry hmyself₁
  have hchange : s₁.olsr_change_myself_tc cnf = some s₁ := by
    rw [TcSet.olsr_change_myself_tc, hself₁]
    dsimp only
    rw [Fault.bind_of_some htm, if_pos haddr]
    rfl
  have hs₂ := hs₁.setEntry htm (f := fun tc => { tc with path_cost := ZERO_ROUTE_COST }) rfl
  have hset : s₁.setEntry myself (fun tc => { tc with path_cost := ZERO_ROUTE_COST }) = _ := setEntry_eq htm _
  generalize hs₂' : ({ s₁ with
      entries := Function.update s₁.entries myself (some { tm with path_cost := ZERO_ROUTE_COST }) } : TcSet Q) = s₂
    at hs₂ hset
  have hentry₂ : ∀ x tc, s₂.entries x = some tc → tc.next_hop = none ∧ tc.hops = 0 ∧
      tc.path_cost = if x = myself then ZERO_ROUTE_COST else ROUTE_COST_BROKEN := by
    intro x tc hx
    subst hs₂'
    by_cases hxm : x = myself
    · subst hxm
      obtain rfl : { tm with path_cost := ZERO_ROUTE_COST } = tc := by simpa using hx
      have htm' := hinit x tm htm
      exact ⟨by rw [← htm']; rfl, by rw [← htm']; rfl, (if_pos rfl).symm⟩
    · have hx' : s₁.entries x = some tc := by simpa [hxm] using hx
      have htc := hinit x tc hx'
      exact ⟨by rw [← htc]; rfl, by rw [← htc]; rfl, by rw [if_neg hxm, ← htc]; rfl⟩
  have hmyself₂ : s₂.view.addr myself = some cnf.main_addr := by rw [hs₂.view.1, hmyself]
  have hadd : s₂.olsr_spf_add_cand_tree [] myself = some [(ZERO_ROUTE_COST, myself)] := by
    obtain ⟨tm₂, htm₂, -⟩ := exists_entry hmyself₂
    rw [olsr_spf_add_cand_tree, Fault.bind_of_some htm₂, (hentry₂ myself tm₂ htm₂).2.2, if_pos rfl]
    rfl
  have hshape₂ := hs₂.shape h
  obtain ⟨s₃, hrun₃, hs₃, hneighbors⟩ := hshape₂.updateNeighbors cnf H hmyself₂ hmain
  have hmyself₃ : s₃.view.addr myself = some cnf.main_addr := by rw [hneighbors.addr, hmyself₂]
  have hcosts₃ : ∀ e d, s₃.view.link e = some d → d.cost ≤ LINK_COST_BROKEN := by
    refine hneighbors.costs (· ≤ LINK_COST_BROKEN) hcalc (by decide) ?_
    rw [hs₂.view.2.1]
    exact hcosts
  have hlength : s₃.tc_tree.length = s.tc_tree.length := by
    have hperm := h.nodes_perm hs₃.toTrees (hneighbors.addr.trans hs₂.view.1)
    simpa [nodes] using hperm.length_eq
  -- the entries after the neighbours, from those before
  have hlabel₃ : ∀ x tc, s₃.entries x = some tc → ∃ tc₂, s₂.entries x = some tc₂ ∧ tc.path_cost = tc₂.path_cost ∧
      tc.hops = tc₂.hops ∧ tc.addr = tc₂.addr ∧
      ∀ link, tc.next_hop = some link → tc₂.next_hop = some link ∨ (tc₂.addr, some link) ∈ neighbours := by
    intro x tc hx
    obtain ⟨d, hd, hsame, -, hhop⟩ := hneighbors.label x tc.data (node_eq hx)
    obtain ⟨tc₂, htc₂, rfl⟩ := exists_node hd
    have hcost := congrArg TcEntry.path_cost hsame
    have hhops := congrArg TcEntry.hops hsame
    have haddr := congrArg TcEntry.addr hsame
    exact ⟨tc₂, htc₂, hcost, hhops, haddr, hhop⟩
  obtain ⟨s', path_list, hrun, hs', hcalculated⟩ := hs₃.calculated hmyself₃ hcosts₃ (by omega) hmain
    (fun x tc hx => by
      obtain ⟨tc₂, hx₂, hcost, hhops, -⟩ := hlabel₃ x tc hx
      obtain ⟨-, hhops₂, hcost₂⟩ := hentry₂ x tc₂ hx₂
      exact ⟨hcost.trans hcost₂, hhops.trans hhops₂⟩)
    (fun x tc link hx hlink => by
      obtain ⟨tc₂, hx₂, -, -, haddr₂, hhop⟩ := hlabel₃ x tc hx
      rcases hhop link hlink with hold | hnew
      · rw [(hentry₂ x tc₂ hx₂).1] at hold
        exact absurd hold (by simp)
      · exact haddr₂ ▸ hnew)
    (fun x tc link hxm hx hlink hback => by
      obtain ⟨i, hi⟩ := hback
      refine hneighbors.hop link x tc.data hxm (node_eq hx) hlink ?_
      have harc := hneighbors.arcs x cnf.main_addr
      rw [if_neg hxm] at harc
      exact harc.1 ⟨i, hi⟩)
    fuel (by omega)
  have hview' := hs'.view
  refine ⟨s', path_list, ?_, hs'.shape hs₃, hcalculated, ?_, ?_, ?_, ?_, fun x c => ?_, ?_⟩
  · rw [TcSet.olsr_calculate_routing_table, Fault.bind_of_some hrun₁, Fault.bind_of_some hchange, hself₁]
    dsimp only
    rw [Fault.bind_of_some hset, Fault.bind_of_some hadd, Fault.bind_of_some hrun₃]
    exact hrun
  · rw [hview'.1, hneighbors.addr, hs₂.view.1]
  · exact hview'.2.2.1.trans (hneighbors.tc_myself.trans hs₂.view.2.2.1)
  · exact hview'.2.2.2.1.trans (hneighbors.validity_timer.trans hs₂.view.2.2.2.1)
  · exact hview'.2.2.2.2.trans (hneighbors.edge_gc_timer.trans hs₂.view.2.2.2.2)
  · have harc' : s'.view.arc = s₃.view.arc := by
      funext e
      unfold TcView.arc
      rw [hview'.2.1]
    have harc₂ : s₂.view.arc = s.view.arc := by
      funext e
      unfold TcView.arc
      rw [hs₂.view.2.1]
    rw [harc', ← harc₂]
    exact hneighbors.arcs x c
  · rw [hview'.2.1]
    exact hcosts₃

end TcSet

end MpOlsr
