import MpOlsr.Paths.Retrieve

/-!
# The rounds of the computation

Every round of `tc_k_dijstra` finds a simple path along links from a node with the source address, if it reaches the
destination (`round_spec`).
-/

namespace MpOlsr

variable {ws : WordSize} {h : Store ws} {g : Shape ws}

/-- The links `es` are a simple path from `r` to `d`, along which `dijkstra_path` leads back. -/
structure Found (g : Shape ws) (c : Scratch ws) (srcAddr : ip_v4_addr ws) (r d : Ptr) (es : List (LinkInfo ws)) :
    Prop where
  mem : r ∈ g.nodes
  root : g.mainOf r = srcAddr
  back : BackPath g c r d es
  simple : (r :: es.map LinkInfo.dst).Nodup
  hops : c.dijkstra_hops d = c.dijkstra_hops r + es.length

theorem Rep.trail_length (hr : Rep h g) {c : Scratch ws} {r d : Ptr} {es : List (LinkInfo ws)} (hrn : r ∈ g.nodes)
    (hb : BackPath g c r d es) (hnodup : (r :: es.map LinkInfo.dst).Nodup) : es.length < h.brk := by
  have hsub : ∀ n ∈ r :: es.map LinkInfo.dst, n ∈ g.nodes := by
    clear hnodup
    induction hb with
    | source => simpa using hrn
    | @link l es hb hl _ ih =>
      intro n hn
      rw [List.map_append, ← List.cons_append, List.mem_append, List.map_singleton, List.mem_singleton] at hn
      rcases hn with hn | rfl
      · exact ih n hn
      · exact (hr.ends l hl).2
  have hle := length_le_of_bound hnodup fun n hn => hr.nodesRep.bound n (hsub n hn)
  rw [List.length_cons, List.length_map] at hle
  omega

/-- A run of `dijkstra`: the nodes that are reached hang on simple paths from the nodes with the source address, which
keep their hops. -/
theorem round_spec (hr : Rep h g) (srcAddr : ip_v4_addr ws) (c : Scratch ws) :
    ∃ c₁, dijkstra h srcAddr c = some c₁ ∧ c₁.link_cost = c.link_cost ∧ c₁.link_cost_p1 = c.link_cost_p1 ∧
      (∀ r ∈ g.nodes, g.mainOf r = srcAddr → c₁.dijkstra_hops r = c.dijkstra_hops r ∧ c₁.dijkstra_cost r = 0) ∧
      ∀ d ∈ g.nodes, c₁.dijkstra_cost d ≠ ULONG_MAX → ∃ r es, Found g c₁ srcAddr r d es := by
  obtain ⟨c₁, todo, hrun, hlabels, hcost, hp1⟩ := dijkstra_spec hr srcAddr c
  let G := g.graph c.link_cost
  let L := g.start srcAddr c.dijkstra_hops
  have hm := measure ws
  have hstart : ∀ n ∈ g.nodes, L.cost n = if g.mainOf n = srcAddr then 0 else ULONG_MAX :=
    fun n hn => Shape.start_cost hn srcAddr c.dijkstra_hops
  refine ⟨c₁, hrun, hcost, hp1, ?_, ?_⟩
  · intro r hrn hroot
    have hzero : (L.cost r).toNat = 0 := by
      rw [hstart r hrn, if_pos hroot]
      exact BitVec.toNat_ofNat 0 _
    obtain ⟨hc, -, hh⟩ := Dijkstra.run_of_zero (G := G) hm h.brk hzero
    rw [← hlabels] at hc hh
    have hc : g.field ULONG_MAX c₁.dijkstra_cost r = L.cost r := hc
    have hh : g.field 0 c₁.dijkstra_hops r = g.field 0 c.dijkstra_hops r := hh
    rw [Shape.field_of_mem hrn, hstart r hrn, if_pos hroot] at hc
    rw [Shape.field_of_mem hrn, Shape.field_of_mem hrn] at hh
    exact ⟨hh, hc⟩
  · intro d hd hreached
    have hforest : Dijkstra.Forest G ULONG_MAX L.todo (fun r => g.mainOf r = srcAddr) L := by
      refine .init (fun n hn hcn => ⟨?_, rfl⟩) (List.nodup_reverse.2 hr.nodes_nodup)
      by_contra hne
      rw [hstart n (List.mem_reverse.1 hn), if_neg hne] at hcn
      exact Nat.lt_irrefl _ ((hm.lt_iff _ _).1 hcn)
    have hforest := Dijkstra.run_forest hm h.brk hforest
    rw [← hlabels] at hforest
    have hlt : (c₁.labels g todo).cost d < ULONG_MAX := by
      have hcd : (c₁.labels g todo).cost d = c₁.dijkstra_cost d := Shape.field_of_mem hd
      rw [hcd, hm.lt_iff]
      exact lt_of_le_of_ne (hm.le_top _) fun heq => hreached (hm.inj _ _ heq)
    obtain ⟨r, es, hroot, hrn, hc⟩ := hforest.chain d (List.mem_reverse.2 hd) hlt
    have hrn := List.mem_reverse.1 hrn
    have hhops := hc.hops_eq
    have hh : g.field 0 c₁.dijkstra_hops d = g.field 0 c₁.dijkstra_hops r + es.length := hhops
    rw [Shape.field_of_mem hd, Shape.field_of_mem hrn] at hh
    exact ⟨r, es, hrn, hroot, .of_chain hr hrn hc, hc.nodup, hh⟩

/-! ### The loop -/

/-- The data of the daemon as a round starts: both costs of every link agree. -/
structure AtRound (h : Store ws) (g : Shape ws) (conf : Conf) (s : Daemon ws) : Prop where
  store : s.store = h
  conf_eq : s.conf = conf
  costs : ∀ l ∈ g.links, s.scratch.link_cost_p1 l.name = s.scratch.link_cost l.name

/-- One round: the daemon after `dijkstra`, and after the path has been retrieved. -/
theorem AtRound.round (hr : Rep h g) {conf : Conf} {s : Daemon ws} (hs : AtRound h g conf s) (srcAddr : ip_v4_addr ws)
    {d : Ptr} (hd : d ∈ g.nodes) : ∃ c₁, dijkstra s.store srcAddr s.scratch = some c₁ ∧
      c₁.link_cost = s.scratch.link_cost ∧
      (∀ r ∈ g.nodes, g.mainOf r = srcAddr →
        c₁.dijkstra_hops r = s.scratch.dijkstra_hops r ∧ c₁.dijkstra_cost r = 0) ∧
      AtRound h g conf { s with scratch := c₁ } ∧
      (c₁.dijkstra_cost d ≠ ULONG_MAX → ∃ r es cost, Found g c₁ srcAddr r d es ∧
        (∀ l ∈ g.links, cost l.name = g.inflateAll conf c₁.link_cost es c₁.link_cost_p1 l.name) ∧
        retrievePath s.store s.conf d c₁ =
          (copyBack h c₁ (r :: es.map LinkInfo.dst) (c₁.dijkstra_hops d)).map fun w =>
            (⟨c₁.dijkstra_hops d, w.1⟩,
              { c₁ with link_cost := cost, link_cost_p1 := g.inflateAll conf c₁.link_cost es c₁.link_cost_p1 })) := by
  obtain ⟨rfl, rfl, hcosts⟩ := hs
  obtain ⟨c₁, hrun, hcost, hp1, hroot, hfound⟩ := round_spec hr srcAddr s.scratch
  refine ⟨c₁, hrun, hcost, hroot, ⟨rfl, rfl, fun l hl => ?_⟩, fun hreached => ?_⟩
  · show c₁.link_cost_p1 l.name = c₁.link_cost l.name
    rw [hcost, hp1, hcosts l hl]
  · obtain ⟨r, es, hf⟩ := hfound d hd hreached
    obtain ⟨cost, hinflate, hretrieve⟩ := retrievePath_spec hr s.conf hf.mem hf.back
      (hr.trail_length hf.mem hf.back hf.simple)
    exact ⟨r, es, cost, hf, hinflate, hretrieve⟩

/-- The block with the path that a round finds: the hops that the source had before are left zero. -/
def Shape.block (g : Shape ws) (c₁ : Scratch ws) (d : Ptr) (es : List (LinkInfo ws)) (name : Ptr) : PathBlock :=
  ⟨⟨c₁.dijkstra_hops d,
    List.replicate ((c₁.dijkstra_hops d - es.length) * ip_v4_size) 0 ++ g.hopBytes es⟩, name⟩

/-- Where an `unsigned long` has the size of an address, a round returns: it ends the loop, or inserts a path. -/
theorem AtRound.pathLoop_succ {h : Store .ilp32} {g : Shape .ilp32} (hr : Rep h g) {conf : Conf} {s : Daemon .ilp32}
    (hs : AtRound h g conf s) (srcAddr : ip_v4_addr .ilp32) {d : Ptr} (hd : d ∈ g.nodes) :
    ∃ c₁, dijkstra h srcAddr s.scratch = some c₁ ∧
      (∀ r ∈ g.nodes, g.mainOf r = srcAddr → c₁.dijkstra_hops r = s.scratch.dijkstra_hops r ∧ c₁.dijkstra_cost r = 0) ∧
      (c₁.dijkstra_cost d = ULONG_MAX → ∀ k ring,
        pathLoop srcAddr d (k + 1) ring s = some (false, ring, { s with scratch := c₁ })) ∧
      (c₁.dijkstra_cost d ≠ ULONG_MAX → ∃ r es s₂, Found g c₁ srcAddr r d es ∧ AtRound h g conf s₂ ∧
        s₂.scratch.dijkstra_hops = c₁.dijkstra_hops ∧ s₂.path_brk = s.path_brk + 1 ∧
        s₂.g_path_buffer = s.g_path_buffer ∧
        (retrievePath h conf d c₁).map Prod.snd = some s₂.scratch ∧ ∀ k ring, pathLoop srcAddr d (k + 1) ring s =
          pathLoop srcAddr d k (insertPath (g.block c₁ d es s.path_brk) ring) s₂) := by
  obtain ⟨c₁, hdij, -, hroot, hs₁, hreached⟩ := hs.round hr srcAddr hd
  refine ⟨c₁, hs.store ▸ hdij, hroot, fun htop k ring => ?_, fun htop => ?_⟩
  · rw [pathLoop, hdij, Option.bind_eq_bind, Option.bind_some, if_pos htop]
    rfl
  · obtain ⟨r, es, cost, hf, hinflate, hretrieve⟩ := hreached htop
    have hle : es.length ≤ c₁.dijkstra_hops d := by
      rw [hf.hops]
      omega
    have hcopy := copyBack_spec hr hf.back hle
    rw [hs.store, hs.conf_eq] at hretrieve
    refine ⟨r, es, { s with
        scratch := { c₁ with
          link_cost := cost, link_cost_p1 := g.inflateAll conf c₁.link_cost es c₁.link_cost_p1 },
        path_brk := s.path_brk + 1 }, hf, ⟨hs.store, hs.conf_eq, fun l hl => ?_⟩, rfl, rfl, rfl, ?_,
        fun k ring => ?_⟩
    · exact (hinflate l hl).symm
    · rw [hretrieve, hcopy]
      rfl
    · rw [pathLoop, hdij, Option.bind_eq_bind, Option.bind_some, if_neg htop, hs.store, hs.conf_eq, hretrieve, hcopy]
      rfl

/-- Where an `unsigned long` has the size of an address, the loop returns, and the first path stays the first. -/
theorem pathLoop_total {h : Store .ilp32} {g : Shape .ilp32} (hr : Rep h g) {conf : Conf}
    (srcAddr : ip_v4_addr .ilp32) {d : Ptr} (hd : d ∈ g.nodes) (k : ℕ) {s : Daemon .ilp32} (ring : List PathBlock)
    (hs : AtRound h g conf s) : ∃ b ring' s', pathLoop srcAddr d k ring s = some (b, ring', s') ∧
      ∀ first, ring.head? = some first → ring'.head? = some first := by
  induction k generalizing s ring with
  | zero => exact ⟨true, ring, s, rfl, fun _ hf => hf⟩
  | succ k ih =>
    obtain ⟨c₁, -, -, hstop, hnext⟩ := hs.pathLoop_succ hr srcAddr hd
    by_cases htop : c₁.dijkstra_cost d = ULONG_MAX
    · exact ⟨false, ring, _, hstop htop k ring, fun _ hf => hf⟩
    · obtain ⟨r, es, s₂, -, hs₂, -, -, -, -, hloop⟩ := hnext htop
      obtain ⟨b, ring', s', hrun, hfirst⟩ := ih (insertPath (g.block c₁ d es s.path_brk) ring) hs₂
      refine ⟨b, ring', s', (hloop k ring).trans hrun, fun first hhead => hfirst first ?_⟩
      cases ring with
      | nil => cases hhead
      | cons x ring => exact hhead

/-- The rounds keep the store, and the two costs of every link agree after each of them. -/
theorem AtRound.loop (hr : Rep h g) {conf : Conf} (srcAddr : ip_v4_addr ws) {d : Ptr} (hd : d ∈ g.nodes) (k : ℕ)
    {s s' : Daemon ws} {b : Bool} {ring ring' : List PathBlock} (hs : AtRound h g conf s)
    (hrun : pathLoop srcAddr d k ring s = some (b, ring', s')) : AtRound h g conf s' := by
  induction k generalizing s ring with
  | zero =>
    cases hrun
    exact hs
  | succ k ih =>
    obtain ⟨c₁, hdij, -, -, hs₁, hreached⟩ := hs.round hr srcAddr hd
    rw [pathLoop, hdij, Option.bind_eq_bind, Option.bind_some] at hrun
    by_cases htop : c₁.dijkstra_cost d = ULONG_MAX
    · rw [if_pos htop] at hrun
      cases hrun
      exact hs₁
    · obtain ⟨r, es, cost, -, hinflate, hretrieve⟩ := hreached htop
      rw [if_neg htop, hretrieve] at hrun
      cases hcopy : copyBack h c₁ (r :: es.map LinkInfo.dst) (c₁.dijkstra_hops d) with
      | none =>
        rw [hcopy] at hrun
        cases hrun
      | some w =>
        rw [hcopy] at hrun
        have hs₂ : AtRound h g conf { s with
            scratch := { c₁ with
              link_cost := cost, link_cost_p1 := g.inflateAll conf c₁.link_cost es c₁.link_cost_p1 },
            path_brk := s.path_brk + 1 } := ⟨hs₁.store, hs₁.conf_eq, fun l hl => (hinflate l hl).symm⟩
        exact ih hs₂ hrun

/-- The costs are reset before the first round. -/
theorem AtRound.reset (hr : Rep h g) {s : Daemon ws} (hs : s.store = h) : ∃ cost p1,
    forLinks s.store (resetCost s.store) s.scratch = some { s.scratch with link_cost := cost, link_cost_p1 := p1 } ∧
    (∀ l ∈ g.links, cost l.name = l.cost) ∧
    AtRound h g s.conf { s with scratch := { s.scratch with link_cost := cost, link_cost_p1 := p1 } } := by
  subst hs
  obtain ⟨cost, p1, hreset, hcosts⟩ := resetCosts_spec hr s.scratch
  refine ⟨cost, p1, hreset, fun l hl => (hcosts l hl).1, rfl, rfl, fun l hl => ?_⟩
  exact (hcosts l hl).2.trans (hcosts l hl).1.symm

/-- The computation keeps the store and the configuration. -/
theorem tc_k_dijstra_store {s s' : Daemon ws} (hr : Rep s.store g) {srcAddr dstAddr : ip_v4_addr ws}
    {r : Option PathBlock} (hrun : tc_k_dijstra s srcAddr dstAddr = some (r, s')) :
    s'.store = s.store ∧ s'.conf = s.conf := by
  rw [tc_k_dijstra, hr.get_node, Option.bind_eq_bind, Option.bind_some] at hrun
  cases hdst : resolve g.addrs dstAddr with
  | none =>
    rw [hdst] at hrun
    cases hrun
    exact ⟨rfl, rfl⟩
  | some e =>
    obtain ⟨cost, p1, hreset, -, hs⟩ := AtRound.reset hr rfl
    simp only [hdst, Option.map_some, hreset, Option.bind_eq_bind, Option.bind_some] at hrun
    obtain ⟨⟨b, ring, t⟩, hloop, hrun⟩ := Option.bind_eq_some_iff.1 hrun
    have ht := hs.loop hr srcAddr (hr.resolve_node hdst) _ hloop
    cases hrun
    exact ⟨ht.store, ht.conf_eq⟩

/-- Where an `unsigned long` has the size of an address, the computation returns. -/
theorem tc_k_dijstra_total (s : Daemon .ilp32) {g : Shape .ilp32} (hr : Rep s.store g) (srcAddr dstAddr : ip_v4_addr .ilp32) :
    (tc_k_dijstra s srcAddr dstAddr).isSome := by
  rw [tc_k_dijstra, hr.get_node, Option.bind_eq_bind, Option.bind_some]
  cases hdst : resolve g.addrs dstAddr with
  | none => rfl
  | some e =>
    obtain ⟨cost, p1, hreset, -, hs⟩ := AtRound.reset hr rfl
    obtain ⟨b, ring, t, hloop, -⟩ := pathLoop_total hr srcAddr (hr.resolve_node hdst) s.conf.g_conf_path.toNat [] hs
    simp only [Option.map_some, hreset, Option.bind_eq_bind, Option.bind_some, hloop]
    rfl

end MpOlsr
