import MpOlsr.Paths.Answers

/-!
# Paths along the links

A trail follows the links of the store from node to node (`Trail`).  As long as no simple trail from the source is too
expensive in any round (`Daemon.CostsFit`), every path that `tc_k_dijstra` computes is such a trail to the destination,
and there is one if the destination can be reached (`tc_k_dijstra_leads`).
-/

namespace MpOlsr

variable {ws : WordSize} {h : Store ws} {g g' : Shape ws}

/-- The links lead from `u` to a node: their blocks, and the nodes where they end. -/
inductive Trail (h : Store ws) (u : Ptr) : Ptr → List (Ptr × Ptr) → Prop
  | nil : Trail h u u []
  | snoc {v w link : Ptr} {b : OlsrNodeLink ws} {es : List (Ptr × Ptr)} (ht : Trail h u v es)
      (hb : h.link_blocks link = some b) (hsrc : b.src_node = some v) (hdst : b.dst_node = some w) :
      Trail h u w (es ++ [(link, w)])

/-- A trail that visits no node twice. -/
def SimpleTrail (h : Store ws) (u v : Ptr) (es : List (Ptr × Ptr)) : Prop :=
  Trail h u v es ∧ (u :: es.map Prod.snd).Nodup

/-- Every simple trail from a node with the source address costs less than the largest `unsigned long`. -/
def TrailsFit (h : Store ws) (srcAddr : ip_v4_addr ws) (c : Scratch ws) : Prop :=
  ∀ r v es, mainAddrIp h r = some srcAddr → SimpleTrail h r v es →
    (es.map fun e => (c.link_cost e.1).toNat).sum < (ULONG_MAX : ULong ws).toNat

/-- The trails fit at the start of each of `k` rounds for a destination. -/
def RoundsFit (h : Store ws) (conf : Conf) (srcAddr : ip_v4_addr ws) (d : Ptr) : ℕ → Scratch ws → Prop
  | 0, _ => True
  | k + 1, c => TrailsFit h srcAddr c ∧ ∀ c₁ r, dijkstra h srcAddr c = some c₁ → retrievePath h conf d c₁ = some r →
      RoundsFit h conf srcAddr d k r.2

/-- The trails fit in all rounds of a computation. -/
def Daemon.CostsFit (s : Daemon ws) (srcAddr dstAddr : ip_v4_addr ws) : Prop :=
  ∀ d c, tc_get_node s.store dstAddr = some (some d) → forLinks s.store (resetCost s.store) s.scratch = some c →
    RoundsFit s.store s.conf srcAddr d s.conf.g_conf_path.toNat c

/-- The path holds the addresses of the nodes on a simple way from a node with the source address to `d`. -/
def Shape.Leads (g : Shape ws) (srcAddr : ip_v4_addr ws) (d : Ptr) (path : OlsrPath) : Prop :=
  ∃ r ∈ g.nodes, g.mainOf r = srcAddr ∧ ∃ es, Dijkstra.Walk (g.graph fun _ => 0) r d es ∧
    (r :: es.map LinkInfo.dst).Nodup ∧ path = ⟨es.length, g.hopBytes es⟩

/-- The nodes with the source address have no hops. -/
def Shape.FromZero (g : Shape ws) (srcAddr : ip_v4_addr ws) (c : Scratch ws) : Prop :=
  ∀ r ∈ g.nodes, g.mainOf r = srcAddr → c.dijkstra_hops r = 0

/-! ### Walks in the shape -/

/-- The costs of the links do not matter for a walk. -/
theorem Shape.walk_cost {cost cost' : Ptr → ULong ws} {u v : Ptr} {es : List (LinkInfo ws)}
    (hw : Dijkstra.Walk (g.graph cost) u v es) : Dijkstra.Walk (g.graph cost') u v es := by
  induction hw with
  | nil => exact .nil
  | snoc _ he ih => exact .snoc (G := g.graph cost') ih he

theorem BackPath.walk {c : Scratch ws} {u v : Ptr} {es : List (LinkInfo ws)} (hb : BackPath g c u v es)
    (cost : Ptr → ULong ws) : Dijkstra.Walk (g.graph cost) u v es := by
  induction hb with
  | source => exact .nil
  | link _ hl _ ih => exact .snoc (G := g.graph cost) ih (List.mem_filter.2 ⟨hl, decide_eq_true rfl⟩)

theorem Rep.walk_mem (hr : Rep h g) {cost : Ptr → ULong ws} {u v : Ptr} {es : List (LinkInfo ws)} (hu : u ∈ g.nodes)
    (hw : Dijkstra.Walk (g.graph cost) u v es) : v ∈ g.nodes ∧ ∀ l ∈ es, l.dst ∈ g.nodes := by
  induction hw with
  | nil => exact ⟨hu, fun l hl => (List.not_mem_nil hl).elim⟩
  | @snoc v l es _ he ih =>
    have hd := (hr.ends l (List.mem_filter.1 he).1).2
    refine ⟨hd, fun l' hl' => ?_⟩
    rcases List.mem_append.1 hl' with hl' | hl'
    · exact ih.2 l' hl'
    · rw [List.mem_singleton.1 hl']
      exact hd

/-- The block of a link, and the node where it ends. -/
def LinkInfo.step (l : LinkInfo ws) : Ptr × Ptr := (l.name, l.dst)

theorem map_step_snd (es : List (LinkInfo ws)) : (es.map LinkInfo.step).map Prod.snd = es.map LinkInfo.dst := by
  rw [List.map_map]
  rfl

/-- The trails of the store are the walks in its shape. -/
theorem Rep.trail_iff (hr : Rep h g) (cost : Ptr → ULong ws) {u v : Ptr} {es : List (Ptr × Ptr)} :
    Trail h u v es ↔ ∃ ls, Dijkstra.Walk (g.graph cost) u v ls ∧ es = ls.map LinkInfo.step := by
  constructor
  · intro ht
    induction ht with
    | nil => exact ⟨[], .nil, rfl⟩
    | @snoc v w link b es _ hb hsrc hdst ih =>
      obtain ⟨ls, hw, rfl⟩ := ih
      obtain ⟨l, hl, rfl⟩ := hr.linksRep.live link (Option.isSome_iff_exists.2 ⟨b, hb⟩)
      rw [hr.linksRep.blocks l hl, Option.some_inj] at hb
      subst hb
      have hsrc : l.src = v := Option.some_inj.1 hsrc
      have hdst : l.dst = w := Option.some_inj.1 hdst
      subst hsrc hdst
      refine ⟨ls ++ [l], .snoc (G := g.graph cost) hw (List.mem_filter.2 ⟨hl, decide_eq_true rfl⟩), ?_⟩
      rw [List.map_append]
      rfl
  · rintro ⟨ls, hw, rfl⟩
    induction hw with
    | nil => exact .nil
    | @snoc v l ls _ he ih =>
      obtain ⟨hl, hsrc⟩ := List.mem_filter.1 he
      have hsrc : l.src = v := of_decide_eq_true hsrc
      subst hsrc
      rw [List.map_append]
      exact .snoc ih (hr.linksRep.blocks l hl) rfl rfl

/-- Where the trails fit, no simple walk is too long for Dijkstra's algorithm. -/
theorem TrailsFit.short {srcAddr : ip_v4_addr ws} {c : Scratch ws} (hfit : TrailsFit h srcAddr c) (hr : Rep h g)
    {r : Ptr} (hrn : r ∈ g.nodes) (hroot : g.mainOf r = srcAddr) :
    Dijkstra.Short (g.graph c.link_cost) BitVec.toNat ULONG_MAX r := by
  intro v es hw hnodup
  have htrail : SimpleTrail h r v (es.map LinkInfo.step) := by
    refine ⟨(hr.trail_iff _).2 ⟨es, hw, rfl⟩, ?_⟩
    rw [map_step_snd]
    exact hnodup
  have hlt := hfit r v _ (by rw [hr.mainAddrIp_eq hrn, hroot]) htrail
  rw [List.map_map] at hlt
  exact hlt

/-- The trails fit where every link is cheap enough for the number of blocks. -/
theorem TrailsFit.of_costs (hr : Rep h g) {c : Scratch ws} {m : ℕ}
    (hm : ∀ l ∈ g.links, (c.link_cost l.name).toNat ≤ m) (hlt : h.brk * m < (ULONG_MAX : ULong ws).toNat)
    (srcAddr : ip_v4_addr ws) : TrailsFit h srcAddr c := by
  intro r v es _ ht
  obtain ⟨ls, hw, rfl⟩ := (hr.trail_iff c.link_cost).1 ht.1
  have hnodup := ht.2
  rw [map_step_snd] at hnodup
  have hshort : Dijkstra.Short (g.graph c.link_cost) BitVec.toNat ULONG_MAX r := by
    apply Dijkstra.Short.of_weights (N := g.nodes) (m := m)
    · intro u l hl
      have hl := (List.mem_filter.1 hl).1
      exact ⟨(hr.ends l hl).2, hm l hl⟩
    · exact Nat.lt_of_le_of_lt (Nat.mul_le_mul_right m hr.nodes_length) hlt
  rw [List.map_map]
  exact hshort v ls hw hnodup

/-- The trails fit in a computation of one path where the links of the topology are cheap enough. -/
theorem Daemon.costsFit_of_costs {s : Daemon ws} (hr : Rep s.store g) (hone : s.conf.g_conf_path = 1) {m : ℕ}
    (hm : ∀ l ∈ g.links, l.cost.toNat ≤ m) (hlt : s.store.brk * m < (ULONG_MAX : ULong ws).toNat)
    (srcAddr dstAddr : ip_v4_addr ws) : s.CostsFit srcAddr dstAddr := by
  intro d c _ hc
  obtain ⟨cost, p1, hreset, hcosts, -⟩ := AtRound.reset hr rfl
  rw [hreset, Option.some_inj] at hc
  subst hc
  rw [hone]
  refine ⟨.of_costs hr (fun l hl => ?_) hlt srcAddr, fun _ _ _ _ => trivial⟩
  show (cost l.name).toNat ≤ m
  rw [hcosts l hl]
  exact hm l hl

/-- What the paths are only depends on the nodes with their main addresses, and on the links. -/
theorem Shape.Leads.congr {srcAddr : ip_v4_addr ws} {d : Ptr} {path : OlsrPath} (hp : g.Leads srcAddr d path)
    (hr : Rep h g) (hnodes : g'.nodes = g.nodes) (hlinks : g'.links = g.links)
    (hmain : ∀ n ∈ g.nodes, g'.mainOf n = g.mainOf n) : g'.Leads srcAddr d path := by
  obtain ⟨r, hrn, hroot, es, hw, hnodup, rfl⟩ := hp
  have hgraph : (g'.graph fun _ => 0) = g.graph fun _ => 0 := by
    rw [Shape.graph, Shape.graph, hlinks]
  have hbytes : g'.hopBytes es = g.hopBytes es := by
    rw [Shape.hopBytes, Shape.hopBytes]
    refine List.flatMap_congr fun l hl => ?_
    rw [hmain l.dst ((hr.walk_mem hrn hw).2 l hl)]
  exact ⟨r, hnodes ▸ hrn, (hmain r hrn).trans hroot, es, hgraph ▸ hw, hnodup, by rw [hbytes]⟩

/-! ### The computation -/

/-- A round that starts without hops finds a path that leads to the destination. -/
theorem Found.leads {c₁ : Scratch ws} {srcAddr : ip_v4_addr ws} {r d : Ptr} {es : List (LinkInfo ws)}
    (hf : Found g c₁ srcAddr r d es) (hzero : c₁.dijkstra_hops r = 0) (name : Ptr) :
    g.Leads srcAddr d (g.block c₁ d es name).toOlsrPath := by
  have hhops : c₁.dijkstra_hops d = es.length := by
    rw [hf.hops, hzero, Nat.zero_add]
  refine ⟨r, hf.mem, hf.root, es, hf.back.walk _, hf.simple, ?_⟩
  rw [Shape.block, hhops, Nat.sub_self, Nat.zero_mul]
  rfl

/-- The loop returns, all its paths lead to the destination, and the source has no hops afterwards.  If the destination
can be reached and the trails fit, the loop runs to its end. -/
theorem pathLoop_leads {h : Store .ilp32} {g : Shape .ilp32} (hw : WellFormed h g) {conf : Conf}
    {srcAddr : ip_v4_addr .ilp32} {d : Ptr} (hd : d ∈ g.nodes) (k : ℕ) {s : Daemon .ilp32} {ring : List PathBlock}
    (hs : AtRound h g conf s) (hzero : g.FromZero srcAddr s.scratch)
    (hring : ∀ path ∈ ring, g.Leads srcAddr d path.toOlsrPath) :
    ∃ done ring' s', pathLoop srcAddr d k ring s = some (done, ring', s') ∧
      (∀ path ∈ ring', g.Leads srcAddr d path.toOlsrPath) ∧ g.FromZero srcAddr s'.scratch ∧
      ∀ r es, r ∈ g.nodes → g.mainOf r = srcAddr → Dijkstra.Walk (g.graph fun _ => 0) r d es →
        RoundsFit h conf srcAddr d k s.scratch → done = true ∧ ring'.length = ring.length + k := by
  have hr := hw.toRep
  induction k generalizing s ring with
  | zero => exact ⟨true, ring, s, rfl, hring, hzero, fun _ _ _ _ _ _ => ⟨rfl, rfl⟩⟩
  | succ k ih =>
    obtain ⟨c₁, hdij, hroots, hstop, hnext⟩ := hs.pathLoop_succ hr srcAddr hd
    have hzero₁ : g.FromZero srcAddr c₁ := fun r hrn hroot => (hroots r hrn hroot).1.trans (hzero r hrn hroot)
    by_cases htop : c₁.dijkstra_cost d = ULONG_MAX
    · refine ⟨false, ring, _, hstop htop k ring, hring, hzero₁, fun r es hrn hroot hwalk hfit => ?_⟩
      -- the destination is reached in this round
      obtain ⟨c₂, hdij₂, hall⟩ := dijkstra_shortest hw hrn s.scratch (hfit.1.short hr hrn hroot)
      rw [hroot, hdij, Option.some_inj] at hdij₂
      subst hdij₂
      exact absurd ⟨es, Shape.walk_cost hwalk⟩ ((hall d hd).1.1 htop)
    · obtain ⟨r, es, s₂, hf, hs₂, hhops₂, -, -, hretrieve, hloop⟩ := hnext htop
      have hzero₂ : g.FromZero srcAddr s₂.scratch := by
        intro r' hrn hroot
        rw [hhops₂]
        exact hzero₁ r' hrn hroot
      have hring₂ : ∀ path ∈ insertPath (g.block c₁ d es s.path_brk) ring, g.Leads srcAddr d path.toOlsrPath := by
        intro path hpath
        rcases mem_insertPath.1 hpath with rfl | hpath
        · exact hf.leads (hzero₁ r hf.mem hf.root) _
        · exact hring path hpath
      obtain ⟨done, ring', s', hrun, hleads, hzero', hdone⟩ := ih hs₂ hzero₂ hring₂
      refine ⟨done, ring', s', (hloop k ring).trans hrun, hleads, hzero', fun r' es' hrn hroot hwalk hfit => ?_⟩
      obtain ⟨res, hres, hscratch⟩ := Option.map_eq_some_iff.1 hretrieve
      have hfit₂ := hfit.2 c₁ res hdij hres
      rw [hscratch] at hfit₂
      obtain ⟨htrue, hlen⟩ := hdone r' es' hrn hroot hwalk hfit₂
      refine ⟨htrue, ?_⟩
      rw [hlen, length_insertPath]
      omega

/-- The computation returns, and adds an entry whose paths lead to the node that the address finds; a path that it
returns is one of them.  If the node can be reached, the trails fit, and at least one path is asked for, there is one. -/
theorem tc_k_dijstra_leads {s : Daemon .ilp32} {g : Shape .ilp32} (hw : WellFormed s.store g)
    {srcAddr : ip_v4_addr .ilp32} (hzero : g.FromZero srcAddr s.scratch) (dstAddr : ip_v4_addr .ilp32) :
    ∃ path ring c brk, tc_k_dijstra s srcAddr dstAddr =
        some (path, { s with scratch := c, g_path_buffer := ⟨srcAddr, dstAddr, ring⟩ :: s.g_path_buffer,
                             path_brk := brk }) ∧
      g.FromZero srcAddr c ∧ (∀ p, path = some p → p ∈ ring) ∧
      (∀ p ∈ ring, ∃ e, resolve g.addrs dstAddr = some e ∧ g.Leads srcAddr e.node p.toOlsrPath) ∧
      ∀ r e es, r ∈ g.nodes → g.mainOf r = srcAddr → resolve g.addrs dstAddr = some e →
        Dijkstra.Walk (g.graph fun _ => 0) r e.node es → s.CostsFit srcAddr dstAddr → 1 ≤ s.conf.g_conf_path →
        path.isSome = true := by
  have hr := hw.toRep
  rw [tc_k_dijstra, hr.get_node, Option.bind_eq_bind, Option.bind_some]
  cases hdst : resolve g.addrs dstAddr with
  | none =>
    refine ⟨none, [], s.scratch, s.path_brk, rfl, hzero, ?_, ?_, ?_⟩
    · intro p hp
      cases hp
    · intro p hp
      cases hp
    · intro r e es _ _ he
      cases he
  | some e =>
    obtain ⟨cost, p1, hreset, -, hs⟩ := AtRound.reset hr rfl
    have hd := hr.resolve_node hdst
    have hnil : ∀ path ∈ ([] : List PathBlock), g.Leads srcAddr e.node path.toOlsrPath :=
      fun path hpath => (List.not_mem_nil hpath).elim
    obtain ⟨done, ring, s', hloop, hleads, hzero', hdone⟩ :=
      pathLoop_leads hw hd s.conf.g_conf_path.toNat hs hzero hnil
    obtain ⟨hstore, hbuffer, -, -⟩ := pathLoop_frame srcAddr e.node _ hloop
    have hconf := (hs.loop hr srcAddr hd _ hloop).conf_eq
    simp only [Option.map_some, hreset, Option.bind_eq_bind, Option.bind_some, hloop]
    refine ⟨if done then ring.head? else none, ring, s'.scratch, s'.path_brk, ?_, hzero', ?_, ?_, ?_⟩
    · obtain ⟨store, scratch, buffer, brk, conf⟩ := s'
      have hstore : store = s.store := hstore
      have hconf : conf = s.conf := hconf
      subst hstore hconf
      rfl
    · intro p hp
      cases done with
      | false => cases hp
      | true => exact List.mem_of_mem_head? hp
    · exact fun p hp => ⟨e, rfl, hleads p hp⟩
    · intro r e' es hrn hroot he hwalk hfit hpos
      cases he
      have hget : tc_get_node s.store dstAddr = some (some e.node) := by
        rw [hr.get_node, hdst]
        rfl
      obtain ⟨rfl, hlen⟩ := hdone r es hrn hroot hwalk (hfit e.node _ hget hreset)
      cases ring with
      | nil =>
        rw [List.length_nil] at hlen
        omega
      | cons p ring => rfl

end MpOlsr
