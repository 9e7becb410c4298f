import MpOlsr.Paths.Inflation

/-!
# Earlier computations

What earlier computations leave in the fields `dijkstra_…` has no influence on the paths found later, but for one field:
`dijkstra_hops` of the source is read before it is written.  Two states that agree on it for the source compute the same
paths (`scratch_independent`); where they differ, so do the numbers of hops of the first path.
-/

namespace MpOlsr

variable {ws : WordSize} {h : Store ws} {g : Shape ws}

/-- Fields that agree on the costs of the links, and on the hops of the source up to the offsets `a` and `b`. -/
structure Alike (g : Shape ws) (srcAddr : ip_v4_addr ws) (a b : ℕ) (c c' : Scratch ws) : Prop where
  cost : ∀ l ∈ g.links, c'.link_cost l.name = c.link_cost l.name
  cost_p1 : ∀ l ∈ g.links, c'.link_cost_p1 l.name = c.link_cost_p1 l.name
  hops : ∀ r ∈ g.nodes, g.mainOf r = srcAddr → c'.dijkstra_hops r + a = c.dijkstra_hops r + b

/-- The same nodes are reached, along the same paths. -/
structure SamePaths (g : Shape ws) (a b : ℕ) (c c' : Scratch ws) : Prop where
  cost : ∀ n ∈ g.nodes, c'.dijkstra_cost n = c.dijkstra_cost n
  path : ∀ n ∈ g.nodes, c'.dijkstra_path n = c.dijkstra_path n
  hops : ∀ n ∈ g.nodes, c.dijkstra_cost n ≠ ULONG_MAX → c'.dijkstra_hops n + a = c.dijkstra_hops n + b

/-- `dijkstra`, on the costs of the links of the topology, reaches a node. -/
def reaches (h : Store ws) (srcAddr : ip_v4_addr ws) (d : Ptr) : Bool :=
  ((forLinks h (resetCost h) Scratch.zero).bind (dijkstra h srcAddr)).any fun c => c.dijkstra_cost d ≠ ULONG_MAX

/-- The path that is returned, and the paths of the new entry of the cache. -/
def outcome (r : Option (Option PathBlock × Daemon ws)) : Option (Option OlsrPath × List OlsrPath) :=
  r.map fun r => (r.1.map PathBlock.toOlsrPath,
    r.2.g_path_buffer.head?.toList.flatMap fun entry => entry.lst_path.map PathBlock.toOlsrPath)

/-! ### One round -/

theorem Alike.dijkstra (hr : Rep h g) {srcAddr : ip_v4_addr ws} {a b : ℕ} {c c' : Scratch ws}
    (ha : Alike g srcAddr a b c c') : ∃ c₁ c₁', MpOlsr.dijkstra h srcAddr c = some c₁ ∧
      MpOlsr.dijkstra h srcAddr c' = some c₁' ∧ Alike g srcAddr a b c₁ c₁' ∧ SamePaths g a b c₁ c₁' := by
  obtain ⟨c₁, todo, hrun, hlabels, hcost, hp1⟩ := dijkstra_spec hr srcAddr c
  obtain ⟨c₁', todo', hrun', hlabels', hcost', hp1'⟩ := dijkstra_spec hr srcAddr c'
  let L := g.start srcAddr c.dijkstra_hops
  let L' := g.start srcAddr c'.dijkstra_hops
  have hm := measure ws
  have hstart : Dijkstra.Shifted ULONG_MAX a b L L' := by
    refine ⟨rfl, rfl, rfl, fun n hn => ?_⟩
    have hmem : n ∈ g.nodes := by
      by_contra hmem
      have htop : L.cost n = ULONG_MAX := if_neg hmem
      rw [htop] at hn
      exact Nat.lt_irrefl _ ((hm.lt_iff _ _).1 hn)
    have hroot : g.mainOf n = srcAddr := by
      by_contra hne
      rw [Shape.start_cost hmem, if_neg hne] at hn
      exact Nat.lt_irrefl _ ((hm.lt_iff _ _).1 hn)
    have hL : L.hops n = c.dijkstra_hops n := Shape.field_of_mem hmem
    have hL' : L'.hops n = c'.dijkstra_hops n := Shape.field_of_mem hmem
    rw [hL, hL']
    exact ha.hops n hmem hroot
  have hshift := hstart.run (G := g.graph c.link_cost) hm h.brk (List.nodup_reverse.2 hr.nodes_nodup)
  have hout : (g.graph c'.link_cost).out = (g.graph c.link_cost).out := rfl
  have hgraph : Dijkstra.run (g.graph c'.link_cost) ULONG_MAX h.brk L' =
      Dijkstra.run (g.graph c.link_cost) ULONG_MAX h.brk L' :=
    Dijkstra.run_congr hout rfl (fun _ l hl => ha.cost l (List.mem_filter.1 hl).1) h.brk L'
  rw [← hgraph, ← hlabels, ← hlabels'] at hshift
  have hsame : SamePaths g a b c₁ c₁' := by
    have hfield : ∀ {β : Type} {d : β} {f f' : Ptr → β} {n : Ptr}, n ∈ g.nodes → g.field d f' = g.field d f →
        f' n = f n := by
      intro β d f f' n hn heq
      have heq := congrFun heq n
      rwa [Shape.field_of_mem hn, Shape.field_of_mem hn] at heq
    refine ⟨fun n hn => hfield hn hshift.cost, fun n hn => hfield hn hshift.pred, fun n hn hreached => ?_⟩
    have hc : (c₁.labels g todo).cost n = c₁.dijkstra_cost n := Shape.field_of_mem hn
    have hh : (c₁.labels g todo).hops n = c₁.dijkstra_hops n := Shape.field_of_mem hn
    have hh' : (c₁'.labels g todo').hops n = c₁'.dijkstra_hops n := Shape.field_of_mem hn
    have hlt : (c₁.labels g todo).cost n < ULONG_MAX := by
      rw [hc, hm.lt_iff]
      exact lt_of_le_of_ne (hm.le_top _) fun heq => hreached (hm.inj _ _ heq)
    rw [← hh, ← hh']
    exact hshift.hops n hlt
  obtain ⟨c₂, hrun₂, -, -, hroot, -⟩ := round_spec hr srcAddr c
  obtain ⟨c₂', hrun₂', -, -, hroot', -⟩ := round_spec hr srcAddr c'
  rw [hrun, Option.some_inj] at hrun₂
  rw [hrun', Option.some_inj] at hrun₂'
  subst hrun₂ hrun₂'
  refine ⟨c₁, c₁', hrun, hrun', ⟨?_, ?_, ?_⟩, hsame⟩
  · rw [hcost, hcost']
    exact ha.cost
  · rw [hp1, hp1']
    exact ha.cost_p1
  · intro r hrn hrs
    rw [(hroot r hrn hrs).1, (hroot' r hrn hrs).1]
    exact ha.hops r hrn hrs

theorem BackPath.congr (hr : Rep h g) {c c' : Scratch ws} {s v : Ptr} {es : List (LinkInfo ws)}
    (hb : BackPath g c s v es) (hs : s ∈ g.nodes) (hpath : ∀ n ∈ g.nodes, c'.dijkstra_path n = c.dijkstra_path n) :
    BackPath g c' s v es := by
  induction hb with
  | source hnone => exact .source ((hpath s hs).trans hnone)
  | link _ hl hpred ih => exact .link ih hl ((hpath _ (hr.ends _ hl).2).trans hpred)

/-- The costs after the loop back only depend on the costs of the links. -/
theorem Rep.inflateAll_congr (hr : Rep h g) (conf : Conf) {cost cost' p1 p1' : Ptr → ULong ws} {c : Scratch ws}
    {s v : Ptr} {es : List (LinkInfo ws)} (hb : BackPath g c s v es) (hnodup : (s :: es.map LinkInfo.dst).Nodup)
    (hcost : ∀ l ∈ g.links, cost' l.name = cost l.name) (hp1 : ∀ l ∈ g.links, p1' l.name = p1 l.name) :
    ∀ l ∈ g.links, g.inflateAll conf cost' es p1' l.name = g.inflateAll conf cost es p1 l.name := by
  intro l hl
  obtain ⟨hinto, hback, hkeep⟩ := hr.inflateAll_apply conf cost hb hnodup p1 hl
  obtain ⟨hinto', hback', hkeep'⟩ := hr.inflateAll_apply conf cost' hb hnodup p1' hl
  by_cases hd : ∃ e ∈ es, e.dst = l.dst
  · obtain ⟨e, he, hd⟩ := hd
    rw [hinto e he hd, hinto' e he hd, hcost l hl]
  · have hd : ∀ e ∈ es, e.dst ≠ l.dst := fun e he hed => hd ⟨e, he, hed⟩
    by_cases hf : ∃ e ∈ es, g.linkBetween e.dst e.src = some l
    · rw [hback hd hf, hback' hd hf, hcost l hl]
    · have hf : ∀ e ∈ es, g.linkBetween e.dst e.src ≠ some l := fun e he hfe => hf ⟨e, he, hfe⟩
      rw [hkeep hd hf, hkeep' hd hf, hp1 l hl]

theorem copyBack_congr (hr : Rep h g) {c c' : Scratch ws} {s v : Ptr} {es : List (LinkInfo ws)} (hs : s ∈ g.nodes)
    (hb : BackPath g c s v es) (hpath : ∀ n ∈ g.nodes, c'.dijkstra_path n = c.dijkstra_path n) (k : ℕ) :
    copyBack h c' (s :: es.map LinkInfo.dst) k = copyBack h c (s :: es.map LinkInfo.dst) k := by
  rw [copyBack, copyBack]
  generalize (List.replicate (k * ip_v4_size) (0 : Byte), (k : ℤ) - 1) = w
  induction hb generalizing w with
  | source hnone =>
    simp only [List.map_nil, List.reverse_singleton, List.foldlM_cons, List.foldlM_nil, copyAddr, hpath s hs]
  | @link l es _ hl _ ih =>
    have hrev : (s :: (es ++ [l]).map LinkInfo.dst).reverse = l.dst :: (s :: es.map LinkInfo.dst).reverse := by simp
    have hcopy : copyAddr h c' l.dst w = copyAddr h c l.dst w := by
      rw [copyAddr, copyAddr, hpath _ (hr.ends l hl).2]
    rw [hrev, List.foldlM_cons, List.foldlM_cons, hcopy]
    cases copyAddr h c l.dst w with
    | none => rfl
    | some w' => exact ih w'

/-! ### The loop -/

/-- What can be seen of the loop: whether it ran to its end, and the paths. -/
def seen (r : Bool × List PathBlock × Daemon ws) : Bool × List OlsrPath := (r.1, r.2.1.map PathBlock.toOlsrPath)

theorem map_insertPath (path : PathBlock) (ring : List PathBlock) : (insertPath path ring).map PathBlock.toOlsrPath =
    match ring.map PathBlock.toOlsrPath with
    | [] => [path.toOlsrPath]
    | first :: paths => first :: path.toOlsrPath :: paths := by
  cases ring with
  | nil => rfl
  | cons first ring => rfl

/-- Alike states find the same paths. -/
theorem Alike.pathLoop (hr : Rep h g) {conf : Conf} {srcAddr : ip_v4_addr ws} {d : Ptr} (hd : d ∈ g.nodes) (k : ℕ)
    {s s' : Daemon ws} {ring ring' : List PathBlock} (hs : AtRound h g conf s) (hs' : AtRound h g conf s')
    (ha : Alike g srcAddr 0 0 s.scratch s'.scratch)
    (hring : ring'.map PathBlock.toOlsrPath = ring.map PathBlock.toOlsrPath) :
    (MpOlsr.pathLoop srcAddr d k ring' s').map seen = (MpOlsr.pathLoop srcAddr d k ring s).map seen := by
  induction k generalizing s s' ring ring' with
  | zero =>
    rw [MpOlsr.pathLoop, MpOlsr.pathLoop, Option.map_some, Option.map_some, seen, seen, hring]
  | succ k ih =>
    obtain ⟨rfl, rfl, hcosts⟩ := hs
    obtain ⟨hstore, hconf, hcosts'⟩ := hs'
    obtain ⟨c₁, c₁', hdij, hdij', ha₁, hsame⟩ := ha.dijkstra hr
    obtain ⟨c₂, hrun, -, -, -, hfound⟩ := round_spec hr srcAddr s.scratch
    rw [hdij, Option.some_inj] at hrun
    subst hrun
    rw [MpOlsr.pathLoop, MpOlsr.pathLoop, hstore, hconf, hdij, hdij']
    simp only [Option.bind_eq_bind, Option.bind_some, hsame.cost d hd]
    by_cases htop : c₁.dijkstra_cost d = ULONG_MAX
    · rw [if_pos htop, if_pos htop]
      simp only [Option.pure_def, Option.map_some, seen, hring]
    · rw [if_neg htop, if_neg htop]
      obtain ⟨r, es, hf⟩ := hfound d hd htop
      have hlen := hr.trail_length hf.mem hf.back hf.simple
      have hback' := hf.back.congr hr hf.mem hsame.path
      obtain ⟨cost, hcost, hretrieve⟩ := retrievePath_spec hr s.conf hf.mem hf.back hlen
      obtain ⟨cost', hcost', hretrieve'⟩ := retrievePath_spec hr s.conf hf.mem hback' hlen
      have hhops : c₁'.dijkstra_hops d = c₁.dijkstra_hops d := hsame.hops d hd htop
      have hinflate := hr.inflateAll_congr s.conf hf.back hf.simple ha₁.cost ha₁.cost_p1
      rw [hretrieve, hretrieve', copyBack_congr hr hf.mem hf.back hsame.path, hhops]
      cases copyBack s.store c₁ (r :: es.map LinkInfo.dst) (c₁.dijkstra_hops d) with
      | none => rfl
      | some w =>
        refine ih ⟨rfl, rfl, fun l hl => (hcost l hl).symm⟩ ⟨rfl, rfl, fun l hl => (hcost' l hl).symm⟩ ⟨?_, ?_, ?_⟩ ?_
        · intro l hl
          exact (hcost' l hl).trans ((hinflate l hl).trans (hcost l hl).symm)
        · exact hinflate
        · exact ha₁.hops
        · rw [map_insertPath, map_insertPath, hring]

/-- The first path has the hops that the first run of `dijkstra` gives the destination. -/
theorem pathLoop_first {h : Store .ilp32} {g : Shape .ilp32} (hr : Rep h g) {conf : Conf}
    {srcAddr : ip_v4_addr .ilp32} {d : Ptr} (hd : d ∈ g.nodes) (k : ℕ) {s : Daemon .ilp32} (hs : AtRound h g conf s)
    {c₁ : Scratch .ilp32} (hdij : dijkstra h srcAddr s.scratch = some c₁) (htop : c₁.dijkstra_cost d ≠ ULONG_MAX) :
    ∃ b ring' s' first, pathLoop srcAddr d (k + 1) [] s = some (b, ring', s') ∧ ring'.head? = some first ∧
      first.path_hops = c₁.dijkstra_hops d := by
  obtain ⟨c₁', hdij', -, -, hnext⟩ := hs.pathLoop_succ hr srcAddr hd
  rw [hdij, Option.some_inj] at hdij'
  subst hdij'
  obtain ⟨r, es, s₂, -, hs₂, -, -, -, -, hloop⟩ := hnext htop
  obtain ⟨b, ring', s', hrun, hfirst⟩ := pathLoop_total hr srcAddr hd k [g.block c₁ d es s.path_brk] hs₂
  exact ⟨b, ring', s', _, (hloop k []).trans hrun, hfirst _ rfl, rfl⟩

/-! ### Several paths -/

/-- Two states cannot be told apart by the paths to a destination: the source has the same hops in both, or no path is
computed. -/
def Unaffected (g : Shape ws) (s s' : Daemon ws) (srcAddr dstAddr : ip_v4_addr ws) : Prop :=
  (∀ r ∈ g.nodes, g.mainOf r = srcAddr → s'.scratch.dijkstra_hops r = s.scratch.dijkstra_hops r) ∨
    s.conf.g_conf_path < 1 ∨ ∀ d, tc_get_node s.store dstAddr = some (some d) → reaches s.store srcAddr d = false

/-- What is returned and kept, from what is seen of the loop. -/
def finish (v : Bool × List OlsrPath) : Option OlsrPath × List OlsrPath := (if v.1 then v.2.head? else none, v.2)

theorem outcome_unknown {s : Daemon ws} {dstAddr : ip_v4_addr ws} (srcAddr : ip_v4_addr ws)
    (hd : tc_get_node s.store dstAddr = some none) : outcome (tc_k_dijstra s srcAddr dstAddr) = some (none, []) := by
  rw [tc_k_dijstra, hd]
  rfl

/-- The computation for a registered destination starts the loop on the real costs. -/
theorem outcome_known {s : Daemon ws} (hr : Rep s.store g) (srcAddr : ip_v4_addr ws) {dstAddr : ip_v4_addr ws}
    {d : Ptr} (hd : tc_get_node s.store dstAddr = some (some d)) :
    ∃ s₀, AtRound s.store g s.conf s₀ ∧ (∀ l ∈ g.links, s₀.scratch.link_cost l.name = l.cost) ∧
      s₀.scratch.dijkstra_hops = s.scratch.dijkstra_hops ∧ outcome (tc_k_dijstra s srcAddr dstAddr) =
        ((pathLoop srcAddr d s.conf.g_conf_path.toNat [] s₀).map seen).map finish := by
  obtain ⟨cost, p1, hreset, hcosts, hs₀⟩ := AtRound.reset hr rfl
  refine ⟨_, hs₀, hcosts, rfl, ?_⟩
  rw [tc_k_dijstra, hd, Option.bind_eq_bind, Option.bind_some]
  simp only [hreset, Option.bind_eq_bind, Option.bind_some]
  cases pathLoop srcAddr d s.conf.g_conf_path.toNat []
      { s with scratch := { s.scratch with link_cost := cost, link_cost_p1 := p1 } } with
  | none => rfl
  | some r =>
    obtain ⟨b, ring, s'⟩ := r
    cases b with
    | false => simp [outcome, seen, finish]
    | true => cases ring <;> simp [outcome, seen, finish]

/-- Where the main addresses differ, the source is one node, and states with the same costs are alike. -/
theorem WellFormed.alike (hw : WellFormed h g) {conf : Conf} (srcAddr : ip_v4_addr ws) {s s' : Daemon ws}
    (hs : AtRound h g conf s) (hs' : AtRound h g conf s')
    (hcost : ∀ l ∈ g.links, s'.scratch.link_cost l.name = s.scratch.link_cost l.name) :
    ∃ a b, Alike g srcAddr a b s.scratch s'.scratch ∧ ∀ r ∈ g.nodes, g.mainOf r = srcAddr →
      a = s.scratch.dijkstra_hops r ∧ b = s'.scratch.dijkstra_hops r := by
  have hp1 : ∀ l ∈ g.links, s'.scratch.link_cost_p1 l.name = s.scratch.link_cost_p1 l.name :=
    fun l hl => by rw [hs.costs l hl, hs'.costs l hl, hcost l hl]
  by_cases hex : ∃ r ∈ g.nodes, g.mainOf r = srcAddr
  · obtain ⟨r, hrn, hrs⟩ := hex
    have hone : ∀ n ∈ g.nodes, g.mainOf n = srcAddr → n = r := fun n hn hns => hw.mains n hn r hrn (hns.trans hrs.symm)
    refine ⟨s.scratch.dijkstra_hops r, s'.scratch.dijkstra_hops r, ⟨hcost, hp1, fun n hn hns => ?_⟩, fun n hn hns => ?_⟩
    · rw [hone n hn hns]
      omega
    · rw [hone n hn hns]
      exact ⟨rfl, rfl⟩
  · exact ⟨0, 0, ⟨hcost, hp1, fun n hn hns => (hex ⟨n, hn, hns⟩).elim⟩, fun n hn hns => (hex ⟨n, hn, hns⟩).elim⟩

/-- Whether a node is reached in the first round does not depend on the state. -/
theorem WellFormed.reaches_iff (hw : WellFormed h g) {conf : Conf} (srcAddr : ip_v4_addr ws) {d : Ptr} (hd : d ∈ g.nodes)
    {s : Daemon ws} (hs : AtRound h g conf s) (hcost : ∀ l ∈ g.links, s.scratch.link_cost l.name = l.cost)
    {c₁ : Scratch ws} (hdij : dijkstra h srcAddr s.scratch = some c₁) :
    reaches h srcAddr d = true ↔ c₁.dijkstra_cost d ≠ ULONG_MAX := by
  have hr := hw.toRep
  obtain ⟨cost, p1, hreset, hcosts, hs₀⟩ := AtRound.reset (s := ⟨h, Scratch.zero, [], 0, conf⟩) hr rfl
  obtain ⟨a, b, halike, -⟩ := hw.alike srcAddr hs hs₀ fun l hl => (hcosts l hl).trans (hcost l hl).symm
  obtain ⟨c₂, c₂', hdij₂, hdij₂', -, hsame⟩ := halike.dijkstra hr
  rw [hdij, Option.some_inj] at hdij₂
  subst hdij₂
  have hreset : forLinks h (resetCost h) Scratch.zero = _ := hreset
  rw [reaches, hreset, Option.bind_some, hdij₂', Option.any_some, decide_eq_true_eq, hsame.cost d hd]

/-- Nothing is found in a loop whose first round does not reach the destination. -/
theorem pathLoop_unreached {conf : Conf} {srcAddr : ip_v4_addr ws} {d : Ptr} {s : Daemon ws} (hs : AtRound h g conf s)
    {c₁ : Scratch ws} (hdij : dijkstra h srcAddr s.scratch = some c₁) (htop : c₁.dijkstra_cost d = ULONG_MAX) (k : ℕ) :
    (pathLoop srcAddr d (k + 1) [] s).map seen = some (false, []) := by
  rw [pathLoop, hs.store, hdij, Option.bind_eq_bind, Option.bind_some, if_pos htop]
  rfl

/-- The paths do not depend on what earlier computations have left, as long as the hops of the source are the same or
no path is computed.  Where an `unsigned long` has the size of an address, the computation returns, and different hops
of the source give different paths. -/
theorem scratch_independent (s s' : Daemon ws) (hw : WellFormed s.store g) (hstore : s'.store = s.store)
    (hconf : s'.conf = s.conf) (srcAddr dstAddr : ip_v4_addr ws) :
    (Unaffected g s s' srcAddr dstAddr →
      outcome (tc_k_dijstra s srcAddr dstAddr) = outcome (tc_k_dijstra s' srcAddr dstAddr)) ∧
    (ws = .ilp32 → (outcome (tc_k_dijstra s srcAddr dstAddr)).isSome ∧
      (outcome (tc_k_dijstra s srcAddr dstAddr) = outcome (tc_k_dijstra s' srcAddr dstAddr) →
        Unaffected g s s' srcAddr dstAddr)) := by
  have hr := hw.toRep
  have hr' : Rep s'.store g := hstore ▸ hr
  have hget := hr.get_node dstAddr
  cases hdst : resolve g.addrs dstAddr with
  | none =>
    rw [hdst, Option.map_none] at hget
    have hget' : tc_get_node s'.store dstAddr = some none := hstore ▸ hget
    rw [outcome_unknown srcAddr hget, outcome_unknown srcAddr hget']
    refine ⟨fun _ => rfl, fun _ => ⟨rfl, fun _ => Or.inr (Or.inr fun d hd => ?_)⟩⟩
    rw [hget] at hd
    cases hd
  | some e =>
    rw [hdst, Option.map_some] at hget
    have hd : e.node ∈ g.nodes := hr.resolve_node hdst
    have hget' : tc_get_node s'.store dstAddr = some (some e.node) := hstore ▸ hget
    obtain ⟨s₀, hs₀, hcost, hhops, hout⟩ := outcome_known hr srcAddr hget
    obtain ⟨s₀', hs₀', hcost', hhops', hout'⟩ := outcome_known hr' srcAddr hget'
    rw [hstore, hconf] at hs₀'
    rw [hconf] at hout'
    have hsame : ∀ l ∈ g.links, s₀'.scratch.link_cost l.name = s₀.scratch.link_cost l.name :=
      fun l hl => (hcost' l hl).trans (hcost l hl).symm
    obtain ⟨a, b, halike, hab⟩ := hw.alike srcAddr hs₀ hs₀' hsame
    obtain ⟨c₁, c₁', hdij, hdij', -, hpaths⟩ := halike.dijkstra hr
    have hreach := hw.reaches_iff srcAddr hd hs₀ hcost hdij
    have hreach' := hw.reaches_iff srcAddr hd hs₀' hcost' hdij'
    rw [hout, hout']
    constructor
    · intro hun
      rcases hun with hagree | hzero | hnot
      · have halike : Alike g srcAddr 0 0 s₀.scratch s₀'.scratch := by
          refine ⟨hsame, fun l hl => ?_, fun r hrn hrs => ?_⟩
          · rw [hs₀.costs l hl, hs₀'.costs l hl, hsame l hl]
          · rw [hhops, hhops']
            exact hagree r hrn hrs
        rw [halike.pathLoop hr hd _ hs₀ hs₀' rfl]
      · have hnat : s.conf.g_conf_path.toNat = 0 := by omega
        rw [hnat]
        rfl
      · have hfalse := hnot e.node hget
        cases hnat : s.conf.g_conf_path.toNat with
        | zero => rfl
        | succ k =>
          have htop : c₁.dijkstra_cost e.node = ULONG_MAX := by
            by_contra hne
            rw [hreach.2 hne] at hfalse
            cases hfalse
          have htop' : c₁'.dijkstra_cost e.node = ULONG_MAX := by
            by_contra hne
            rw [hreach'.2 hne] at hfalse
            cases hfalse
          rw [pathLoop_unreached hs₀ hdij htop, pathLoop_unreached hs₀' hdij' htop']
    · rintro rfl
      obtain ⟨done, ring, t, hrun, -⟩ := pathLoop_total hr srcAddr hd s.conf.g_conf_path.toNat [] hs₀
      refine ⟨by rw [hrun]; rfl, fun heq => ?_⟩
      by_contra hnot
      obtain ⟨hdiffer, hnot⟩ := not_or.1 hnot
      obtain ⟨hpos, hreached⟩ := not_or.1 hnot
      obtain ⟨k, hk⟩ : ∃ k, s.conf.g_conf_path.toNat = k + 1 := ⟨s.conf.g_conf_path.toNat - 1, by omega⟩
      have htrue : reaches s.store srcAddr e.node = true := by
        by_contra hfalse
        refine hreached fun d hd' => ?_
        rw [hget, Option.some_inj, Option.some_inj] at hd'
        rw [← hd']
        exact Bool.not_eq_true _ ▸ hfalse
      obtain ⟨b₁, ring₁, t₁, first, hrun₁, hhead, hfirst⟩ := pathLoop_first hr hd k hs₀ hdij (hreach.1 htrue)
      obtain ⟨b₂, ring₂, t₂, first', hrun₂, hhead', hfirst'⟩ := pathLoop_first hr hd k hs₀' hdij' (hreach'.1 htrue)
      -- the first paths have as many hops, so the source has as many in both states
      rw [hk, hrun₁, hrun₂, Option.map_some, Option.map_some, Option.map_some, Option.map_some, Option.some_inj] at heq
      have hring : ring₁.map PathBlock.toOlsrPath = ring₂.map PathBlock.toOlsrPath := (Prod.mk.injEq _ _ _ _ ▸ heq).2
      have hheads := congrArg List.head? hring
      rw [List.head?_map, List.head?_map, hhead, hhead', Option.map_some, Option.map_some, Option.some_inj] at hheads
      have heq₁ : c₁'.dijkstra_hops e.node = c₁.dijkstra_hops e.node := by
        rw [← hfirst, ← hfirst', hheads]
      have hshift := hpaths.hops e.node hd (hreach.1 htrue)
      refine hdiffer fun r hrn hrs => ?_
      obtain ⟨ha, hb⟩ := hab r hrn hrs
      rw [← hhops, ← hhops', ← ha, ← hb]
      omega

/-- On the line, what the fields of the other nodes hold does not matter. -/
theorem scratch_independent_demo : ∃ h : Store .ilp32, handleReads tc_init_data lineEvents = some h ∧
    (outcome (tc_k_dijstra ⟨h, Scratch.zero, [], 0, ⟨2, 2, 3⟩⟩ 1 3)).isSome ∧
    outcome (tc_k_dijstra ⟨h, Scratch.zero, [], 0, ⟨2, 2, 3⟩⟩ 1 3) =
      outcome (tc_k_dijstra ⟨h, { Scratch.zero with
        dijkstra_cost := fun _ => 7, dijkstra_hops := fun n => n, dijkstra_path := some }, [], 9, ⟨2, 2, 3⟩⟩ 1 3) := by
  obtain ⟨h, hrun, hw⟩ := line_wellFormed
  obtain ⟨hsame, h32⟩ := scratch_independent ⟨h, Scratch.zero, [], 0, ⟨2, 2, 3⟩⟩ ⟨h, { Scratch.zero with
    dijkstra_cost := fun _ => 7, dijkstra_hops := fun n => n, dijkstra_path := some }, [], 9, ⟨2, 2, 3⟩⟩ hw rfl rfl 1 3
  refine ⟨h, hrun, (h32 rfl).1, hsame (Or.inl ?_)⟩
  have hall : ∀ r ∈ line.nodes, line.mainOf r = 1 → r = 0 := by decide
  exact hall

/-- A path from the first to the last node of the line leaves two hops in the last node, and the paths found from there
start with two more. -/
theorem scratch_dependent : ∃ (h : Store .ilp32) (r : Option PathBlock) (s' : Daemon .ilp32),
    handleReads tc_init_data lineEvents = some h ∧
    tc_k_dijstra ⟨h, Scratch.zero, [], 0, ⟨1, 2, 2⟩⟩ 1 3 = some (r, s') ∧ s'.store = h ∧ s'.conf = ⟨1, 2, 2⟩ ∧
    outcome (tc_k_dijstra ⟨h, Scratch.zero, [], 0, ⟨1, 2, 2⟩⟩ 3 1) ≠ outcome (tc_k_dijstra s' 3 1) := by
  have hfresh : ((handleReads tc_init_data lineEvents).bind fun h =>
      outcome (tc_k_dijstra ⟨h, Scratch.zero, [], 0, ⟨1, 2, 2⟩⟩ 3 1)).map (fun v => v.2.map OlsrPath.path_hops) =
      some [2] := by decide
  have hlater : ((handleReads tc_init_data lineEvents).bind fun h =>
      (tc_k_dijstra ⟨h, Scratch.zero, [], 0, ⟨1, 2, 2⟩⟩ 1 3).bind fun r => outcome (tc_k_dijstra r.2 3 1)).map
      (fun v => v.2.map OlsrPath.path_hops) = some [4] := by decide
  obtain ⟨h, hrun, hw⟩ := line_wellFormed
  rw [hrun, Option.bind_some] at hfresh hlater
  obtain ⟨v, hv, hvals⟩ := Option.map_eq_some_iff.1 hlater
  obtain ⟨⟨r, s'⟩, hk, hv⟩ := Option.bind_eq_some_iff.1 hv
  obtain ⟨hstore, hconf⟩ := tc_k_dijstra_store hw.toRep hk
  refine ⟨h, r, s', hrun, hk, hstore, hconf, fun heq => ?_⟩
  rw [heq, hv, Option.map_some, hvals] at hfresh
  exact absurd hfresh (by decide)

end MpOlsr
