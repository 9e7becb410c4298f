import MpOlsr.Lib.Fault
import MpOlsr.Paths.Shortest

/-!
# The retrieved path

What `tc_k_dijstra` does between two runs of `dijkstra`: the loop back along `dijkstra_path` writes the addresses of the
path (`copyBack_spec`), and increases the costs of the links near the path (`retrievePath_spec`).
-/

namespace MpOlsr

open DoublyLinked

variable {ws : WordSize} {h : Store ws} {g : Shape ws}

/-! ### Loops over the links -/

theorem Rep.getHead_src (hr : Rep h g) {n : Ptr} (hn : n ∈ g.nodes) :
    h.src.getHead h.liveNode n = some (h.src.head n) := by
  rw [Links.getHead, if_pos (hr.liveNode hn)]

theorem Rep.getHead_dst (hr : Rep h g) {n : Ptr} (hn : n ∈ g.nodes) :
    h.dst.getHead h.liveNode n = some (h.dst.head n) := by
  rw [Links.getHead, if_pos (hr.liveNode hn)]

/-- The links in the order of the loops over all links. -/
def Shape.allLinks (g : Shape ws) : List (LinkInfo ws) := g.nodes.flatMap fun n => g.links.filter (·.src = n)

theorem Rep.mem_allLinks (hr : Rep h g) {l : LinkInfo ws} : l ∈ g.allLinks ↔ l ∈ g.links := by
  rw [Shape.allLinks, List.mem_flatMap]
  constructor
  · intro hl
    obtain ⟨n, -, hl⟩ := hl
    exact (List.mem_filter.1 hl).1
  · intro hl
    exact ⟨l.src, (hr.ends l hl).1, List.mem_filter.2 ⟨hl, decide_eq_true rfl⟩⟩

theorem forLinks_spec (hr : Rep h g) {set : Scratch ws → Ptr → Option (Scratch ws)}
    {F : Scratch ws → LinkInfo ws → Scratch ws} (hset : ∀ c, ∀ l ∈ g.links, set c l.name = some (F c l))
    (c : Scratch ws) : forLinks h set c = some (g.allLinks.foldl F c) := by
  let P : List Ptr → Scratch ws → Prop := fun rest c' =>
    (rest.flatMap fun n => g.links.filter (·.src = n)).foldl F c' = g.allLinks.foldl F c
  have hlink : ∀ n c', ∃ c'', walk (setLinkStep h set) h.brk c' (h.src.head n) = some c'' ∧
      c'' = (g.links.filter (·.src = n)).foldl F c' := by
    intro n c'
    refine hr.walk_out n (fun rest c'' => rest.foldl F c'' = (g.links.filter (·.src = n)).foldl F c') ?_ rfl
    intro l rest c'' hl hQ
    have hl := (List.mem_filter.1 hl).1
    refine ⟨F c'' l, ?_, hQ⟩
    rw [setLinkStep, hset c'' l hl, Option.bind_eq_bind, Option.bind_some, hr.getNext_src hl]
    rfl
  have hrun : ∀ n rest c', n ∈ g.nodes → P (n :: rest) c' →
      ∃ c'', setLinksStep h set c' n = some (c'', h.node_lst.next n) ∧ P rest c'' := by
    intro n rest c' hn hP
    obtain ⟨c'', hwalk, hc''⟩ := hlink n c'
    refine ⟨c'', ?_, ?_⟩
    · rw [setLinksStep, hr.getHead_src hn, Option.bind_eq_bind, Option.bind_some, hwalk, Option.bind_eq_bind,
        Option.bind_some, hr.getNext_node hn]
      rfl
    · show (rest.flatMap _).foldl F c'' = _
      rw [← hP, List.flatMap_cons, List.foldl_append, hc'']
  obtain ⟨c', hwalk, hP⟩ := hr.walk_nodes P hrun (s := c) rfl
  exact hwalk.trans (congrArg some hP)

/-- The names of the links are different. -/
theorem Rep.link_name_inj (hr : Rep h g) : ∀ l ∈ g.allLinks, ∀ l' ∈ g.allLinks, l.name = l'.name → l = l' :=
  fun _ hl _ hl' => eq_of_name hr.linksRep.names (hr.mem_allLinks.1 hl) (hr.mem_allLinks.1 hl')

theorem resetCosts_spec (hr : Rep h g) (c : Scratch ws) : ∃ cost p1,
    forLinks h (resetCost h) c = some { c with link_cost := cost, link_cost_p1 := p1 } ∧
    ∀ l ∈ g.links, cost l.name = l.cost ∧ p1 l.name = l.cost := by
  let F : Scratch ws → LinkInfo ws → Scratch ws := fun c l =>
    { c with link_cost := Function.update c.link_cost l.name l.cost,
             link_cost_p1 := Function.update c.link_cost_p1 l.name l.cost }
  have hset : ∀ c, ∀ l ∈ g.links, resetCost h c l.name = some (F c l) := by
    intro c l hl
    rw [resetCost, hr.linksRep.blocks l hl]
    rfl
  have hfold : ∀ (ls : List (LinkInfo ws)) (c : Scratch ws), ls.foldl F c =
      { c with link_cost := ls.foldl (fun f l => Function.update f l.name l.cost) c.link_cost,
               link_cost_p1 := ls.foldl (fun f l => Function.update f l.name l.cost) c.link_cost_p1 } := by
    intro ls
    induction ls with
    | nil => exact fun _ => rfl
    | cons l ls ih => exact fun c => ih (F c l)
  refine ⟨_, _, (forLinks_spec hr hset c).trans (congrArg some (hfold _ c)), fun l hl => ?_⟩
  have hl := hr.mem_allLinks.2 hl
  exact ⟨Fault.foldl_update_of_mem hr.link_name_inj _ hl, Fault.foldl_update_of_mem hr.link_name_inj _ hl⟩

theorem takeCosts_spec (hr : Rep h g) (c : Scratch ws) : ∃ cost,
    forLinks h takeCost c = some { c with link_cost := cost } ∧ ∀ l ∈ g.links, cost l.name = c.link_cost_p1 l.name := by
  let F : Scratch ws → LinkInfo ws → Scratch ws := fun c l =>
    { c with link_cost := Function.update c.link_cost l.name (c.link_cost_p1 l.name) }
  have hfold : ∀ (ls : List (LinkInfo ws)) (c : Scratch ws), ls.foldl F c =
      { c with link_cost := ls.foldl (fun f l => Function.update f l.name (c.link_cost_p1 l.name)) c.link_cost } := by
    intro ls
    induction ls with
    | nil => exact fun _ => rfl
    | cons l ls ih => exact fun c => ih (F c l)
  refine ⟨_, (forLinks_spec hr (F := F) (fun _ _ _ => rfl) c).trans (congrArg some (hfold _ c)), fun l hl => ?_⟩
  exact Fault.foldl_update_of_mem hr.link_name_inj _ (hr.mem_allLinks.2 hl)

/-! ### The costs near the path -/

/-- The new costs after one step back along the path, from `prev` to `node`. -/
def Shape.inflate (g : Shape ws) (conf : Conf) (cost : Ptr → ULong ws) (prev node : Ptr) (p1 : Ptr → ULong ws) :
    Ptr → ULong ws :=
  let p1 := (g.links.filter (·.dst = prev)).foldl (fun (p1 : Ptr → ULong ws) l => Function.update p1 l.name
    (coefTimes (if l.src = node then conf.g_conf_fp else conf.g_conf_fe) (cost l.name))) p1
  match g.links.find? fun l => l.src = prev ∧ l.dst = node with
  | none => p1
  | some l => Function.update p1 l.name (coefTimes conf.g_conf_fp (cost l.name))

theorem updateLinkCosts_eq (hr : Rep h g) (conf : Conf) {prev : Ptr} (node : Ptr) (hp : prev ∈ g.nodes)
    (c : Scratch ws) : updateLinkCosts h conf prev node c =
      some { c with link_cost_p1 := g.inflate conf c.link_cost prev node c.link_cost_p1 } := by
  let f : (Ptr → ULong ws) → LinkInfo ws → Ptr → ULong ws := fun p1 l => Function.update p1 l.name
    (coefTimes (if l.src = node then conf.g_conf_fp else conf.g_conf_fe) (c.link_cost l.name))
  let ls := g.links.filter (·.dst = prev)
  let P : List (LinkInfo ws) → Scratch ws → Prop := fun rest c' =>
    ∃ p1, c' = { c with link_cost_p1 := p1 } ∧ rest.foldl f p1 = ls.foldl f c.link_cost_p1
  have hrun : ∀ l rest c', l ∈ ls → P (l :: rest) c' →
      ∃ c'', inLinkStep h conf node c' l.name = some (c'', h.dst.next l.name) ∧ P rest c'' := by
    intro l rest c' hl hP
    obtain ⟨p1, rfl, hfold⟩ := hP
    have hblock := hr.linksRep.blocks l (List.mem_filter.1 hl).1
    have hsrc : (some l.src = some node) ↔ l.src = node := Option.some_inj
    refine ⟨_, ?_, f p1 l, rfl, hfold⟩
    rw [inLinkStep, hblock, Option.bind_eq_bind, Option.bind_some, Links.getNext, Store.liveLink, hblock]
    simp only [Option.isSome_some, if_true, LinkInfo.block, hsrc, f]
    rfl
  obtain ⟨c', hwalk, p1, hc', hfold⟩ := hr.linksRep.dst.walk_map (n := prev) rfl P hrun (hr.links_length _) (s := c)
    ⟨_, rfl, rfl⟩
  have hsearch : search (h.src.getNext h.liveLink) (fun p => (h.link_blocks p).map fun l => decide (l.dst_node = some node))
      h.brk (h.src.head prev) = some ((g.links.find? fun l => l.src = prev ∧ l.dst = node).map LinkInfo.name) := by
    let q : Ptr → Bool := fun p => ((h.link_blocks p).map fun l => decide (l.dst_node = some node)).getD false
    have hq : ∀ l ∈ g.links, q l.name = decide (l.dst = node) := by
      intro l hl
      have hdst : (some l.dst = some node) ↔ l.dst = node := Option.some_inj
      simp only [q, hr.linksRep.blocks l hl, Option.map_some, Option.getD_some, LinkInfo.block, hdst]
    have htest : ∀ p ∈ group LinkInfo.src LinkInfo.name g.links prev,
        (h.link_blocks p).map (fun l => decide (l.dst_node = some node)) = some (q p) := by
      intro p hp
      obtain ⟨l, hl, -, rfl⟩ := mem_group.1 hp
      simp only [q, hr.linksRep.blocks l hl, Option.map_some, Option.getD_some]
    rw [hr.linksRep.src.search (group_live hr.linksRep.blocks) htest
      (hr.linksRep.group_length (fun _ hl => hl) (hr.linksRep.src.nodup prev))]
    congr 1
    rw [group, List.find?_map, List.find?_filter]
    congr 1
    refine List.find?_congr fun l hl => ?_
    rw [Function.comp_apply, hq l hl]
    by_cases hs : l.src = prev <;> simp [hs]
  rw [updateLinkCosts, hr.getHead_dst hp, Option.bind_eq_bind, Option.bind_some, hwalk]
  simp only [Option.bind_eq_bind, Option.bind_some]
  rw [hr.getHead_src hp, Option.bind_some, hsearch, Option.bind_some, Shape.inflate]
  have hp1 : p1 = ls.foldl f c.link_cost_p1 := hfold
  cases hfind : g.links.find? fun l => l.src = prev ∧ l.dst = node with
  | none => rw [hc', hp1]; rfl
  | some l => rw [hc', hp1]; rfl

/-- The costs after the step from the node before, if there is one. -/
def Shape.inflateFrom (g : Shape ws) (conf : Conf) (cost : Ptr → ULong ws) (prev : Option Ptr) (node : Ptr)
    (p1 : Ptr → ULong ws) : Ptr → ULong ws :=
  match prev with
  | none => p1
  | some prev => g.inflate conf cost prev node p1

/-- The costs after the loop back along a path. -/
def Shape.inflateAll (g : Shape ws) (conf : Conf) (cost : Ptr → ULong ws) (es : List (LinkInfo ws))
    (p1 : Ptr → ULong ws) : Ptr → ULong ws :=
  es.foldr (fun l => g.inflate conf cost l.dst l.src) p1

/-! ### The loop back -/

theorem BackPath.mem {c : Scratch ws} {s v : Ptr} {es : List (LinkInfo ws)} (hr : Rep h g) (hb : BackPath g c s v es)
    (hs : s ∈ g.nodes) : v ∈ g.nodes := by
  cases hb with
  | source => exact hs
  | link _ hl _ => exact (hr.ends _ hl).2

theorem pathStep_eq (hr : Rep h g) (conf : Conf) {node : Ptr} (hn : node ∈ g.nodes) (c : Scratch ws) (w : PathWriter)
    (prev : Option Ptr) (hprev : ∀ p, prev = some p → p ∈ g.nodes) :
    pathStep h conf (c, w, prev) node = (copyAddr h c node w).map fun w =>
      (({ c with link_cost_p1 := g.inflateFrom conf c.link_cost prev node c.link_cost_p1 }, w, some node),
        c.dijkstra_path node) := by
  obtain ⟨nd, hnd⟩ := hr.node hn
  rw [pathStep, hnd, Option.bind_eq_bind, Option.bind_some]
  cases hw : copyAddr h c node w with
  | none => rfl
  | some w' =>
    cases prev with
    | none => rfl
    | some p =>
      simp only [updateLinkCosts_eq hr conf node (hprev p rfl), Option.bind_eq_bind, Option.bind_some]
      rfl

/-- The loop back visits the nodes of the path, copies their addresses, and updates the costs. -/
theorem walk_pathStep (hr : Rep h g) (conf : Conf) {c : Scratch ws} {s v : Ptr} {es : List (LinkInfo ws)}
    (hs : s ∈ g.nodes) (hb : BackPath g c s v es) (c' : Scratch ws) (hpath : c'.dijkstra_path = c.dijkstra_path)
    (prev : Option Ptr) (hprev : ∀ p, prev = some p → p ∈ g.nodes) (w : PathWriter) {n : ℕ} (hn : es.length < n) :
    walk (pathStep h conf) n (c', w, prev) (some v) =
      ((s :: es.map LinkInfo.dst).reverse.foldlM (fun w node => copyAddr h c node w) w).map fun w =>
        ({ c' with
            link_cost_p1 := g.inflateAll conf c'.link_cost es
              (g.inflateFrom conf c'.link_cost prev v c'.link_cost_p1) }, w, some s) := by
  have hcopy : ∀ node w, copyAddr h c' node w = copyAddr h c node w := by
    intro node w
    rw [copyAddr, copyAddr, hpath]
  induction hb generalizing c' prev w n with
  | source hnone =>
    obtain ⟨m, rfl⟩ : ∃ m, n = m + 1 := ⟨n - 1, by omega⟩
    have hlast : c'.dijkstra_path s = none := by rw [hpath, hnone]
    rw [walk, pathStep_eq hr conf hs _ _ _ hprev, hcopy, hlast, List.map_nil, List.reverse_singleton,
      List.foldlM_cons]
    cases hw : copyAddr h c s w with
    | none => rfl
    | some w' => cases m <;> rfl
  | @link l es hb hl hpred ih =>
    rw [List.length_append, List.length_singleton] at hn
    obtain ⟨m, rfl⟩ : ∃ m, n = m + 1 := ⟨n - 1, by omega⟩
    have hd := (hr.ends l hl).2
    have hrev : (s :: (es ++ [l]).map LinkInfo.dst).reverse = l.dst :: (s :: es.map LinkInfo.dst).reverse := by simp
    have hnext : c'.dijkstra_path l.dst = some l.src := by rw [hpath, hpred]
    rw [walk, pathStep_eq hr conf hd _ _ _ hprev, hcopy, hnext, hrev, List.foldlM_cons]
    cases hw : copyAddr h c l.dst w with
    | none => rfl
    | some w' =>
      rw [Option.map_some, Option.bind_eq_bind, Option.bind_some, Option.bind_eq_bind, Option.bind_some]
      have hm : es.length < m := by omega
      refine (ih { c' with link_cost_p1 := g.inflateFrom conf c'.link_cost prev l.dst c'.link_cost_p1 } hpath
        (some l.dst) (fun p hp => Option.some_inj.1 hp ▸ hd) w' hm hcopy).trans ?_
      congr 1
      funext w''
      rw [Shape.inflateAll, Shape.inflateAll, List.foldr_append]
      rfl

/-- The addresses of the hops of a path, as the packets hold them. -/
def Shape.hopBytes (g : Shape ws) (es : List (LinkInfo ws)) : List Byte :=
  es.flatMap fun l => Bytes.leBytes ip_v4_size (g.mainOf l.dst).toNat

/-- The copies of the loop back, into a block of the given number of addresses. -/
def copyBack (h : Store ws) (c : Scratch ws) (trail : List Ptr) (hops : ℕ) : Option PathWriter :=
  trail.reverse.foldlM (fun w node => copyAddr h c node w) (List.replicate (hops * ip_v4_size) 0, (hops : ℤ) - 1)

/-- Where an `unsigned long` has the size of an address, the addresses fill the end of the block. -/
theorem copyBack_spec {h : Store .ilp32} {g : Shape .ilp32} (hr : Rep h g) {c : Scratch .ilp32} {s v : Ptr}
    {es : List (LinkInfo .ilp32)} (hb : BackPath g c s v es) {k : ℕ} (hk : es.length ≤ k) :
    copyBack h c (s :: es.map LinkInfo.dst) k =
      some (List.replicate ((k - es.length) * ip_v4_size) 0 ++ g.hopBytes es, ((k - es.length : ℕ) : ℤ) - 1) := by
  suffices hgen : ∀ (tail : List Byte) (k : ℕ), es.length ≤ k →
      (s :: es.map LinkInfo.dst).reverse.foldlM (fun w node => copyAddr h c node w)
        (List.replicate (k * ip_v4_size) 0 ++ tail, (k : ℤ) - 1) =
      some (List.replicate ((k - es.length) * ip_v4_size) 0 ++ (g.hopBytes es ++ tail), ((k - es.length : ℕ) : ℤ) - 1) by
    have := hgen [] k hk
    rwa [List.append_nil, List.append_nil] at this
  clear hk k
  induction hb with
  | source hnone =>
    intro tail k _
    rw [List.map_nil, List.reverse_singleton, List.foldlM_cons, copyAddr, hnone]
    rfl
  | @link l es hb hl hpred ih =>
    intro tail k hk
    rw [List.length_append, List.length_singleton] at hk ⊢
    have hrev : (s :: (es ++ [l]).map LinkInfo.dst).reverse = l.dst :: (s :: es.map LinkInfo.dst).reverse := by simp
    obtain ⟨m, rfl⟩ : ∃ m, k = m + 1 := ⟨k - 1, by omega⟩
    have hsplit : (List.replicate ((m + 1) * ip_v4_size) 0 ++ tail : List Byte) =
        List.replicate (m * ip_v4_size) 0 ++ (List.replicate ip_v4_size 0 ++ tail) := by
      rw [Nat.succ_mul, List.replicate_add, List.append_assoc]
    have hwrite : Bytes.write (List.replicate ((m + 1) * ip_v4_size) 0 ++ tail)
        ((((m + 1 : ℕ) : ℤ) - 1) * WordSize.bytes .ilp32) (Bytes.leBytes ip_v4_size (g.mainOf l.dst).toNat) =
        some (List.replicate (m * ip_v4_size) 0 ++ (Bytes.leBytes ip_v4_size (g.mainOf l.dst).toNat ++ tail)) := by
      refine Bytes.write_eq hsplit ?_ (by simp)
      rw [List.length_replicate]
      show (((m + 1 : ℕ) : ℤ) - 1) * 4 = ((m * 4 : ℕ) : ℤ)
      omega
    rw [hrev, List.foldlM_cons, copyAddr, hpred, hr.mainAddrIp_eq (hr.ends l hl).2]
    simp only [Option.bind_eq_bind, Option.bind_some, hwrite]
    have hcursor : (((m + 1 : ℕ) : ℤ) - 1 - 1) = (m : ℤ) - 1 := by omega
    have hlen : m + 1 - (es.length + 1) = m - es.length := by omega
    have hbytes : g.hopBytes (es ++ [l]) = g.hopBytes es ++ Bytes.leBytes ip_v4_size (g.mainOf l.dst).toNat := by
      rw [Shape.hopBytes, Shape.hopBytes, List.flatMap_append, List.flatMap_singleton]
    rw [hcursor, hlen, hbytes, List.append_assoc]
    exact ih _ m (by omega)

/-- The path, and the costs afterwards: those of the loop back. -/
theorem retrievePath_spec (hr : Rep h g) (conf : Conf) {c : Scratch ws} {s d : Ptr} {es : List (LinkInfo ws)}
    (hs : s ∈ g.nodes) (hb : BackPath g c s d es) (hlen : es.length < h.brk) :
    ∃ cost, (∀ l ∈ g.links, cost l.name = g.inflateAll conf c.link_cost es c.link_cost_p1 l.name) ∧
      retrievePath h conf d c = (copyBack h c (s :: es.map LinkInfo.dst) (c.dijkstra_hops d)).map fun w =>
        (⟨c.dijkstra_hops d, w.1⟩,
          { c with link_cost := cost, link_cost_p1 := g.inflateAll conf c.link_cost es c.link_cost_p1 }) := by
  obtain ⟨cost, htake, hcost⟩ := takeCosts_spec hr
    { c with link_cost_p1 := g.inflateAll conf c.link_cost es c.link_cost_p1 }
  refine ⟨cost, hcost, ?_⟩
  rw [retrievePath, walk_pathStep hr conf hs hb c rfl none (fun p hp => by cases hp) _ hlen, copyBack]
  cases (s :: es.map LinkInfo.dst).reverse.foldlM (fun w node => copyAddr h c node w)
      (List.replicate (c.dijkstra_hops d * ip_v4_size) 0, (c.dijkstra_hops d : ℤ) - 1) with
  | none => rfl
  | some w =>
    show (forLinks h takeCost _).bind _ = _
    rw [Option.map_some, Shape.inflateFrom, htake]
    rfl

end MpOlsr
