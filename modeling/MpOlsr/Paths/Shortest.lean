import MpOlsr.Lib.ShortestWalks
import MpOlsr.Lib.SinglyLinked
import MpOlsr.Paths.Compute
import MpOlsr.Topology.Mains

/-!
# Shortest paths in the topology

On a well-formed store `dijkstra` runs Dijkstra's algorithm on the graph of the links (`dijkstra_spec`): the labels are
the fields of the nodes, and the list of nodes to process is threaded through the nodes that are not settled.  So its
costs are those of the shortest paths (`dijkstra_shortest`).
-/

namespace MpOlsr

open DoublyLinked SinglyLinked

variable {ws : WordSize} {h : Store ws} {g : Shape ws}

/-- The graph of the links, with the costs of a function. -/
def Shape.graph (g : Shape ws) (cost : Ptr → ULong ws) : Dijkstra.Graph Ptr (LinkInfo ws) (ULong ws) where
  out := fun n => g.links.filter (·.src = n)
  dst := LinkInfo.dst
  weight := fun l => cost l.name

/-- A field of the nodes, with a default elsewhere. -/
def Shape.field {β : Type} (g : Shape ws) (d : β) (f : Ptr → β) (n : Ptr) : β := if n ∈ g.nodes then f n else d

/-- The labels of the nodes. -/
def Scratch.labels (c : Scratch ws) (g : Shape ws) (todo : List Ptr) : Dijkstra.Labels Ptr (ULong ws) where
  cost := g.field ULONG_MAX c.dijkstra_cost
  pred := g.field none c.dijkstra_path
  hops := g.field 0 c.dijkstra_hops
  todo := todo

/-- The labels as the algorithm starts, which keep the hops. -/
def Shape.start (g : Shape ws) (srcAddr : ip_v4_addr ws) (hops : Ptr → ℕ) : Dijkstra.Labels Ptr (ULong ws) where
  cost := g.field ULONG_MAX fun n => if g.mainOf n = srcAddr then 0 else ULONG_MAX
  pred := fun _ => none
  hops := g.field 0 hops
  todo := g.nodes.reverse

/-- The nodes `todo` are the ones to process. -/
structure Todo (g : Shape ws) (c : Scratch ws) (node_list : Option Ptr) (todo : List Ptr) : Prop where
  threads : Threads c.dijkstra_list node_list todo
  nodup : todo.Nodup
  sub : ∀ n ∈ todo, n ∈ g.nodes
  processed : ∀ n ∈ g.nodes, c.dijkstra_processed n = false ↔ n ∈ todo

/-! ### Fields -/

theorem Shape.field_of_mem {β : Type} {d : β} {f : Ptr → β} {n : Ptr} (hn : n ∈ g.nodes) : g.field d f n = f n :=
  if_pos hn

theorem Shape.start_cost {n : Ptr} (hn : n ∈ g.nodes) (srcAddr : ip_v4_addr ws) (hops : Ptr → ℕ) :
    (g.start srcAddr hops).cost n = if g.mainOf n = srcAddr then 0 else ULONG_MAX := if_pos hn

theorem Shape.field_congr {β : Type} {d : β} {f f' : Ptr → β} (hf : ∀ n ∈ g.nodes, f n = f' n) :
    g.field d f = g.field d f' := by
  funext n
  rw [Shape.field, Shape.field]
  by_cases hn : n ∈ g.nodes
  · rw [if_pos hn, if_pos hn, hf n hn]
  · rw [if_neg hn, if_neg hn]

theorem Shape.field_update {β : Type} {d : β} {f : Ptr → β} {n : Ptr} (hn : n ∈ g.nodes) (x : β) :
    g.field d (Function.update f n x) = Function.update (g.field d f) n x := by
  funext m
  by_cases hm : m = n
  · subst hm
    rw [Function.update_self, Shape.field_of_mem hn, Function.update_self]
  · rw [Function.update_of_ne hm, Shape.field, Shape.field, Function.update_of_ne hm]

/-- The labels after the fields of a node are set. -/
theorem Scratch.labels_update (c : Scratch ws) (todo : List Ptr) {d : Ptr} (hd : d ∈ g.nodes) (x : ULong ws)
    (y : Option Ptr) (k : ℕ) :
    ({ c with dijkstra_cost := Function.update c.dijkstra_cost d x,
              dijkstra_path := Function.update c.dijkstra_path d y,
              dijkstra_hops := Function.update c.dijkstra_hops d k } : Scratch ws).labels g todo =
      { c.labels g todo with cost := Function.update (c.labels g todo).cost d x,
                             pred := Function.update (c.labels g todo).pred d y,
                             hops := Function.update (c.labels g todo).hops d k } := by
  simp only [Scratch.labels, Shape.field_update hd]

/-- How the costs are measured: an addition is right below the largest `unsigned long`. -/
theorem measure (ws : WordSize) : Dijkstra.Measure (BitVec.toNat (w := ws.bits)) ULONG_MAX :=
  Dijkstra.measure_bitVec ws.bits

/-! ### The loops of the algorithm -/

theorem Rep.nodes_length (hr : Rep h g) : g.nodes.length ≤ h.brk :=
  length_le_of_bound (hr.nodesRep.list.nodup ()) hr.nodesRep.bound

theorem Rep.nodes_nodup (hr : Rep h g) : g.nodes.Nodup := hr.nodesRep.list.nodup ()

/-- A loop over all nodes. -/
theorem Rep.walk_nodes {σ : Type} (hr : Rep h g) {t : σ → Ptr → Option (σ × Option Ptr)} (P : List Ptr → σ → Prop)
    (hstep : ∀ n rest s, n ∈ g.nodes → P (n :: rest) s → ∃ s', t s n = some (s', h.node_lst.next n) ∧ P rest s')
    {s : σ} (hs : P g.nodes s) : ∃ s', walk t h.brk s (h.node_lst.head ()) = some s' ∧ P [] s' :=
  hr.nodesRep.list.walk_map (List.map_id g.nodes).symm P hstep hr.nodes_length hs

theorem Rep.links_length (hr : Rep h g) (p : LinkInfo ws → Bool) : (g.links.filter p).length ≤ h.brk := by
  have hle := length_le_of_bound hr.linksRep.names fun x hx => by
    obtain ⟨l, hl, rfl⟩ := List.mem_map.1 hx
    exact hr.linksRep.bound l hl
  rw [List.length_map] at hle
  exact (List.length_filter_le _ _).trans hle

/-- A loop over the links from a node. -/
theorem Rep.walk_out {σ : Type} (hr : Rep h g) (n : Ptr) {t : σ → Ptr → Option (σ × Option Ptr)}
    (P : List (LinkInfo ws) → σ → Prop)
    (hstep : ∀ l rest s, l ∈ g.links.filter (·.src = n) → P (l :: rest) s →
      ∃ s', t s l.name = some (s', h.src.next l.name) ∧ P rest s')
    {s : σ} (hs : P (g.links.filter (·.src = n)) s) : ∃ s', walk t h.brk s (h.src.head n) = some s' ∧ P [] s' :=
  hr.linksRep.src.walk_map rfl P hstep (hr.links_length _) hs

theorem Rep.getNext_src (hr : Rep h g) {l : LinkInfo ws} (hl : l ∈ g.links) :
    h.src.getNext h.liveLink l.name = some (h.src.next l.name) := by
  rw [Links.getNext, Store.liveLink, hr.linksRep.blocks l hl]
  rfl

theorem Rep.getNext_node (hr : Rep h g) {n : Ptr} (hn : n ∈ g.nodes) :
    h.node_lst.getNext h.liveNode n = some (h.node_lst.next n) := by
  rw [Links.getNext, if_pos (hr.liveNode hn)]

theorem Rep.mainAddrIp_eq (hr : Rep h g) {n : Ptr} (hn : n ∈ g.nodes) : mainAddrIp h n = some (g.mainOf n) := by
  obtain ⟨nd, hnd⟩ := hr.node hn
  obtain ⟨e, he, hentry⟩ := hr.main_entry hn
  have htab := hr.addrsRep.tab n hn nd hnd 0
  rw [hentry, Option.map_some] at htab
  rw [mainAddrIp, hnd, Option.bind_eq_bind, Option.bind_some, htab, Option.bind_eq_bind, Option.bind_some,
    hr.addrsRep.blocks e he, Option.bind_eq_bind, Option.bind_some, Shape.mainOf, mainAddr, hentry]
  rfl

/-- The first loop threads the nodes in reverse order. -/
theorem initNodes_spec (hr : Rep h g) (srcAddr : ip_v4_addr ws) (c : Scratch ws) :
    ∃ s, walk (initNode h srcAddr) h.brk (c, none) (h.node_lst.head ()) = some s ∧ Todo g s.1 s.2 g.nodes.reverse ∧
      s.1.labels g g.nodes.reverse = g.start srcAddr c.dijkstra_hops ∧ s.1.link_cost = c.link_cost ∧
      s.1.link_cost_p1 = c.link_cost_p1 := by
  let P : List Ptr → Scratch ws × Option Ptr → Prop := fun rest s => ∃ done, g.nodes = done ++ rest ∧
    Threads s.1.dijkstra_list s.2 done.reverse ∧ s.1.dijkstra_hops = c.dijkstra_hops ∧ s.1.link_cost = c.link_cost ∧
    s.1.link_cost_p1 = c.link_cost_p1 ∧ ∀ n ∈ done, s.1.dijkstra_processed n = false ∧ s.1.dijkstra_path n = none ∧
      s.1.dijkstra_cost n = if g.mainOf n = srcAddr then 0 else ULONG_MAX
  have hrun : ∀ n rest s, n ∈ g.nodes → P (n :: rest) s →
      ∃ s', initNode h srcAddr s n = some (s', h.node_lst.next n) ∧ P rest s' := by
    intro n rest s hn hP
    obtain ⟨done, hsplit, hthreads, hhops, hcost, hp1, hdone⟩ := hP
    have hnew : n ∉ done := by
      have hnodup := hr.nodes_nodup
      rw [hsplit, List.nodup_append] at hnodup
      exact fun hmem => hnodup.2.2 n hmem n List.mem_cons_self rfl
    rw [initNode, hr.mainAddrIp_eq hn, Option.bind_eq_bind, Option.bind_some, hr.getNext_node hn]
    refine ⟨_, rfl, done ++ [n], by rw [hsplit]; simp, ?_, hhops, hcost, hp1, ?_⟩
    · rw [List.reverse_append]
      exact hthreads.push (by simpa using hnew)
    · intro m hm
      by_cases hmn : m = n
      · subst hmn
        exact ⟨Function.update_self _ _ _, Function.update_self _ _ _, Function.update_self _ _ _⟩
      · have hm : m ∈ done := by simpa [hmn] using hm
        obtain ⟨h1, h2, h3⟩ := hdone m hm
        exact ⟨(Function.update_of_ne hmn _ _).trans h1, (Function.update_of_ne hmn _ _).trans h2,
          (Function.update_of_ne hmn _ _).trans h3⟩
  obtain ⟨s, hwalk, done, hsplit, hthreads, hhops, hcost, hp1, hdone⟩ := hr.walk_nodes P hrun (s := (c, none))
    ⟨[], rfl, .nil, rfl, rfl, rfl, by simp⟩
  rw [List.append_nil] at hsplit
  subst hsplit
  refine ⟨s, hwalk, ⟨hthreads, List.nodup_reverse.2 hr.nodes_nodup, fun n hn => List.mem_reverse.1 hn, ?_⟩, ?_, hcost,
    hp1⟩
  · intro n hn
    rw [List.mem_reverse]
    exact ⟨fun _ => hn, fun _ => (hdone n hn).1⟩
  · rw [Scratch.labels, Shape.start]
    congr 1
    · exact Shape.field_congr fun n hn => (hdone n hn).2.2
    · funext n
      rw [Shape.field]
      split
      · next hn => exact (hdone n hn).2.1
      · rfl
    · rw [hhops]

/-- The search finds the node that the algorithm picks, and the node before it on the list. -/
theorem minSearch_spec (hr : Rep h g) {c : Scratch ws} {node_list : Option Ptr} {todo : List Ptr}
    (ht : Todo g c node_list todo) : ∃ m, walk (minStep h c) h.brk ⟨ULONG_MAX, none, none, none⟩ node_list = some m ∧
      m.node_min_cost = Dijkstra.pick ULONG_MAX (c.labels g todo) ∧
      ∀ n, m.node_min_cost = some n → ∃ a b, todo = a ++ n :: b ∧ m.node_prev_min_cost = a.getLast? := by
  let cost : Ptr → ULong ws := (c.labels g todo).cost
  let P : List Ptr → MinSearch ws → Prop := fun rest m => ∃ done, todo = done ++ rest ∧
    m.node_prev = done.getLast? ∧
    Dijkstra.pickFrom cost ULONG_MAX none todo = Dijkstra.pickFrom cost m.min_cost m.node_min_cost rest ∧
    ∀ n, m.node_min_cost = some n → ∃ a b, done = a ++ n :: b ∧ m.node_prev_min_cost = a.getLast?
  have hrun : ∀ n rest m, P (n :: rest) m → ∃ m', minStep h c m n = some (m', rest.head?) ∧ P rest m' := by
    intro n rest m hP
    obtain ⟨done, hsplit, hprev, hpick, hmin⟩ := hP
    have hn : n ∈ g.nodes := ht.sub n (by rw [hsplit]; simp)
    have hcost : cost n = c.dijkstra_cost n := Shape.field_of_mem hn
    have hnext : c.dijkstra_list n = rest.head? := (hsplit ▸ ht.threads).next_of_split
    rw [minStep, if_pos (hr.liveNode hn), hnext]
    refine ⟨_, rfl, done ++ [n], by rw [hsplit]; simp, by simp, ?_, ?_⟩
    · rw [hpick, Dijkstra.pickFrom, hcost]
      split <;> rfl
    · split
      · intro n' hn'
        obtain rfl := Option.some_inj.1 hn'
        exact ⟨done, [], by simp, hprev⟩
      · intro n' hn'
        obtain ⟨a, b, rfl, hlast⟩ := hmin n' hn'
        exact ⟨a, b ++ [n], by simp, hlast⟩
  have hlen : todo.length ≤ h.brk := length_le_of_bound ht.nodup fun n hn => hr.nodesRep.bound n (ht.sub n hn)
  obtain ⟨m, hwalk, done, hsplit, -, hpick, hmin⟩ := walk_spec P hrun hlen (s := ⟨ULONG_MAX, none, none, none⟩)
    ⟨[], rfl, rfl, rfl, by simp⟩
  rw [List.append_nil] at hsplit
  subst hsplit
  rw [← ht.threads.head] at hwalk
  exact ⟨m, hwalk, hpick.symm, hmin⟩

/-- The node with the least cost is taken off the list. -/
theorem removeMin_spec {c : Scratch ws} {node_list : Option Ptr} {a b : List Ptr} {n : Ptr}
    (ht : Todo g c node_list (a ++ n :: b)) :
    Todo g { (removeMin c node_list a.getLast? n).1 with
        dijkstra_processed := Function.update (removeMin c node_list a.getLast? n).1.dijkstra_processed n true }
      (removeMin c node_list a.getLast? n).2 ((a ++ n :: b).erase n) ∧
    ∃ list, (removeMin c node_list a.getLast? n).1 = { c with dijkstra_list := list } := by
  have hnodup := ht.nodup
  have hna : n ∉ a := fun hmem => (List.nodup_append.1 hnodup).2.2 n hmem n List.mem_cons_self rfl
  have herase : (a ++ n :: b).erase n = a ++ b := by
    rw [List.erase_append_right _ hna, List.erase_cons_head]
  have hmem : ∀ m, m ∈ a ++ b ↔ m ∈ a ++ n :: b ∧ m ≠ n := by
    intro m
    rw [← herase, hnodup.mem_erase_iff, and_comm]
  have hlist : ∃ list, (removeMin c node_list a.getLast? n).1 = { c with dijkstra_list := list } ∧
      Threads list (removeMin c node_list a.getLast? n).2 (a ++ b) := by
    cases hlast : a.getLast? with
    | none =>
      rw [List.getLast?_eq_none_iff] at hlast
      subst hlast
      exact ⟨_, rfl, ht.threads.unlink_first⟩
    | some p =>
      obtain ⟨a', rfl⟩ := List.getLast?_eq_some_iff.1 hlast
      refine ⟨_, rfl, ?_⟩
      have hthreads := ht.threads
      rw [List.append_assoc, List.singleton_append] at hthreads hnodup ⊢
      exact hthreads.unlink hnodup
  obtain ⟨list, heq, hthreads⟩ := hlist
  refine ⟨?_, list, heq⟩
  rw [herase, heq]
  refine ⟨hthreads, ?_, ?_, ?_⟩
  · exact herase ▸ hnodup.erase n
  · intro m hm
    exact ht.sub m ((hmem m).1 hm).1
  · intro m hm
    rw [hmem]
    show Function.update c.dijkstra_processed n true m = false ↔ _
    by_cases hmn : m = n
    · subst hmn
      simp
    · rw [Function.update_of_ne hmn, ht.processed m hm]
      simp [hmn]

/-- The loop over the links of a node relaxes them. -/
theorem relax_spec (hr : Rep h g) {c : Scratch ws} {node_list : Option Ptr} {todo : List Ptr}
    (ht : Todo g c node_list todo) {n : Ptr} (hn : n ∈ g.nodes) :
    ∃ c', walk (relaxStep h n) h.brk c (h.src.head n) = some c' ∧ Todo g c' node_list todo ∧
      c'.labels g todo = ((g.graph c.link_cost).out n).foldl (Dijkstra.relax (g.graph c.link_cost) n) (c.labels g todo) ∧
      c'.link_cost = c.link_cost ∧ c'.link_cost_p1 = c.link_cost_p1 := by
  let G := g.graph c.link_cost
  let P : List (LinkInfo ws) → Scratch ws → Prop := fun rest c' => Todo g c' node_list todo ∧
    (G.out n).foldl (Dijkstra.relax G n) (c.labels g todo) = rest.foldl (Dijkstra.relax G n) (c'.labels g todo) ∧
    c'.link_cost = c.link_cost ∧ c'.link_cost_p1 = c.link_cost_p1
  have hrun : ∀ l rest c', l ∈ g.links.filter (·.src = n) → P (l :: rest) c' →
      ∃ c'', relaxStep h n c' l.name = some (c'', h.src.next l.name) ∧ P rest c'' := by
    intro l rest c' hl hP
    obtain ⟨ht', hfold, hcost, hp1⟩ := hP
    have hl := (List.mem_filter.1 hl).1
    have hd := (hr.ends l hl).2
    obtain ⟨nd, hnd⟩ := hr.node hd
    have hcn : (c'.labels g todo).cost n = c'.dijkstra_cost n := Shape.field_of_mem hn
    have hhn : (c'.labels g todo).hops n = c'.dijkstra_hops n := Shape.field_of_mem hn
    have hcd : (c'.labels g todo).cost l.dst = c'.dijkstra_cost l.dst := Shape.field_of_mem hd
    have hiff : (c'.dijkstra_processed l.dst = false ∧
        c'.dijkstra_cost n + c'.link_cost l.name < c'.dijkstra_cost l.dst) ↔
        (G.dst l ∈ (c'.labels g todo).todo ∧
          (c'.labels g todo).cost n + G.weight l < (c'.labels g todo).cost (G.dst l)) := by
      show _ ↔ l.dst ∈ todo ∧ (c'.labels g todo).cost n + c.link_cost l.name < (c'.labels g todo).cost l.dst
      rw [ht'.processed _ hd, hcn, hcd, hcost]
    rw [relaxStep, hr.linksRep.blocks l hl, Option.bind_eq_bind, Option.bind_some, LinkInfo.block]
    simp only [Option.bind_eq_bind, Option.bind_some, hnd, hr.getNext_src hl]
    by_cases hif : c'.dijkstra_processed l.dst = false ∧
        c'.dijkstra_cost n + c'.link_cost l.name < c'.dijkstra_cost l.dst
    · rw [if_pos hif]
      refine ⟨_, rfl, ⟨ht'.threads, ht'.nodup, ht'.sub, ht'.processed⟩, ?_, hcost, hp1⟩
      rw [hfold, List.foldl_cons, Dijkstra.relax, if_pos (hiff.1 hif)]
      congr 1
      rw [c'.labels_update todo hd, hcn, hhn, hcost]
      rfl
    · rw [if_neg hif]
      refine ⟨_, rfl, ht', ?_, hcost, hp1⟩
      rw [hfold, List.foldl_cons, Dijkstra.relax, if_neg fun hh => hif (hiff.2 hh)]
  obtain ⟨c', hwalk, ht', hfold, hcost, hp1⟩ := hr.walk_out n P hrun (s := c) ⟨ht, rfl, rfl, rfl⟩
  exact ⟨c', hwalk, ht', hfold.symm, hcost, hp1⟩

/-! ### The algorithm -/

theorem dijkstraLoop_spec (hr : Rep h g) (k : ℕ) {c : Scratch ws} {node_list : Option Ptr} {todo : List Ptr}
    (ht : Todo g c node_list todo) (hk : todo.length ≤ k) :
    ∃ c' todo', dijkstraLoop h k c node_list = some c' ∧
      c'.labels g todo' = Dijkstra.run (g.graph c.link_cost) ULONG_MAX k (c.labels g todo) ∧
      c'.link_cost = c.link_cost ∧ c'.link_cost_p1 = c.link_cost_p1 := by
  induction k generalizing c node_list todo with
  | zero =>
    have hnil : todo = [] := List.length_eq_zero_iff.1 (Nat.le_zero.1 hk)
    subst hnil
    refine ⟨c, [], ?_, rfl, rfl, rfl⟩
    rw [ht.threads.head]
    rfl
  | succ k ih =>
    obtain ⟨m, hwalk, hpick, hmin⟩ := minSearch_spec hr ht
    cases hlist : node_list with
    | none =>
      have hnil : todo = [] := by
        have hhead := ht.threads.head
        rw [hlist] at hhead
        exact List.head?_eq_none_iff.1 hhead.symm
      subst hnil
      exact ⟨c, [], rfl, rfl, rfl, rfl⟩
    | some first =>
      rw [← hlist, dijkstraLoop.eq_def]
      simp only [hlist]
      rw [hlist] at hwalk
      rw [hwalk, Option.bind_eq_bind, Option.bind_some, Dijkstra.run, ← hpick]
      cases hn : m.node_min_cost with
      | none => exact ⟨c, todo, rfl, rfl, rfl, rfl⟩
      | some n =>
        obtain ⟨a, b, htodo, hprev⟩ := hmin n hn
        have hmem : n ∈ todo := by rw [htodo]; simp
        have hng := ht.sub n hmem
        obtain ⟨ht', list, hlist'⟩ := removeMin_spec (htodo ▸ ht)
        rw [← htodo, ← hprev] at ht'
        rw [← hprev] at hlist'
        rw [hlist] at ht' hlist'
        obtain ⟨c', hwalk', ht'', hlabels, hcost, hp1⟩ := relax_spec hr ht' hng
        have hlen : (todo.erase n).length ≤ k := by
          rw [List.length_erase_of_mem hmem]
          omega
        obtain ⟨c'', todo', hloop, hrun, hcost', hp1'⟩ := ih ht'' hlen
        rw [hlist'] at hwalk' hlabels hcost hp1
        refine ⟨c'', todo', ?_, ?_, hcost'.trans hcost, hp1'.trans hp1⟩
        · simp only [hlist', Links.getHead, if_pos (hr.liveNode hng), Option.bind_eq_bind, Option.bind_some]
          rw [hwalk', Option.bind_some]
          exact hloop
        · rw [hrun, hcost, hlabels]
          rfl

/-- `dijkstra` runs Dijkstra's algorithm, and leaves the costs of the links alone. -/
theorem dijkstra_spec (hr : Rep h g) (srcAddr : ip_v4_addr ws) (c : Scratch ws) :
    ∃ c' todo, dijkstra h srcAddr c = some c' ∧
      c'.labels g todo = Dijkstra.run (g.graph c.link_cost) ULONG_MAX h.brk (g.start srcAddr c.dijkstra_hops) ∧
      c'.link_cost = c.link_cost ∧ c'.link_cost_p1 = c.link_cost_p1 := by
  obtain ⟨s, hwalk, ht, hlabels, hcost, hp1⟩ := initNodes_spec hr srcAddr c
  have hlen : g.nodes.reverse.length ≤ h.brk := List.length_reverse.trans_le hr.nodes_length
  obtain ⟨c', todo, hloop, hrun, hcost', hp1'⟩ := dijkstraLoop_spec hr h.brk ht hlen
  refine ⟨c', todo, ?_, ?_, hcost'.trans hcost, hp1'.trans hp1⟩
  · rw [dijkstra, hwalk]
    exact hloop
  · rw [hrun, hlabels, hcost]

/-- From a node, the field `dijkstra_path` leads back to the source along links. -/
inductive BackPath (g : Shape ws) (c : Scratch ws) (s : Ptr) : Ptr → List (LinkInfo ws) → Prop
  | source (h : c.dijkstra_path s = none) : BackPath g c s s []
  | link {l : LinkInfo ws} {es : List (LinkInfo ws)} (h : BackPath g c s l.src es) (hl : l ∈ g.links)
      (hpath : c.dijkstra_path l.dst = some l.src) : BackPath g c s l.dst (es ++ [l])

theorem BackPath.of_chain (hr : Rep h g) {c : Scratch ws} {todo : List Ptr} {cost : Ptr → ULong ws} {s v : Ptr}
    {es : List (LinkInfo ws)} (hs : s ∈ g.nodes) (hc : Dijkstra.Chain (g.graph cost) (c.labels g todo) s v es) :
    BackPath g c s v es := by
  induction hc with
  | root hpred =>
    refine .source ?_
    rw [← hpred]
    exact (Shape.field_of_mem hs).symm
  | @step u l es _ _ he hpred _ _ _ ih =>
    obtain ⟨hl, hsrc⟩ := List.mem_filter.1 he
    have hsrc : l.src = u := of_decide_eq_true hsrc
    subst hsrc
    refine .link ih hl ?_
    rw [← hpred]
    exact (Shape.field_of_mem (hr.ends l hl).2).symm

/-- `dijkstra` ends with the costs of the shortest paths from the source: all ones without a path, and otherwise the
length of the path that `dijkstra_path` leads back along. -/
theorem dijkstra_shortest (hw : WellFormed h g) {s : Ptr} (hs : s ∈ g.nodes) (c : Scratch ws)
    (hshort : Dijkstra.Short (g.graph c.link_cost) BitVec.toNat ULONG_MAX s) :
    ∃ c', dijkstra h (g.mainOf s) c = some c' ∧ ∀ v ∈ g.nodes,
      (c'.dijkstra_cost v = ULONG_MAX ↔ ¬ ∃ es, Dijkstra.Walk (g.graph c.link_cost) s v es) ∧
      (c'.dijkstra_cost v ≠ ULONG_MAX →
        IsLeast {d | ∃ es, Dijkstra.Walk (g.graph c.link_cost) s v es ∧
          d = (es.map fun l => (c.link_cost l.name).toNat).sum} (c'.dijkstra_cost v).toNat ∧
        ∃ es, BackPath g c' s v es ∧ (c'.dijkstra_cost v).toNat = (es.map fun l => (c.link_cost l.name).toNat).sum) := by
  have hr := hw.toRep
  obtain ⟨c', todo, hrun, hlabels, -, -⟩ := dijkstra_spec hr (g.mainOf s) c
  refine ⟨c', hrun, fun v hv => ?_⟩
  let G := g.graph c.link_cost
  let L := g.start (g.mainOf s) c.dijkstra_hops
  have htodo : ∀ {n}, n ∈ L.todo ↔ n ∈ g.nodes := List.mem_reverse
  have hsource : (L.cost s).toNat = 0 := by
    rw [Shape.start_cost hs, if_pos rfl]
    exact BitVec.toNat_ofNat 0 _
  have hother : ∀ n ∈ L.todo, n ≠ s → L.cost n = ULONG_MAX := by
    intro n hn hns
    have hn := htodo.1 hn
    rw [Shape.start_cost hn, if_neg fun heq => hns (hw.mains n hn s hs heq)]
  have hout : ∀ n ∈ L.todo, ∀ l ∈ G.out n, G.dst l ∈ L.todo :=
    fun n _ l hl => htodo.2 (hr.ends l (List.mem_filter.1 hl).1).2
  have hlen : L.todo.length ≤ h.brk := List.length_reverse.trans_le hr.nodes_length
  obtain ⟨hnone, hchain, hleast⟩ := Dijkstra.run_correct (measure ws) hshort hout
    (List.nodup_reverse.2 hr.nodes_nodup) (htodo.2 hs) hsource rfl hother h.brk hlen v (htodo.2 hv)
  have hcost : (Dijkstra.run G ULONG_MAX h.brk L).cost v = c'.dijkstra_cost v := by
    rw [← hlabels]
    exact Shape.field_of_mem hv
  rw [← hlabels] at hchain
  rw [hcost] at hnone hleast
  have hcost' : (c'.labels g todo).cost v = c'.dijkstra_cost v := Shape.field_of_mem hv
  rw [hcost'] at hchain
  refine ⟨hnone, fun hv => ?_⟩
  obtain ⟨es, hc, hsum⟩ := hchain hv
  refine ⟨⟨⟨es, hc.walk, hsum⟩, ?_⟩, es, .of_chain hr hs hc, hsum⟩
  intro d hd
  obtain ⟨fs, hw', rfl⟩ := hd
  exact hleast fs hw'

/-- Two nodes with parallel links, and a loop. -/
def twoNodes : Shape .ilp32 :=
  ⟨[2, 0], [⟨3, 2, 2, 0⟩, ⟨1, 1, 0, 0⟩], [⟨6, 0, 2, 3⟩, ⟨5, 2, 2, 1⟩, ⟨4, 0, 2, 5⟩]⟩

theorem dijkstra_shortest_demo : ∃ (h : Store .ilp32) (c' : Scratch .ilp32) (es : List (LinkInfo .ilp32)),
    handleReads tc_init_data [.DEV_CMD_ADD_NODE 1, .DEV_CMD_ADD_NODE 2, .DEV_CMD_ADD_LINK 1 2 5,
      .DEV_CMD_ADD_LINK 2 2 1, .DEV_CMD_ADD_LINK 1 2 3] = some h ∧
    dijkstra h 1 { Scratch.zero with link_cost := fun p => BitVec.ofNat 32 p } = some c' ∧
    c'.dijkstra_cost 2 ≠ ULONG_MAX ∧ BackPath twoNodes c' 0 2 es ∧
    (c'.dijkstra_cost 2).toNat = (es.map fun l => (BitVec.ofNat 32 l.name).toNat).sum := by
  have hinit : WellFormed (tc_init_data : Store .ilp32) ⟨[], [], []⟩ := WellFormed.init
  obtain ⟨h, hrun, hw⟩ := handleReads_wellFormed hinit [.DEV_CMD_ADD_NODE 1, .DEV_CMD_ADD_NODE 2,
    .DEV_CMD_ADD_LINK 1 2 5, .DEV_CMD_ADD_LINK 2 2 1, .DEV_CMD_ADD_LINK 1 2 3] (by decide)
  let c : Scratch .ilp32 := { Scratch.zero with link_cost := fun p => BitVec.ofNat 32 p }
  have hlinks : ∀ l ∈ twoNodes.links, l.dst ∈ [2] ∧ (c.link_cost l.name).toNat ≤ 6 := by decide
  have hshort : Dijkstra.Short (twoNodes.graph c.link_cost) BitVec.toNat ULONG_MAX 0 :=
    .of_weights (N := [2]) (m := 6) (fun _ l hl => hlinks l (List.mem_filter.1 hl).1) (by decide)
  obtain ⟨c', hdij, hall⟩ := dijkstra_shortest (g := twoNodes) hw (s := 0) (by decide) c hshort
  obtain ⟨htop, hleast⟩ := hall 2 (by decide)
  have hlink : (⟨4, 0, 2, 5⟩ : LinkInfo .ilp32) ∈ (twoNodes.graph c.link_cost).out 0 := by decide
  have hne : c'.dijkstra_cost 2 ≠ ULONG_MAX := fun hc => htop.1 hc ⟨_, .snoc .nil hlink⟩
  obtain ⟨-, es, hback, hsum⟩ := hleast hne
  exact ⟨h, c', es, hrun, hdij, hne, hback, hsum⟩

end MpOlsr
