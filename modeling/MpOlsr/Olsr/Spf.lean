import MpOlsr.Olsr.TcInput

/-!
# The calculation of routes

`olsr_spf.c`: Dijkstra's algorithm over the TC set, up to the list of the nodes that are reached.  The candidates are in
a tree whose keys are their costs, those with the same cost in the order in which they came.  The key of a candidate is a
field of its entry, which does not change while it is in the tree.  A link quality plugin is at the end.
-/

namespace MpOlsr

open Buffer Bytes

def LINK_COST_BROKEN : BitVec 32 := 1 <<< 22
def ROUTE_COST_BROKEN : BitVec 32 := 0xffffffff
def ZERO_ROUTE_COST : BitVec 32 := 0

abbrev CandTree := List (BitVec 32 × Ptr)

/-- A symmetric neighbour, with the best link to it, if there is one. -/
abbrev SymNeighbor (Q : Type) := OlsrIpAddr × Option (LinkEntry Q)

/-- An entry before it is reached. -/
def TcEntry.unlabelled {Q : Type} (tc : TcEntry Q) : TcEntry Q :=
  { tc with next_hop := none, path_cost := ROUTE_COST_BROKEN, hops := 0 }

namespace TcSet

section Operations

variable {Q : Type} (cnf : OlsrCnf) (H : LqHandler Q) (s : TcSet Q)

def olsr_spf_add_cand_tree (tree : CandTree) (tc : Ptr) : Option CandTree := do
  let entry ← s.entries tc
  if tree.all fun p => s.liveEntry p.2 then some (SearchTree.insertDup BitVec.toNat entry.path_cost tc tree) else none

def olsr_spf_del_cand_tree (tree : CandTree) (tc : Ptr) : Option CandTree := avl_delete s.liveEntry tree tc

/-- A node takes the next hop of another one, unless that has none. -/
def pullUp (next_hop : Option (LinkEntry Q)) (tc : TcEntry Q) : TcEntry Q :=
  if next_hop.isSome then { tc with next_hop := next_hop } else tc

/-- A node that is on the candidate tree, as its cost tells, is deleted from it. -/
def dropCandidate (tree : CandTree) (tc : Ptr) (path_cost : BitVec 32) : Option CandTree :=
  if path_cost < ROUTE_COST_BROKEN then s.olsr_spf_del_cand_tree tree tc else some tree

/-- `new_tc` is reached from `tc` at a cost. -/
def improve (cand_tree : CandTree) (tc new_tc : Ptr) (new_cost : BitVec 32) : Option (TcSet Q × CandTree) := do
  let new_entry ← s.entries new_tc
  let cand_tree ← s.dropCandidate cand_tree new_tc new_entry.path_cost
  let s ← s.setEntry new_tc fun new_tc => { new_tc with path_cost := new_cost }
  let cand_tree ← s.olsr_spf_add_cand_tree cand_tree new_tc
  let entry ← s.entries tc
  let s ← s.setEntry new_tc (pullUp entry.next_hop)
  let entry ← s.entries tc
  let s ← s.setEntry new_tc fun new_tc => { new_tc with hops := entry.hops + 1 }
  return (s, cand_tree)

/-- One round of the loop of `olsr_spf_relax`. -/
def relaxEdge (tc : Ptr) (cand_tree : CandTree) (tc_edge : Ptr) : Option (TcSet Q × CandTree) := do
  let edge ← s.edges tc_edge
  match edge.edge_inv with
  | none => return (s, cand_tree)
  | some inv =>
    let entry ← s.entries tc
    let new_cost := entry.path_cost + edge.cost
    let edge_inv ← s.edges inv
    let new_entry ← s.entries edge_inv.tc
    if new_cost < new_entry.path_cost then s.improve cand_tree tc edge_inv.tc new_cost
    else return (s, cand_tree)

def olsr_spf_relax (cand_tree : CandTree) (tc : Ptr) : Option (TcSet Q × CandTree) := do
  let entry ← s.entries tc
  entry.edge_tree.foldlM (fun (s, cand_tree) p => s.relaxEdge tc cand_tree p.2) (s, cand_tree)

/-- `fuel` bounds the rounds of the loop. -/
def olsr_spf_run_full : ℕ → TcSet Q → CandTree → List Ptr → Option (TcSet Q × List Ptr)
  | 0, _, _, _ => none
  | fuel + 1, s, cand_tree, path_list =>
    -- `olsr_spf_extract_best`
    match cand_tree with
    | [] => some (s, path_list)
    | (_, tc) :: _ => do
      let (s, cand_tree) ← s.olsr_spf_relax cand_tree tc
      let cand_tree ← s.olsr_spf_del_cand_tree cand_tree tc
      olsr_spf_run_full fuel s cand_tree (path_list ++ [tc])

def olsr_change_myself_tc : Option (TcSet Q) := do
  let fresh := fun (s : TcSet Q) => do
    let (s, tc) ← s.olsr_add_tc_entry cnf cnf.main_addr
    return { s with tc_myself := tc, changes_topology := true }
  match s.tc_myself with
  | none => fresh s
  | some tc_myself =>
    let entry ← s.entries tc_myself
    if entry.addr = cnf.main_addr then return s
    let s ← s.olsr_delete_tc_entry tc_myself
    fresh { s with tc_myself := none }

/-- The loop that initializes the vertices. -/
def initVertices : Option (TcSet Q) := s.tc_tree.foldlM (fun s p => s.setEntry p.2 TcEntry.unlabelled) s

/-- The edge to a neighbour with a link, which is added or brought up to date. -/
def neighborEdge (tc_myself : Ptr) (neighbor_main_addr : OlsrIpAddr) (link : LinkEntry Q) (tc_edge : Option Ptr) :
    Option (TcSet Q × Ptr) :=
  match tc_edge with
  | none => s.olsr_add_tc_edge_entry cnf H tc_myself neighbor_main_addr 0
  | some tc_edge => do
    let s ← s.setEdge tc_edge fun edge => { edge with linkquality := link.linkquality }
    let (s, _) ← s.olsr_calc_tc_edge_entry_etx cnf H tc_edge
    return (s, tc_edge)

/-- The edge to a symmetric neighbour; without a link, it is deleted. -/
def updateNeighbor (tc_myself : Ptr) (neigh : SymNeighbor Q) : Option (TcSet Q) := do
  let tc_edge ← s.olsr_lookup_tc_edge tc_myself neigh.1
  match neigh.2, tc_edge with
  | none, none => return s
  | none, some tc_edge => s.olsr_delete_tc_edge_entry tc_edge
  | some link, tc_edge =>
    let (s, tc_edge) ← s.neighborEdge cnf H tc_myself neigh.1 link tc_edge
    let edge ← s.edges tc_edge
    match edge.edge_inv with
    | none => return s
    | some inv =>
      let edge_inv ← s.edges inv
      s.setEntry edge_inv.tc fun tc => { tc with next_hop := some link }

/-- `olsr_calculate_routing_table` up to the list of the nodes that are reached, in the order of their costs.  The
arguments are the symmetric neighbours, and a bound for the rounds of the algorithm. -/
def olsr_calculate_routing_table (neighbours : List (SymNeighbor Q)) (fuel : ℕ) : Option (TcSet Q × List Ptr) := do
  let s ← s.initVertices
  let s ← s.olsr_change_myself_tc cnf
  match s.tc_myself with
  | none => return (s, [])
  | some tc_myself =>
    let s ← s.setEntry tc_myself fun tc => { tc with path_cost := ZERO_ROUTE_COST }
    let cand_tree ← s.olsr_spf_add_cand_tree [] tc_myself
    let s ← neighbours.foldlM (fun s neigh => s.updateNeighbor cnf H tc_myself neigh) s
    olsr_spf_run_full fuel s cand_tree []

end Operations

end TcSet

/-! ### The plugin `etx_ff` -/

def LQ_PLUGIN_RELEVANT_COSTCHANGE_FF : BitVec 32 := 16

def default_lq_is_relevant_costchange_ff (c1 c2 : BitVec 32) : Bool :=
  if c2 < c1 then LQ_PLUGIN_RELEVANT_COSTCHANGE_FF < c2 - c1 else LQ_PLUGIN_RELEVANT_COSTCHANGE_FF < c1 - c2

/-- The threshold has no effect: both differences wrap around, so that every change is relevant. -/
theorem default_lq_is_relevant_costchange_ff_iff {c1 c2 : BitVec 32} (h1 : c1 ≤ LINK_COST_BROKEN)
    (h2 : c2 ≤ LINK_COST_BROKEN) : default_lq_is_relevant_costchange_ff c1 c2 = true ↔ c1 ≠ c2 := by
  have hbroken : LINK_COST_BROKEN.toNat = 4194304 := rfl
  have hthreshold : LQ_PLUGIN_RELEVANT_COSTCHANGE_FF.toNat = 16 := rfl
  rw [BitVec.le_def, hbroken] at h1 h2
  rw [Ne, ← BitVec.toNat_inj]
  unfold default_lq_is_relevant_costchange_ff
  split
  · rename_i hlt
    rw [BitVec.lt_def] at hlt
    rw [decide_eq_true_eq, BitVec.lt_def, hthreshold, BitVec.toNat_sub]
    omega
  · rename_i hge
    rw [BitVec.lt_def] at hge
    rw [decide_eq_true_eq, BitVec.lt_def, hthreshold, BitVec.toNat_sub]
    omega

end MpOlsr
