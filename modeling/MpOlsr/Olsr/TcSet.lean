import MpOlsr.Lib.SearchTrees
import MpOlsr.Olsr.Node

/-!
# The TC set

`tc_set.c` of olsrd: the nodes of the network with the edges that they advertise, and the functions of
`routing_table.c` that hang prefixes on the nodes.  The trees of `avl.c` are seen from outside, as lists in the order
of their keys.  An edge has a pointer to the edge in the other direction; a node is counted once by its tree, and by
each of its edges and prefixes.  Every access to a block that is not allocated is a fault (`none`), and blocks are not
used again, so that an access through a stale pointer is one.
-/

namespace MpOlsr

open Buffer Bytes

def TC_SEQNO_WINDOW : ℤ := 1024
def TC_ANSN_WINDOW : ℤ := 256
def TC_SEQNO_WINDOW_MULT : ℤ := 8
def TC_ANSN_WINDOW_MULT : ℤ := 4
def OLSR_RT_ORIGIN_INT : Byte := 1

/-- `maxplen`, the length of an address -/
def maxplen : Byte := 32

/-- The functions of a link quality plugin; `Q` is its data in an edge. -/
structure LqHandler (Q : Type) where
  /-- the bytes in a message -/
  tc_lq_size : ℕ
  deserialize_tc_lq : List Byte → Q
  calc_tc_cost : Q → BitVec 32
  olsr_is_relevant_costchange : BitVec 32 → BitVec 32 → Bool
  /-- the data in a block of zeros -/
  zero : Q

/-- `struct link_entry`: what a route takes from it, and its link quality as that of an edge. -/
structure LinkEntry (Q : Type) where
  neighbor_iface_addr : OlsrIpAddr
  if_index : ℤ
  linkquality : Q

/-- `struct tc_edge_entry` -/
structure TcEdgeEntry (Q : Type) where
  T_dest_addr : OlsrIpAddr
  edge_inv : Option Ptr
  tc : Ptr
  cost : BitVec 32
  ansn : BitVec 16
  linkquality : Q

/-- `struct tc_entry`; the paths of `prefix_tree` are their origins. -/
structure TcEntry (Q : Type) where
  addr : OlsrIpAddr
  path_cost : BitVec 32
  edge_tree : List (OlsrIpAddr × Ptr)
  prefix_tree : List ((OlsrIpAddr × Byte) × Byte)
  next_hop : Option (LinkEntry Q)
  refcount : ℕ
  msg_seq : BitVec 16
  msg_hops : Byte
  hops : Byte
  ansn : BitVec 16
  ignored : BitVec 16
  err_seq : BitVec 16
  err_seq_valid : Bool

/-- A block of zeros with an address. -/
def TcEntry.ofAddr {Q : Type} (addr : OlsrIpAddr) : TcEntry Q where
  addr := addr
  path_cost := 0
  edge_tree := []
  prefix_tree := []
  next_hop := none
  refcount := 0
  msg_seq := 0
  msg_hops := 0
  hops := 0
  ansn := 0
  ignored := 0
  err_seq := 0
  err_seq_valid := false

structure TcSet (Q : Type) where
  entries : Ptr → Option (TcEntry Q)
  edges : Ptr → Option (TcEdgeEntry Q)
  /-- the next block -/
  brk : Ptr
  tc_tree : List (OlsrIpAddr × Ptr)
  tc_myself : Option Ptr
  /-- the entries whose timers run -/
  validity_timer : Ptr → Bool
  edge_gc_timer : Ptr → Bool
  changes_topology : Bool
  changes_hna : Bool

/-- The order of prefixes, by the bytes of the address in the order of the network. -/
def prefixRank (p : OlsrIpAddr × Byte) : ℕ := ofLe (leBytes 4 p.1.toNat).reverse * 256 + p.2.toNat

/-- `SEQNO_GREATER_THAN` -/
def seqnoGreaterThan (s1 s2 : BitVec 16) : Bool :=
  s2 < s1 && s1.toNat - s2.toNat ≤ 32767 || s1 < s2 && 32767 < s2.toNat - s1.toNat

/-- A search in a tree, whose nodes are the blocks in its entries. -/
def avl_find {K : Type} [BEq K] (live : Ptr → Bool) (t : List (K × Ptr)) (k : K) : Option (Option Ptr) :=
  if t.all fun p => live p.2 then some (t.lookup k) else none

/-- The insertion of a block with a key that is not in the tree, else nothing. -/
def avl_insert {K : Type} [BEq K] (rank : K → ℕ) (live : Ptr → Bool) (t : List (K × Ptr)) (k : K) (x : Ptr) :
    Option (List (K × Ptr)) :=
  if t.all fun p => live p.2 then some (SearchTree.insert rank k x t).1 else none

def avl_delete {K : Type} (live : Ptr → Bool) (t : List (K × Ptr)) (x : Ptr) : Option (List (K × Ptr)) :=
  if (t.all fun p => live p.2) && t.any fun p => p.2 == x then some (SearchTree.remove x t) else none

namespace TcSet

section Operations

variable {Q : Type} (cnf : OlsrCnf) (H : LqHandler Q) (s : TcSet Q)

def liveEntry (x : Ptr) : Bool := (s.entries x).isSome

def liveEdge (e : Ptr) : Bool := (s.edges e).isSome

def setEntry (x : Ptr) (f : TcEntry Q → TcEntry Q) : Option (TcSet Q) :=
  (s.entries x).map fun tc => { s with entries := Function.update s.entries x (some (f tc)) }

def setEdge (e : Ptr) (f : TcEdgeEntry Q → TcEdgeEntry Q) : Option (TcSet Q) :=
  (s.edges e).map fun edge => { s with edges := Function.update s.edges e (some (f edge)) }

/-! ### Nodes -/

def olsr_lookup_tc_entry (adr : OlsrIpAddr) : Option (Option Ptr) := avl_find s.liveEntry s.tc_tree adr

def olsr_lock_tc_entry (tc : Ptr) : Option (TcSet Q) := s.setEntry tc fun tc => { tc with refcount := tc.refcount + 1 }

/-- The last reference frees the block; to give up a reference that there is not would be a fault. -/
def olsr_unlock_tc_entry (tc : Ptr) : Option (TcSet Q) := do
  let entry ← s.entries tc
  if entry.refcount = 0 then none
  else if entry.refcount = 1 then return { s with entries := Function.update s.entries tc none }
  else s.setEntry tc fun tc => { tc with refcount := tc.refcount - 1 }

/-- `olsr_insert_routing_table` from the entry of the originator on, with `olsr_alloc_rt_path`. -/
def insertPrefix (tc : Ptr) (p : OlsrIpAddr × Byte) (origin : Byte) : Option (TcSet Q) := do
  let entry ← s.entries tc
  if (entry.prefix_tree.lookup p).isSome then return s
  else
    let s ← s.setEntry tc fun tc => { tc with prefix_tree := (SearchTree.insert prefixRank p origin tc.prefix_tree).1 }
    let s ← s.olsr_lock_tc_entry tc
    return { s with changes_hna := true }

/-- Allocate a block for a node, which is set to zero. -/
def allocEntry (adr : OlsrIpAddr) : TcSet Q :=
  { s with entries := Function.update s.entries s.brk (some (.ofAddr adr)), brk := s.brk + 1 }

def olsr_add_tc_entry (adr : OlsrIpAddr) : Option (TcSet Q × Option Ptr) :=
  if cnf.main_addr = 0 then some (s, none)
  else do
    let tc := s.brk
    let s := s.allocEntry adr
    let tc_tree ← avl_insert BitVec.toNat s.liveEntry s.tc_tree adr tc
    let s ← { s with tc_tree := tc_tree }.olsr_lock_tc_entry tc
    -- `olsr_insert_routing_table` finds the entry that was just added
    let found ← s.olsr_lookup_tc_entry adr
    let found ← found
    let s ← s.insertPrefix found (adr, maxplen) OLSR_RT_ORIGIN_INT
    return (s, some tc)

def olsr_locate_tc_entry (adr : OlsrIpAddr) : Option (TcSet Q × Option Ptr) := do
  let tc ← s.olsr_lookup_tc_entry adr
  match tc with
  | none => s.olsr_add_tc_entry cnf adr
  | some tc => return (s, some tc)

/-! ### Prefixes -/

def olsr_insert_routing_table (dst : OlsrIpAddr) (plen : Byte) (originator : OlsrIpAddr) (origin : Byte) :
    Option (TcSet Q) :=
  if maxplen < plen then some s
  else do
    let (s, tc) ← s.olsr_locate_tc_entry cnf originator
    -- a null pointer is a fault
    let tc ← tc
    s.insertPrefix tc (dst, plen) origin

/-- `olsr_delete_rt_path` for the path of a prefix. -/
def olsr_delete_rt_path (tc : Ptr) (p : OlsrIpAddr × Byte) : Option (TcSet Q) := do
  let s ← s.setEntry tc fun tc => { tc with prefix_tree := tc.prefix_tree.eraseP fun q => q.1 == p }
  s.olsr_unlock_tc_entry tc

def olsr_delete_routing_table (dst : OlsrIpAddr) (plen : Byte) (originator : OlsrIpAddr) : Option (TcSet Q) :=
  if maxplen < plen then some s
  else do
    let tc ← s.olsr_lookup_tc_entry originator
    match tc with
    | none => return s
    | some tc =>
      let entry ← s.entries tc
      if (entry.prefix_tree.lookup (dst, plen)).isSome then
        let s ← s.olsr_delete_rt_path tc (dst, plen)
        return { s with changes_hna := true }
      else return s

/-! ### Edges -/

def olsr_lookup_tc_edge (tc : Ptr) (edge_addr : OlsrIpAddr) : Option (Option Ptr) := do
  let entry ← s.entries tc
  avl_find s.liveEdge entry.edge_tree edge_addr

/-- The second result is whether the change of the cost is relevant. -/
def olsr_calc_tc_edge_entry_etx (e : Ptr) : Option (TcSet Q × Bool) :=
  if cnf.lq_level < 1 then some (s, false)
  else do
    let edge ← s.edges e
    let cost := H.calc_tc_cost edge.linkquality
    let s ← s.setEdge e fun edge => { edge with cost := cost }
    return (s, H.olsr_is_relevant_costchange edge.cost cost)

/-- Allocate a block for an edge. -/
def allocEdge (edge : TcEdgeEntry Q) : TcSet Q :=
  { s with edges := Function.update s.edges s.brk (some edge), brk := s.brk + 1 }

/-- Connect an edge with the edge in the other direction, if there is one. -/
def connect (e : Ptr) (addr dest : OlsrIpAddr) : Option (TcSet Q) := do
  let tc_neighbor ← s.olsr_lookup_tc_entry dest
  match tc_neighbor with
  | none => return s
  | some tc_neighbor =>
    let tc_edge_inv ← s.olsr_lookup_tc_edge tc_neighbor addr
    match tc_edge_inv with
    | none => return s
    | some inv =>
      let s ← s.setEdge inv fun edge => { edge with edge_inv := some e }
      s.setEdge e fun edge => { edge with edge_inv := some inv }

def olsr_add_tc_edge_entry (tc : Ptr) (addr : OlsrIpAddr) (ansn : BitVec 16) : Option (TcSet Q × Ptr) := do
  let e := s.brk
  let s := s.allocEdge { T_dest_addr := addr, edge_inv := none, tc := tc, cost := 0, ansn := ansn, linkquality := H.zero }
  let entry ← s.entries tc
  let edge_tree ← avl_insert BitVec.toNat s.liveEdge entry.edge_tree addr e
  let s ← s.setEntry tc fun tc => { tc with edge_tree := edge_tree }
  let s ← s.olsr_lock_tc_entry tc
  let s ← s.connect e entry.addr addr
  let (s, _) ← s.olsr_calc_tc_edge_entry_etx cnf H e
  return (s, e)

/-- Clear the pointer of the edge in the other direction, if there is one. -/
def clearInverse (edge_inv : Option Ptr) : Option (TcSet Q) :=
  match edge_inv with
  | none => some s
  | some inv => s.setEdge inv fun edge => { edge with edge_inv := none }

def olsr_delete_tc_edge_entry (e : Ptr) : Option (TcSet Q) := do
  let edge ← s.edges e
  let entry ← s.entries edge.tc
  let edge_tree ← avl_delete s.liveEdge entry.edge_tree e
  let s ← s.setEntry edge.tc fun tc => { tc with edge_tree := edge_tree }
  let s ← s.olsr_unlock_tc_entry edge.tc
  let s ← s.clearInverse edge.edge_inv
  if s.liveEdge e then return { s with edges := Function.update s.edges e none } else none

/-- Delete all edges that have a lower ANSN; the second result is whether there were any. -/
def olsr_delete_outdated_tc_edges (tc : Ptr) : Option (TcSet Q × Bool) := do
  let entry ← s.entries tc
  entry.edge_tree.foldlM (fun (s, retval) p => do
    let entry ← s.entries tc
    let edge ← s.edges p.2
    if seqnoGreaterThan entry.ansn edge.ansn then
      let s ← s.olsr_delete_tc_edge_entry p.2
      return (s, true)
    else return (s, retval)) (s, false)

/-- The loop of `olsr_delete_revoked_tc_edges` over the edges in the order of their destinations. -/
def deleteRevoked (ansn : BitVec 16) (lower_border upper_border : OlsrIpAddr) :
    Bool → List (OlsrIpAddr × Ptr) → TcSet Q → Option (TcSet Q)
  | _, [], s => some s
  | passedLowerBorder, p :: rest, s => do
    let edge ← s.edges p.2
    let passedLowerBorder := passedLowerBorder || lower_border ≤ edge.T_dest_addr
    if !passedLowerBorder then deleteRevoked ansn lower_border upper_border passedLowerBorder rest s
    else if upper_border ≤ edge.T_dest_addr then return s
    else if seqnoGreaterThan ansn edge.ansn then
      let s ← s.olsr_delete_tc_edge_entry p.2
      deleteRevoked ansn lower_border upper_border passedLowerBorder rest s
    else deleteRevoked ansn lower_border upper_border passedLowerBorder rest s

def olsr_delete_revoked_tc_edges (tc : Ptr) (ansn : BitVec 16) (lower_border upper_border : OlsrIpAddr) :
    Option (TcSet Q) := do
  let entry ← s.entries tc
  deleteRevoked ansn lower_border upper_border false entry.edge_tree s

def olsr_delete_tc_entry (tc : Ptr) : Option (TcSet Q) := do
  let entry ← s.entries tc
  let s ← s.olsr_delete_routing_table entry.addr maxplen entry.addr
  let entry ← s.entries tc
  let s ← entry.edge_tree.foldlM (fun s p => s.olsr_delete_tc_edge_entry p.2) s
  let entry ← s.entries tc
  let s ← entry.prefix_tree.foldlM (fun s p => s.olsr_delete_rt_path tc p.1) s
  let s := { s with
    edge_gc_timer := Function.update s.edge_gc_timer tc false
    validity_timer := Function.update s.validity_timer tc false }
  let tc_tree ← avl_delete s.liveEntry s.tc_tree tc
  { s with tc_tree := tc_tree }.olsr_unlock_tc_entry tc

/-! ### Timers -/

def olsr_expire_tc_entry (tc : Ptr) : Option (TcSet Q) := do
  let s ← { s with validity_timer := Function.update s.validity_timer tc false }.olsr_delete_tc_entry tc
  return { s with changes_topology := true }

def olsr_expire_tc_edge_gc (tc : Ptr) : Option (TcSet Q) := do
  let (s, deleted) ← { s with
    edge_gc_timer := Function.update s.edge_gc_timer tc false }.olsr_delete_outdated_tc_edges tc
  return { s with changes_topology := s.changes_topology || deleted }

end Operations

/-- The set before it is initialized. -/
def empty (Q : Type) : TcSet Q where
  entries := fun _ => none
  edges := fun _ => none
  brk := 0
  tc_tree := []
  tc_myself := none
  validity_timer := fun _ => false
  edge_gc_timer := fun _ => false
  changes_topology := false
  changes_hna := false

def olsr_init_tc (cnf : OlsrCnf) (Q : Type) : Option (TcSet Q) := do
  let (s, tc) ← (empty Q).olsr_add_tc_entry cnf cnf.main_addr
  return { s with tc_myself := tc }

end TcSet

end MpOlsr
