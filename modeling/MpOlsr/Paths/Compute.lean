import MpOlsr.Topology.Commands

/-!
# The computation of the paths

`ser_path_djk.c`: `dijkstra` computes a shortest path to every node, and `tc_k_dijstra` calls it once for every path
from a source to a destination, with the costs of the links near the last path increased.  The fields that only these
functions use are kept apart from the topology (`Scratch`), and the path cache is a list of entries, each with the ring
of its paths.
-/

namespace MpOlsr

open DoublyLinked

/-- The fields `dijkstra_…` of the nodes and of the links. -/
structure Scratch (ws : WordSize) where
  dijkstra_cost : Ptr → ULong ws
  dijkstra_list : Ptr → Option Ptr
  dijkstra_path : Ptr → Option Ptr
  dijkstra_hops : Ptr → ℕ
  dijkstra_processed : Ptr → Bool
  /-- `link->dijkstra_cost` -/
  link_cost : Ptr → ULong ws
  /-- `link->dijkstra_cost_p1` -/
  link_cost_p1 : Ptr → ULong ws

/-- The fields of blocks that are set to zero. -/
def Scratch.zero {ws : WordSize} : Scratch ws where
  dijkstra_cost := fun _ => 0
  dijkstra_list := fun _ => none
  dijkstra_path := fun _ => none
  dijkstra_hops := fun _ => 0
  dijkstra_processed := fun _ => false
  link_cost := fun _ => 0
  link_cost_p1 := fun _ => 0

/-- A block `struct olsr_path`, less its link. -/
structure PathBlock extends OlsrPath where
  name : Ptr

/-- `struct olsr_path_buffer`, with the paths of the ring from `lst_path` on. -/
structure PathBuffer (ws : WordSize) where
  src_addr_ip : ip_v4_addr ws
  dst_addr_ip : ip_v4_addr ws
  lst_path : List PathBlock

/-- The parameters read from the configuration. -/
structure Conf where
  g_conf_path : ℤ
  g_conf_fe : ℤ
  g_conf_fp : ℤ

/-- The data of the daemon. -/
structure Daemon (ws : WordSize) where
  store : Store ws
  scratch : Scratch ws
  g_path_buffer : List (PathBuffer ws)
  /-- the number of path blocks allocated so far -/
  path_brk : Ptr
  conf : Conf

variable {ws : WordSize}

/-- -1 as an `unsigned long` -/
def ULONG_MAX : ULong ws := BitVec.allOnes ws.bits

/-- `node->addr_tab[0]->addr_ip` -/
def mainAddrIp (h : Store ws) (node : Ptr) : Option (ip_v4_addr ws) := do
  let n ← h.nodes node
  let main ← n.addr_tab 0
  let a ← h.node_addrs main
  return a.addr_ip

/-! ### Dijkstra's algorithm -/

/-- The loop that initialises the nodes; with the head of the list of nodes to process. -/
def initNode (h : Store ws) (srcAddr : ip_v4_addr ws) (s : Scratch ws × Option Ptr) (node : Ptr) :
    Option ((Scratch ws × Option Ptr) × Option Ptr) := do
  let addr ← mainAddrIp h node
  let next ← h.node_lst.getNext h.liveNode node
  let c := { s.1 with
    dijkstra_list := Function.update s.1.dijkstra_list node s.2,
    dijkstra_processed := Function.update s.1.dijkstra_processed node false,
    dijkstra_path := Function.update s.1.dijkstra_path node none,
    dijkstra_cost := Function.update s.1.dijkstra_cost node (if addr = srcAddr then 0 else ULONG_MAX) }
  return ((c, some node), next)

/-- The variables of the search for the node with the least cost. -/
structure MinSearch (ws : WordSize) where
  min_cost : ULong ws
  node_prev : Option Ptr
  node_min_cost : Option Ptr
  node_prev_min_cost : Option Ptr

def minStep (h : Store ws) (c : Scratch ws) (m : MinSearch ws) (node : Ptr) : Option (MinSearch ws × Option Ptr) :=
  if h.liveNode node then
    let m := if c.dijkstra_cost node < m.min_cost then
        { m with node_prev_min_cost := m.node_prev, node_min_cost := some node, min_cost := c.dijkstra_cost node }
      else m
    some ({ m with node_prev := some node }, c.dijkstra_list node)
  else none

/-- Take the node with the least cost off the list of nodes to process. -/
def removeMin (c : Scratch ws) (node_list prev : Option Ptr) (node : Ptr) : Scratch ws × Option Ptr :=
  match prev with
  | none => (c, c.dijkstra_list node)
  | some p => ({ c with dijkstra_list := Function.update c.dijkstra_list p (c.dijkstra_list node) }, node_list)

/-- The loop over the links of the node with the least cost. -/
def relaxStep (h : Store ws) (node_min_cost : Ptr) (c : Scratch ws) (link : Ptr) :
    Option (Scratch ws × Option Ptr) := do
  let l ← h.link_blocks link
  let d ← l.dst_node
  let _ ← h.nodes d
  let next ← h.src.getNext h.liveLink link
  let min_cost := c.dijkstra_cost node_min_cost + c.link_cost link
  if c.dijkstra_processed d = false ∧ min_cost < c.dijkstra_cost d then
    return ({ c with
      dijkstra_cost := Function.update c.dijkstra_cost d min_cost,
      dijkstra_path := Function.update c.dijkstra_path d (some node_min_cost),
      dijkstra_hops := Function.update c.dijkstra_hops d (c.dijkstra_hops node_min_cost + 1) }, next)
  else return (c, next)

/-- The main loop, in at most `k` rounds. -/
def dijkstraLoop (h : Store ws) : ℕ → Scratch ws → Option Ptr → Option (Scratch ws)
  | _, c, none => some c
  | 0, _, some _ => none
  | k + 1, c, some first => do
    let m ← walk (minStep h c) h.brk ⟨ULONG_MAX, none, none, none⟩ (some first)
    match m.node_min_cost with
    | none => return c
    | some node =>
      let (c, node_list) := removeMin c (some first) m.node_prev_min_cost node
      let c := { c with dijkstra_processed := Function.update c.dijkstra_processed node true }
      let link ← h.src.getHead h.liveNode node
      let c ← walk (relaxStep h node) h.brk c link
      dijkstraLoop h k c node_list

def dijkstra (h : Store ws) (srcAddr : ip_v4_addr ws) (c : Scratch ws) : Option (Scratch ws) := do
  let s ← walk (initNode h srcAddr) h.brk (c, none) (h.node_lst.head ())
  dijkstraLoop h h.brk s.1 s.2

/-! ### Several paths -/

/-- Set the fields of a link and go on to the next link from the same node. -/
def setLinkStep (h : Store ws) (set : Scratch ws → Ptr → Option (Scratch ws)) (c : Scratch ws) (link : Ptr) :
    Option (Scratch ws × Option Ptr) := do
  let c ← set c link
  let next ← h.src.getNext h.liveLink link
  return (c, next)

/-- Set the fields of the links from a node and go on to the next node. -/
def setLinksStep (h : Store ws) (set : Scratch ws → Ptr → Option (Scratch ws)) (c : Scratch ws) (node : Ptr) :
    Option (Scratch ws × Option Ptr) := do
  let link ← h.src.getHead h.liveNode node
  let c ← walk (setLinkStep h set) h.brk c link
  let next ← h.node_lst.getNext h.liveNode node
  return (c, next)

/-- The loop over the links of all nodes. -/
def forLinks (h : Store ws) (set : Scratch ws → Ptr → Option (Scratch ws)) (c : Scratch ws) : Option (Scratch ws) :=
  walk (setLinksStep h set) h.brk c (h.node_lst.head ())

/-- The costs of a link start with its real cost. -/
def resetCost (h : Store ws) (c : Scratch ws) (link : Ptr) : Option (Scratch ws) :=
  (h.link_blocks link).map fun l =>
    { c with link_cost := Function.update c.link_cost link l.cost,
             link_cost_p1 := Function.update c.link_cost_p1 link l.cost }

/-- The new cost of a link is used from now on. -/
def takeCost (c : Scratch ws) (link : Ptr) : Option (Scratch ws) :=
  some { c with link_cost := Function.update c.link_cost link (c.link_cost_p1 link) }

/-- `FP` and `FE`: a cost times a coefficient, which is an `int`. -/
def coefTimes (coef : ℤ) (value : ULong ws) : ULong ws := value * BitVec.ofInt ws.bits coef

/-- The loop over the links to `prev_node`. -/
def inLinkStep (h : Store ws) (conf : Conf) (node : Ptr) (c : Scratch ws) (link : Ptr) :
    Option (Scratch ws × Option Ptr) := do
  let l ← h.link_blocks link
  let next ← h.dst.getNext h.liveLink link
  let coef := if l.src_node = some node then conf.g_conf_fp else conf.g_conf_fe
  return ({ c with link_cost_p1 := Function.update c.link_cost_p1 link (coefTimes coef (c.link_cost link)) }, next)

/-- Increase the costs of the links to `prev_node`, and of the first link from there to `node`. -/
def updateLinkCosts (h : Store ws) (conf : Conf) (prev_node node : Ptr) (c : Scratch ws) : Option (Scratch ws) := do
  let link ← h.dst.getHead h.liveNode prev_node
  let c ← walk (inLinkStep h conf node) h.brk c link
  let link ← h.src.getHead h.liveNode prev_node
  let found ← search (h.src.getNext h.liveLink)
    (fun link => (h.link_blocks link).map fun l => decide (l.dst_node = some node)) h.brk link
  match found with
  | none => return c
  | some link =>
    return { c with
      link_cost_p1 := Function.update c.link_cost_p1 link (coefTimes conf.g_conf_fp (c.link_cost link)) }

/-- `path->path` and the cursor `buff`, counted in addresses. -/
abbrev PathWriter := List Byte × ℤ

/-- Copy the address of a node to the cursor, unless it is the source; an address takes the place of an
`unsigned long`. -/
def copyAddr (h : Store ws) (c : Scratch ws) (node : Ptr) (w : PathWriter) : Option PathWriter :=
  match c.dijkstra_path node with
  | none => some w
  | some _ => do
    let addr ← mainAddrIp h node
    let path ← Bytes.write w.1 (w.2 * ws.bytes) (Bytes.leBytes ip_v4_size addr.toNat)
    return (path, w.2 - 1)

/-- The loop from the destination back to the source. -/
def pathStep (h : Store ws) (conf : Conf) (s : Scratch ws × PathWriter × Option Ptr) (node : Ptr) :
    Option ((Scratch ws × PathWriter × Option Ptr) × Option Ptr) := do
  let _ ← h.nodes node
  let w ← copyAddr h s.1 node s.2.1
  let c ← match s.2.2 with
    | none => some s.1
    | some prev_node => updateLinkCosts h conf prev_node node s.1
  return ((c, w, some node), c.dijkstra_path node)

/-- The path to the destination, and the new costs. -/
def retrievePath (h : Store ws) (conf : Conf) (dst_node : Ptr) (c : Scratch ws) :
    Option (OlsrPath × Scratch ws) := do
  let path_hops := c.dijkstra_hops dst_node
  let path := List.replicate (path_hops * ip_v4_size) 0
  let s ← walk (pathStep h conf) h.brk (c, (path, (path_hops : ℤ) - 1), none) (some dst_node)
  let c ← forLinks h takeCost s.1
  return (⟨path_hops, s.2.1.1⟩, c)

/-- Insert a path in the ring, after the path where it starts. -/
def insertPath (path : PathBlock) : List PathBlock → List PathBlock
  | [] => [path]
  | first :: paths => first :: path :: paths

/-- The loop that computes `k` paths: true unless the destination is not reached. -/
def pathLoop (srcAddr : ip_v4_addr ws) (dst_node : Ptr) : ℕ → List PathBlock → Daemon ws →
    Option (Bool × List PathBlock × Daemon ws)
  | 0, ring, s => some (true, ring, s)
  | k + 1, ring, s => do
    let c ← dijkstra s.store srcAddr s.scratch
    if c.dijkstra_cost dst_node = ULONG_MAX then return (false, ring, { s with scratch := c })
    else
      let (path, c) ← retrievePath s.store s.conf dst_node c
      pathLoop srcAddr dst_node k (insertPath { path with name := s.path_brk } ring)
        { s with scratch := c, path_brk := s.path_brk + 1 }

/-- The first path; the others are in the new entry of the cache. -/
def tc_k_dijstra (s : Daemon ws) (srcAddr dstAddr : ip_v4_addr ws) : Option (Option PathBlock × Daemon ws) := do
  let entry (ring : List PathBlock) : PathBuffer ws := ⟨srcAddr, dstAddr, ring⟩
  let buffers := s.g_path_buffer
  let found ← tc_get_node s.store dstAddr
  match found with
  | none => return (none, { s with g_path_buffer := entry [] :: buffers })
  | some dst_node =>
    let c ← forLinks s.store (resetCost s.store) s.scratch
    let (done, ring, s) ← pathLoop srcAddr dst_node s.conf.g_conf_path.toNat [] { s with scratch := c }
    return (if done then ring.head? else none, { s with g_path_buffer := entry ring :: buffers })

end MpOlsr
