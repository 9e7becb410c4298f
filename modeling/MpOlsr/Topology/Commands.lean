import MpOlsr.Topology.Store

/-!
# The commands of the daemon

The operations of `ser_path_tc.c` on the topology store, and the dispatch of the events sent by the plugin
(`handleRead`).  A loop over a list of blocks takes at most as many steps as there are blocks.
-/

namespace MpOlsr

open DoublyLinked

variable {ws : WordSize}

/-! ### Nodes -/

def tc_add_node (h : Store ws) (addr_ip : ip_v4_addr ws) : Option (Store ws) := do
  let found ← tc_get_node h addr_ip
  match found with
  | some _ => return h
  | none =>
    let new_node := h.brk
    let h := h.allocNode
    let new_addr := h.brk
    let h := h.allocAddr
    let r ← tc_add_node_addr h new_addr new_node addr_ip true
    if r.1 = false then do
      let h ← r.2.freeAddr new_addr
      h.freeNode new_node
    else
      let D ← r.2.node_lst.insertCell r.2.liveNode (fun _ => true) () new_node
      return { r.2 with node_lst := D }

/-- The loop over the addresses of a node that is removed: the entries removed. -/
def removeAddrs (node : Ptr) : List Slot → Store ws → Option (List Ptr × Store ws)
  | [], h => some ([], h)
  | i :: is, h => do
    let n ← h.nodes node
    match n.addr_tab i with
    | none => removeAddrs node is h
    | some p =>
      let a ← h.node_addrs p
      let r ← tc_rmv_node_addr h a.addr_ip
      let rs ← removeAddrs node is r.2
      return (r.1.toList ++ rs.1, rs.2)

/-- A link of a removed node leaves the list of its destination. -/
def removeDstStep (h : Store ws) (link : Ptr) : Option (Store ws × Option Ptr) := do
  let h ← h.removeDst link
  let next ← h.src.getNext h.liveLink link
  return (h, next)

/-- A link to a removed node leaves the list of its source. -/
def removeSrcStep (h : Store ws) (link : Ptr) : Option (Store ws × Option Ptr) := do
  let h ← h.removeSrc link
  let next ← h.dst.getNext h.liveLink link
  return (h, next)

def freeSrcStep (h : Store ws) (link : Ptr) : Option (Store ws × Option Ptr) := do
  let next ← h.src.getNext h.liveLink link
  let h ← h.freeLink link
  return (h, next)

def freeDstStep (h : Store ws) (link : Ptr) : Option (Store ws × Option Ptr) := do
  let next ← h.dst.getNext h.liveLink link
  let h ← h.freeLink link
  return (h, next)

/-- The links of a node leave the lists of the other nodes. -/
def detachLinks (h : Store ws) (node : Ptr) : Option (Store ws) := do
  let first ← h.src.getHead h.liveNode node
  let h ← walk removeDstStep h.brk h first
  let first ← h.dst.getHead h.liveNode node
  walk removeSrcStep h.brk h first

/-- The links of a node are freed. -/
def freeLinks (h : Store ws) (node : Ptr) : Option (Store ws) := do
  let first ← h.src.getHead h.liveNode node
  let h ← walk freeSrcStep h.brk h first
  let first ← h.dst.getHead h.liveNode node
  walk freeDstStep h.brk h first

def tc_remove_node (h : Store ws) (addr_ip : ip_v4_addr ws) : Option (Store ws) := do
  let found ← tc_get_node h addr_ip
  match found with
  | none => return h
  | some node =>
    -- the removal of the local node removes all local links
    let h := { h with g_local_links :=
                        if addr_ip = h.g_local_addr_tab 0 then [] else removeLocalLink addr_ip h.g_local_links }
    let D ← h.node_lst.removeCell h.liveNode (fun _ => true) () node
    let h := { h with node_lst := D }
    let r ← removeAddrs node [0, 1, 2, 3, 4] h
    let h ← detachLinks r.2 node
    let h ← r.1.foldlM Store.freeAddr h
    let h ← freeLinks h node
    h.freeNode node

/-! ### Aliases -/

def tc_add_alias (h : Store ws) (addr_ip addr_alias : ip_v4_addr ws) : Option (Store ws) := do
  let new_addr := h.brk
  let h := h.allocAddr
  let found ← tc_get_node h addr_ip
  match found with
  | none => h.freeAddr new_addr
  | some node =>
    -- the result is ignored: a block that does not fit the table is lost
    let r ← tc_add_node_addr h new_addr node addr_alias false
    let links ← updateLocalLinks r.2 node addr_ip r.2.g_local_links
    return { r.2 with g_local_links := links }

def tc_remove_alias (h : Store ws) (addr_ip addr_alias : ip_v4_addr ws) : Option (Store ws) := do
  let found ← tc_get_node h addr_ip
  match found with
  | none => return h
  | some node =>
    let r ← tc_rmv_node_addr h addr_alias
    let links ← updateLocalLinks r.2 node addr_ip r.2.g_local_links
    r.1.toList.foldlM Store.freeAddr { r.2 with g_local_links := links }

/-! ### Links -/

/-- A new local link to a node, if the source is the local node. -/
def addLocalLink (h : Store ws) (addr_src : ip_v4_addr ws) (node_dst : Ptr) : Option (Store ws) :=
  if addr_src = h.g_local_addr_tab 0 then
    (tc_update_local_link h node_dst).map fun l => { h with g_local_links := l :: h.g_local_links }
  else some h

def tc_add_link (h : Store ws) (addr_src addr_dst : ip_v4_addr ws) (cost : ℤ) : Option (Store ws) := do
  let link := h.brk
  let h := h.allocLink
  let found ← tc_get_node h addr_src
  match found with
  | none => h.freeLink link
  | some node_src =>
    let found ← tc_get_node h addr_dst
    match found with
    | none => h.freeLink link
    | some node_dst =>
      let h ← addLocalLink h addr_src node_dst
      let h ← h.updLink link fun l => { l with cost := BitVec.ofInt ws.bits cost, src_node := some node_src }
      let h ← h.insertSrc link
      let h ← h.updLink link fun l => { l with dst_node := some node_dst }
      h.insertDst link

/-- `link->dst_node->addr_tab[0]->addr_ip == addr_dst` -/
def leadsTo (h : Store ws) (addr_dst : ip_v4_addr ws) (link : Ptr) : Option Bool := do
  let l ← h.link_blocks link
  let d ← l.dst_node
  let n ← h.nodes d
  let main ← n.addr_tab 0
  let a ← h.node_addrs main
  return decide (a.addr_ip = addr_dst)

def tc_remove_link (h : Store ws) (addr_src addr_dst : ip_v4_addr ws) : Option (Store ws) := do
  let found ← tc_get_node h addr_src
  match found with
  | none => return h
  | some node_src =>
    let first ← h.src.getHead h.liveNode node_src
    let found ← search (h.src.getNext h.liveLink) (leadsTo h addr_dst) h.brk first
    match found with
    | none => return h
    | some link =>
      let h ← h.removeDst link
      let h ← h.removeSrc link
      let links := if addr_src = h.g_local_addr_tab 0 then removeLocalLink addr_dst h.g_local_links else h.g_local_links
      let h := { h with g_local_links := links }
      h.freeLink link

/-! ### The whole store -/

/-- `tc_init_data`, and the globals as the program starts -/
def tc_init_data : Store ws where
  node_addrs := fun _ => none
  nodes := fun _ => none
  link_blocks := fun _ => none
  brk := 0
  hash := ⟨fun _ => none, fun _ => none, fun _ => none⟩
  node_lst := ⟨fun _ => none, fun _ => none, fun _ => none⟩
  src := ⟨fun _ => none, fun _ => none, fun _ => none⟩
  dst := ⟨fun _ => none, fun _ => none, fun _ => none⟩
  g_local_addr_tab := fun _ => 0
  g_local_mask_tab := fun _ => 0
  g_local_links := []

/-- Free a node and the links on the list of its source. -/
def freeNodeStep (h : Store ws) (node : Ptr) : Option (Store ws × Option Ptr) := do
  let first ← h.src.getHead h.liveNode node
  let h ← walk freeSrcStep h.brk h first
  let next ← h.node_lst.getNext h.liveNode node
  let h ← h.freeNode node
  return (h, next)

def freeAddrStep (h : Store ws) (p : Ptr) : Option (Store ws × Option Ptr) := do
  let next ← h.hash.getNext h.liveAddr p
  let h ← h.freeAddr p
  return (h, next)

/-- Free the entries of one hash key. -/
def freeChain (h : Store ws) (k : Byte) : Option (Store ws) :=
  (walk freeAddrStep h.brk h (h.hash.head k)).map fun h => { h with hash := h.hash.clearHead k }

def tc_free_data (h : Store ws) : Option (Store ws) := do
  let h ← walk freeNodeStep h.brk h (h.node_lst.head ())
  let h := { h with node_lst := h.node_lst.clearHead () }
  let h ← ((List.range 256).map (BitVec.ofNat 8)).foldlM freeChain h
  return { h with g_local_links := [], g_local_addr_tab := fun _ => 0, g_local_mask_tab := fun _ => 0 }

def tc_set_local_addr (h : Store ws) (addr_ip mask : ip_v4_addr ws) : Store ws :=
  { h with g_local_addr_tab := Function.update h.g_local_addr_tab 0 addr_ip,
           g_local_mask_tab := Function.update h.g_local_mask_tab 0 mask }

def tc_set_local_alias (h : Store ws) (addr_ip mask : ip_v4_addr ws) : Store ws :=
  match ([1, 2, 3, 4] : List Slot).find? fun i => h.g_local_addr_tab i = 0 with
  | none => h
  | some i =>
    { h with g_local_addr_tab := Function.update h.g_local_addr_tab i addr_ip,
             g_local_mask_tab := Function.update h.g_local_mask_tab i mask }

/-- The events sent by the plugin. -/
inductive OlsrEventMessage (ws : WordSize) where
  | DEV_CMD_RESET_TC
  | DEV_CMD_ADD_NODE (addr : ip_v4_addr ws)
  | DEV_CMD_REMOVE_NODE (addr : ip_v4_addr ws)
  | DEV_CMD_ADD_LINK (src dst : ip_v4_addr ws) (value : ℤ)
  | DEV_CMD_REMOVE_LINK (src dst : ip_v4_addr ws)
  | DEV_CMD_ADD_ALIAS (addr addr_alias : ip_v4_addr ws)
  | DEV_CMD_REMOVE_ALIAS (addr addr_alias : ip_v4_addr ws)
  | DEV_CMD_SET_LOCAL_ADDR (addr mask : ip_v4_addr ws)
  | DEV_CMD_SET_ALIAS_ADDR (addr mask : ip_v4_addr ws)
  deriving DecidableEq

/-- Process an event. -/
def handleRead (h : Store ws) : OlsrEventMessage ws → Option (Store ws)
  | .DEV_CMD_RESET_TC => tc_free_data h
  | .DEV_CMD_ADD_NODE a => tc_add_node h a
  | .DEV_CMD_REMOVE_NODE a => tc_remove_node h a
  | .DEV_CMD_ADD_LINK s d c => tc_add_link h s d c
  | .DEV_CMD_REMOVE_LINK s d => tc_remove_link h s d
  | .DEV_CMD_ADD_ALIAS a b => tc_add_alias h a b
  | .DEV_CMD_REMOVE_ALIAS a b => tc_remove_alias h a b
  | .DEV_CMD_SET_LOCAL_ADDR a m => some (tc_set_local_addr h a m)
  | .DEV_CMD_SET_ALIAS_ADDR a m => some (tc_set_local_alias h a m)

/-- Process events one after the other. -/
def handleReads (h : Store ws) (ms : List (OlsrEventMessage ws)) : Option (Store ws) := ms.foldlM handleRead h

end MpOlsr
