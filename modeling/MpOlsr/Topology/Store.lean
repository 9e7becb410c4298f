import MpOlsr.Lib.CellPrograms
import MpOlsr.Routing.Hooks

/-!
# The topology store of the daemon

The store of `ser_path_tc.c`: nodes, their addresses and the links between them, in blocks allocated by `malloc`.  The
fields that thread a block on a list are kept together with the heads of these lists (`hash`, `node_lst`, `src`,
`dst`); the other fields are in the blocks.  An access to a block that is not allocated, or through NULL, is a fault
(`none`), and so is a second `free`.  The path cache, which a change of the topology only resets, is left out.
-/

namespace MpOlsr

open DoublyLinked

/-- The address of a block. -/
abbrev Ptr := ℕ

def MAX_IP_ALIAS_BY_NODE : ℕ := 5

/-- A position in a table of `MAX_IP_ALIAS_BY_NODE` entries. -/
abbrev Slot := Fin 5

/-- The numerals of `Slot` share this instance. -/
instance slot_neZero : NeZero 5 := ⟨by decide⟩

/-- `struct olsr_node_addr`, less its hash links. -/
structure OlsrNodeAddr (ws : WordSize) where
  addr_ip : ip_v4_addr ws
  addr_pos : Slot
  node : Option Ptr

/-- `struct olsr_node`, less its list links and heads. -/
structure OlsrNode where
  addr_tab : Slot → Option Ptr

/-- `struct olsr_node_link`, less its list links. -/
structure OlsrNodeLink (ws : WordSize) where
  src_node : Option Ptr
  dst_node : Option Ptr
  cost : ULong ws

/-- `struct local_link` -/
structure LocalLinkEntry (ws : WordSize) extends LocalLink ws where
  local_addr_alias : ip_v4_addr ws
  local_addr_mask : ip_v4_addr ws

structure Store (ws : WordSize) where
  node_addrs : Ptr → Option (OlsrNodeAddr ws)
  nodes : Ptr → Option OlsrNode
  link_blocks : Ptr → Option (OlsrNodeLink ws)
  /-- every address allocated so far is below -/
  brk : Ptr
  /-- `hash_next`, `hash_prev`, `g_tc_addr_tab` -/
  hash : Links Ptr Byte
  /-- `next_node`, `prev_node`, `g_tc_node_lst` -/
  node_lst : Links Ptr Unit
  /-- `src_link_next`, `src_link_prev`, `link_src` -/
  src : Links Ptr Ptr
  /-- `dst_link_next`, `dst_link_prev`, `link_dst` -/
  dst : Links Ptr Ptr
  g_local_addr_tab : Slot → ip_v4_addr ws
  g_local_mask_tab : Slot → ip_v4_addr ws
  g_local_links : List (LocalLinkEntry ws)

variable {ws : WordSize}

namespace Store

variable (h : Store ws)

def liveAddr (p : Ptr) : Bool := (h.node_addrs p).isSome
def liveNode (p : Ptr) : Bool := (h.nodes p).isSome
def liveLink (p : Ptr) : Bool := (h.link_blocks p).isSome

/-! ### Blocks -/

/-- `ALLOC_NODE_ADDR` and `memset` -/
def allocAddr : Store ws :=
  { h with node_addrs := Function.update h.node_addrs h.brk (some ⟨0, 0, none⟩), brk := h.brk + 1,
           hash := h.hash.clear h.brk }

/-- `ALLOC_NODE` and `memset` -/
def allocNode : Store ws :=
  { h with nodes := Function.update h.nodes h.brk (some ⟨fun _ => none⟩), brk := h.brk + 1,
           node_lst := h.node_lst.clear h.brk, src := h.src.clearHead h.brk, dst := h.dst.clearHead h.brk }

/-- `ALLOC_LINK` and `memset` -/
def allocLink : Store ws :=
  { h with link_blocks := Function.update h.link_blocks h.brk (some ⟨none, none, 0⟩), brk := h.brk + 1,
           src := h.src.clear h.brk, dst := h.dst.clear h.brk }

def updAddr (p : Ptr) (f : OlsrNodeAddr ws → OlsrNodeAddr ws) : Option (Store ws) :=
  (h.node_addrs p).map fun a => { h with node_addrs := Function.update h.node_addrs p (some (f a)) }

def updNode (p : Ptr) (f : OlsrNode → OlsrNode) : Option (Store ws) :=
  (h.nodes p).map fun n => { h with nodes := Function.update h.nodes p (some (f n)) }

def updLink (p : Ptr) (f : OlsrNodeLink ws → OlsrNodeLink ws) : Option (Store ws) :=
  (h.link_blocks p).map fun l => { h with link_blocks := Function.update h.link_blocks p (some (f l)) }

def freeAddr (p : Ptr) : Option (Store ws) :=
  (h.node_addrs p).map fun _ => { h with node_addrs := Function.update h.node_addrs p none }

/-- The heads of the lists in the block are lost. -/
def freeNode (p : Ptr) : Option (Store ws) :=
  (h.nodes p).map fun _ =>
    { h with nodes := Function.update h.nodes p none, src := h.src.clearHead p, dst := h.dst.clearHead p }

def freeLink (p : Ptr) : Option (Store ws) :=
  (h.link_blocks p).map fun _ => { h with link_blocks := Function.update h.link_blocks p none }

/-! ### Lists of links -/

/-- Insert a link in the list of its source node. -/
def insertSrc (link : Ptr) : Option (Store ws) := do
  let l ← h.link_blocks link
  let n ← l.src_node
  (h.src.insertCell h.liveLink h.liveNode n link).map fun D => { h with src := D }

def insertDst (link : Ptr) : Option (Store ws) := do
  let l ← h.link_blocks link
  let n ← l.dst_node
  (h.dst.insertCell h.liveLink h.liveNode n link).map fun D => { h with dst := D }

/-- Take a link off the list of its source node. -/
def removeSrc (link : Ptr) : Option (Store ws) := do
  let l ← h.link_blocks link
  let n ← l.src_node
  (h.src.removeCell h.liveLink h.liveNode n link).map fun D => { h with src := D }

def removeDst (link : Ptr) : Option (Store ws) := do
  let l ← h.link_blocks link
  let n ← l.dst_node
  (h.dst.removeCell h.liveLink h.liveNode n link).map fun D => { h with dst := D }

end Store

/-! ### Addresses -/

def get_hash_key (addr_ip : ip_v4_addr ws) : Byte := addr_ip.setWidth 8

/-- The entry of an address in `g_tc_addr_tab`: the most recent one. -/
def tc_find_addr (h : Store ws) (addr_ip : ip_v4_addr ws) : Option (Option Ptr) :=
  search (h.hash.getNext h.liveAddr) (fun p => (h.node_addrs p).map fun a => decide (a.addr_ip = addr_ip)) h.brk
    (h.hash.head (get_hash_key addr_ip))

/-- The node of an entry. -/
def nodeOf (h : Store ws) : Option Ptr → Option (Option Ptr)
  | none => some none
  | some p => (h.node_addrs p).map OlsrNodeAddr.node

def tc_get_node (h : Store ws) (addr_ip : ip_v4_addr ws) : Option (Option Ptr) := do
  let p ← tc_find_addr h addr_ip
  nodeOf h p

/-- The first free position for an alias. -/
def firstFree (n : OlsrNode) : Option Slot := [1, 2, 3, 4].find? fun i => n.addr_tab i = none

/-- The position for a new address: 0 for the main address. -/
def newPos (h : Store ws) (node : Ptr) (main_addr : Bool) : Option (Option Slot) :=
  if main_addr then some (some 0) else (h.nodes node).map firstFree

def tc_add_node_addr (h : Store ws) (node_addr node : Ptr) (addr_ip : ip_v4_addr ws) (main_addr : Bool) :
    Option (Bool × Store ws) := do
  let h ← h.updAddr node_addr fun a => { a with node := some node, addr_ip := addr_ip }
  let pos ← newPos h node main_addr
  match pos with
  | none => return (false, h)
  | some pos =>
    let h ← h.updAddr node_addr fun a => { a with addr_pos := pos }
    let h ← h.updNode node fun n => { n with addr_tab := Function.update n.addr_tab pos (some node_addr) }
    let D ← h.hash.insertCell h.liveAddr (fun _ => true) (get_hash_key addr_ip) node_addr
    return (true, { h with hash := D })

/-- The removed entry, if there is one. -/
def tc_rmv_node_addr (h : Store ws) (addr_ip : ip_v4_addr ws) : Option (Option Ptr × Store ws) := do
  let entry ← tc_find_addr h addr_ip
  match entry with
  | none => return (none, h)
  | some p =>
    let D ← h.hash.removeCell h.liveAddr (fun _ => true) (get_hash_key addr_ip) p
    let h := { h with hash := D }
    let a ← h.node_addrs p
    let n ← a.node
    let h ← h.updNode n fun nd => { nd with addr_tab := Function.update nd.addr_tab a.addr_pos none }
    return (some p, h)

/-! ### Local links -/

/-- The first address of a node in the network of a local interface. -/
def findInterface (h : Store ws) (tab : Slot → Option Ptr) (mask net : ip_v4_addr ws) :
    List Slot → Option (Option (ip_v4_addr ws))
  | [] => some none
  | i :: is =>
    match tab i with
    | none => findInterface h tab mask net is
    | some p => do
      let a ← h.node_addrs p
      if a.addr_ip &&& mask = net then return some a.addr_ip else findInterface h tab mask net is

/-- The first local interface in the network of one of the addresses of a node. -/
def findLocalInterface (h : Store ws) (tab : Slot → Option Ptr) (link : LocalLinkEntry ws) :
    List Slot → Option (LocalLinkEntry ws)
  | [] => some link
  | i :: is => do
    let net := h.g_local_addr_tab i &&& h.g_local_mask_tab i
    if net = 0 then findLocalInterface h tab link is
    else
      let found ← findInterface h tab (h.g_local_mask_tab i) net [0, 1, 2, 3, 4]
      match found with
      | none => findLocalInterface h tab link is
      | some addr =>
        return { link with dst_alias_ip := addr, local_addr_alias := h.g_local_addr_tab i,
                           local_addr_mask := h.g_local_mask_tab i }

def tc_update_local_link (h : Store ws) (node_dst : Ptr) : Option (LocalLinkEntry ws) := do
  let n ← h.nodes node_dst
  let main ← n.addr_tab 0
  let a ← h.node_addrs main
  findLocalInterface h n.addr_tab
    { dst_addr_ip := a.addr_ip, dst_alias_ip := 0, local_addr_alias := 0, local_addr_mask := 0 } [0, 1, 2, 3, 4]

/-- Update the first local link to an address. -/
def updateLocalLinks (h : Store ws) (node : Ptr) (addr_ip : ip_v4_addr ws) :
    List (LocalLinkEntry ws) → Option (List (LocalLinkEntry ws))
  | [] => some []
  | link :: links =>
    if link.dst_addr_ip = addr_ip then (tc_update_local_link h node).map fun l => l :: links
    else (updateLocalLinks h node addr_ip links).map fun ls => link :: ls

/-- Remove the first local link to an address. -/
def removeLocalLink (addr_ip : ip_v4_addr ws) (links : List (LocalLinkEntry ws)) : List (LocalLinkEntry ws) :=
  links.eraseP fun link => link.dst_addr_ip = addr_ip

end MpOlsr
