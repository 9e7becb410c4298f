import MpOlsr.Topology.Commands

/-!
# The tables of the plugin

`ser_tc.c` in the plugin of olsrd: a copy of the topology in hash tables, which `tc_check_data` compares with the sets
of olsrd.  The table `g_cur_ser_tc_tab` has a chain of nodes for every hash key, and every node a chain of links for
every hash key.  A difference is put in the tables and on the queue of the messages for the daemons.  Every access to a
block that is not allocated is a fault (`none`).
-/

namespace MpOlsr

open DoublyLinked

/-- An IPv4 address of olsrd, as the four bytes of `s_addr` in a little-endian memory. -/
abbrev OlsrIpAddr := BitVec 32

def HASHSIZE : ℕ := 128

abbrev HashKey := Fin 128

def jhash_mix (a b c : BitVec 32) : BitVec 32 × BitVec 32 × BitVec 32 :=
  let a := (a - b - c) ^^^ (c >>> 13)
  let b := (b - c - a) ^^^ (a <<< 8)
  let c := (c - a - b) ^^^ (b >>> 13)
  let a := (a - b - c) ^^^ (c >>> 12)
  let b := (b - c - a) ^^^ (a <<< 16)
  let c := (c - a - b) ^^^ (b >>> 5)
  let a := (a - b - c) ^^^ (c >>> 3)
  let b := (b - c - a) ^^^ (a <<< 10)
  let c := (c - a - b) ^^^ (b >>> 15)
  (a, b, c)

/-- `jenkins_hash` of the four bytes of an address. -/
def jenkins_hash (addr : OlsrIpAddr) : BitVec 32 :=
  let k (i : ℕ) : BitVec 32 := (addr >>> (8 * i)) &&& 0xFF
  let golden : BitVec 32 := 0x9e3779b9
  let a := golden + (k 3 <<< 24) + (k 2 <<< 16) + (k 1 <<< 8) + k 0
  (jhash_mix a golden 4).2.2

def olsr_ip_hashing (addr : OlsrIpAddr) : HashKey := Fin.ofNat 128 (jenkins_hash addr &&& 127).toNat

/-! ### The sets of olsrd -/

inductive NeighborStatus where
  | NOT_SYM
  | SYM
  deriving DecidableEq

/-- `struct neighbor_entry` -/
structure NeighborEntry where
  neighbor_main_addr : OlsrIpAddr
  status : NeighborStatus

/-- The sets of olsrd that the plugin reads: the entries of the TC set with the destinations of their edges, the
neighbours, each once, and the main addresses of the MID set with their aliases. -/
structure Snapshot where
  tc_set : List (OlsrIpAddr × List OlsrIpAddr)
  neighbortable : List NeighborEntry
  mid_set : List (OlsrIpAddr × List OlsrIpAddr)
  nodup : (neighbortable.map NeighborEntry.neighbor_main_addr).Nodup

/-- The edges, in the order of the loops. -/
def Snapshot.edges (S : Snapshot) : List (OlsrIpAddr × OlsrIpAddr) :=
  S.tc_set.flatMap fun tc => tc.2.map fun T_dest_addr => (tc.1, T_dest_addr)

/-- The pairs of a main address and an alias, in the order of the loops. -/
def Snapshot.aliases (S : Snapshot) : List (OlsrIpAddr × OlsrIpAddr) :=
  S.mid_set.flatMap fun mid => mid.2.map fun alias_addr => (mid.1, alias_addr)

/-- The address is one of the local interfaces. -/
def tc_is_addr_local (ifnet : List OlsrIpAddr) (addr : OlsrIpAddr) : Bool := ifnet.any fun ifs => ifs = addr

/-- The first neighbour with the address is symmetric. -/
def tc_is_in_neighbourhood : List NeighborEntry → OlsrIpAddr → Bool
  | [], _ => false
  | neigh :: rest, addr =>
    if neigh.neighbor_main_addr = addr then neigh.status = .SYM else tc_is_in_neighbourhood rest addr

/-! ### The tables -/

/-- `struct ser_tc_mid` -/
structure SerTcMid where
  main_addr : OlsrIpAddr
  alias_addr : OlsrIpAddr
  is_active : Bool
  deriving DecidableEq

/-- `struct ser_tc_entry_dst`, less its links. -/
structure SerTcEntryDst where
  dst_addr : OlsrIpAddr
  is_active : Bool

/-- `struct ser_tc_entry`, less its links. -/
structure SerTcEntry where
  src_addr : OlsrIpAddr
  nb_dst : ℤ
  is_active : Bool
  is_src_local : Bool

/-- The data of the plugin. -/
structure Plugin (ws : WordSize) where
  entries : Ptr → Option SerTcEntry
  dsts : Ptr → Option SerTcEntryDst
  /-- the next block -/
  brk : Ptr
  /-- `g_cur_ser_tc_tab`, `hash_next`, `hash_prev` of the nodes -/
  tab : Links Ptr HashKey
  /-- `dst_tab` of the nodes, `hash_next`, `hash_prev` of the links -/
  dst_tab : Links Ptr (Ptr × HashKey)
  g_cur_mid_tc : List SerTcMid
  msgQueue_ : List (OlsrEventMessage ws)

namespace Plugin

variable {ws : WordSize} (ifnet : List OlsrIpAddr) (S : Snapshot) (p : Plugin ws)

def tc_init_data : Plugin ws where
  entries := fun _ => none
  dsts := fun _ => none
  brk := 0
  tab := ⟨fun _ => none, fun _ => none, fun _ => none⟩
  dst_tab := ⟨fun _ => none, fun _ => none, fun _ => none⟩
  g_cur_mid_tc := []
  msgQueue_ := []

def liveEntry (x : Ptr) : Bool := (p.entries x).isSome

def liveDst (x : Ptr) : Bool := (p.dsts x).isSome

/-- The chains of a node go with its block. -/
def liveChain (k : Ptr × HashKey) : Bool := p.liveEntry k.1

/-! ### The messages -/

/-- An address as an `unsigned long`. -/
def toLong (addr : OlsrIpAddr) : ip_v4_addr ws := addr.setWidth ws.bits

def addMessage (msg : OlsrEventMessage ws) : Plugin ws := { p with msgQueue_ := p.msgQueue_ ++ [msg] }

def dev_add_node (addr : OlsrIpAddr) : Plugin ws := p.addMessage (.DEV_CMD_ADD_NODE (toLong addr))

def dev_rmv_node (addr : OlsrIpAddr) : Plugin ws := p.addMessage (.DEV_CMD_REMOVE_NODE (toLong addr))

def dev_add_link (src_addr dst_addr : OlsrIpAddr) (qlt : ℤ) : Plugin ws :=
  p.addMessage (.DEV_CMD_ADD_LINK (toLong src_addr) (toLong dst_addr) qlt)

def dev_rmv_link (src_addr dst_addr : OlsrIpAddr) : Plugin ws :=
  p.addMessage (.DEV_CMD_REMOVE_LINK (toLong src_addr) (toLong dst_addr))

def dev_add_alias (addr alias_addr : OlsrIpAddr) : Plugin ws :=
  p.addMessage (.DEV_CMD_ADD_ALIAS (toLong addr) (toLong alias_addr))

def dev_rmv_alias (addr alias_addr : OlsrIpAddr) : Plugin ws :=
  p.addMessage (.DEV_CMD_REMOVE_ALIAS (toLong addr) (toLong alias_addr))

/-! ### Nodes and links -/

def tc_get_node (addr : OlsrIpAddr) : Option (Option Ptr) :=
  search (p.tab.getNext p.liveEntry) (fun x => (p.entries x).map fun e => decide (addr = e.src_addr)) p.brk
    (p.tab.head (olsr_ip_hashing addr))

/-- Allocate a block for a node and set it to zero. -/
def allocEntry (e : SerTcEntry) : Plugin ws :=
  { p with
    entries := Function.update p.entries p.brk (some e),
    brk := p.brk + 1,
    tab := p.tab.clear p.brk,
    dst_tab := { p.dst_tab with head := fun k => if k.1 = p.brk then none else p.dst_tab.head k } }

def tc_create_node (addr : OlsrIpAddr) : Option (Plugin ws × Ptr) := do
  let node := p.brk
  let p := p.allocEntry
    { src_addr := addr, nb_dst := 0, is_active := true, is_src_local := tc_is_addr_local ifnet addr }
  let tab ← p.tab.insertCell p.liveEntry (fun _ => true) (olsr_ip_hashing addr) node
  return ({ p with tab := tab }.dev_add_node addr, node)

def setEntry (x : Ptr) (f : SerTcEntry → SerTcEntry) : Option (Plugin ws) :=
  (p.entries x).map fun e => { p with entries := Function.update p.entries x (some (f e)) }

def setDst (x : Ptr) (f : SerTcEntryDst → SerTcEntryDst) : Option (Plugin ws) :=
  (p.dsts x).map fun d => { p with dsts := Function.update p.dsts x (some (f d)) }

/-- The source of a link, active: none if the link is refused. -/
def findSrc (src_addr dst_addr : OlsrIpAddr) : Option (Option (Plugin ws × Ptr)) := do
  let src ← p.tc_get_node src_addr
  match src with
  | none =>
    if tc_is_addr_local ifnet src_addr && !tc_is_in_neighbourhood S.neighbortable dst_addr then return none
    else
      let (p, src) ← p.tc_create_node ifnet src_addr
      let p ← p.setEntry src fun e => { e with is_active := true }
      return some (p, src)
  | some src =>
    let e ← p.entries src
    if e.is_src_local && !tc_is_in_neighbourhood S.neighbortable dst_addr then return none
    else
      let p ← p.setEntry src fun e => { e with is_active := true }
      return some (p, src)

/-- The destination of a link, active. -/
def findDst (dst_addr : OlsrIpAddr) : Option (Plugin ws) := do
  let dst ← p.tc_get_node dst_addr
  let (p, dst) ← match dst with
    | none => p.tc_create_node ifnet dst_addr
    | some dst => some (p, dst)
  p.setEntry dst fun e => { e with is_active := true }

/-- Allocate a block for a link. -/
def allocDst (d : SerTcEntryDst) : Plugin ws :=
  { p with
    dsts := Function.update p.dsts p.brk (some d),
    brk := p.brk + 1,
    dst_tab := p.dst_tab.clear p.brk }

def tc_addLink (src_addr dst_addr : OlsrIpAddr) : Option (Plugin ws) := do
  let found ← p.findSrc ifnet S src_addr dst_addr
  match found with
  | none => return p
  | some (p, src) =>
    let p ← p.findDst ifnet dst_addr
    let chain := (src, olsr_ip_hashing dst_addr)
    let first ← p.dst_tab.getHead p.liveChain chain
    let dst_link ← search (p.dst_tab.getNext p.liveDst)
      (fun x => (p.dsts x).map fun d => decide (dst_addr = d.dst_addr)) p.brk first
    match dst_link with
    | none =>
      let dst_link := p.brk
      let p := p.allocDst { dst_addr := dst_addr, is_active := false }
      let dst_tab ← p.dst_tab.insertCell p.liveDst p.liveChain chain dst_link
      let p ← { p with dst_tab := dst_tab }.setEntry src fun e => { e with nb_dst := e.nb_dst + 1 }
      (p.dev_add_link src_addr dst_addr 1).setDst dst_link fun d => { d with is_active := true }
    | some dst_link => p.setDst dst_link fun d => { d with is_active := true }

/-! ### The flags -/

def resetDst (dst : Ptr) : Option (Plugin ws × Option Ptr) := do
  let p ← p.setDst dst fun d => { d with is_active := false }
  let next ← p.dst_tab.getNext p.liveDst dst
  return (p, next)

/-- Reset the flags of the links in a chain of a node. -/
def resetChain (entry : Ptr) (index2 : HashKey) : Option (Plugin ws) := do
  let first ← p.dst_tab.getHead p.liveChain (entry, index2)
  walk resetDst p.brk p first

def resetEntry (entry : Ptr) : Option (Plugin ws × Option Ptr) := do
  let p ← p.setEntry entry fun e => { e with is_active := false }
  let p ← (List.finRange 128).foldlM (fun p index2 => p.resetChain entry index2) p
  let next ← p.tab.getNext p.liveEntry entry
  return (p, next)

def tc_reset_active_flag : Option (Plugin ws) := do
  let p ← (List.finRange 128).foldlM (fun p index1 => walk resetEntry p.brk p (p.tab.head index1)) p
  return { p with g_cur_mid_tc := p.g_cur_mid_tc.map fun m => { m with is_active := false } }

/-! ### MID entries -/

/-- The first entry with the two addresses is active; none if there is no such entry. -/
def markMid (main_addr alias_addr : OlsrIpAddr) : List SerTcMid → Option (List SerTcMid)
  | [] => none
  | m :: mids =>
    if main_addr = m.main_addr ∧ alias_addr = m.alias_addr then some ({ m with is_active := true } :: mids)
    else (markMid main_addr alias_addr mids).map fun mids => m :: mids

def tc_addMid (main_addr alias_addr : OlsrIpAddr) : Plugin ws :=
  match markMid main_addr alias_addr p.g_cur_mid_tc with
  | some mids => { p with g_cur_mid_tc := mids }
  | none =>
    { p with g_cur_mid_tc := ⟨main_addr, alias_addr, true⟩ :: p.g_cur_mid_tc }.dev_add_alias main_addr alias_addr

/-- Take the entries with a property off the list, and tell the daemons. -/
def unlinkMids (p : Plugin ws) (test : SerTcMid → Bool) : Plugin ws :=
  { p with
    g_cur_mid_tc := p.g_cur_mid_tc.filter fun m => !test m,
    msgQueue_ := p.msgQueue_ ++ (p.g_cur_mid_tc.filter test).map fun m =>
      .DEV_CMD_REMOVE_ALIAS (toLong m.main_addr) (toLong m.alias_addr) }

def tc_remove_useless_mid : Plugin ws := p.unlinkMids fun m => !m.is_active

/-! ### Removal -/

/-- Take a link off its chain. -/
def unlinkDst (entry : Ptr) (index2 : HashKey) (dst : Ptr) : Option (Plugin ws) := do
  let dst_tab ← p.dst_tab.detachCell p.liveDst p.liveChain (entry, index2) dst
  return { p with dst_tab := dst_tab }

def sweepDst (entry : Ptr) (index2 : HashKey) (p : Plugin ws) (dst : Ptr) : Option (Plugin ws × Option Ptr) := do
  let d ← p.dsts dst
  if d.is_active then
    let next ← p.dst_tab.getNext p.liveDst dst
    return (p, next)
  else
    let p ← p.unlinkDst entry index2 dst
    let e ← p.entries entry
    let p ← (p.dev_rmv_link e.src_addr d.dst_addr).setEntry entry fun e => { e with nb_dst := e.nb_dst - 1 }
    let next ← p.dst_tab.getNext p.liveDst dst
    return ({ p with dsts := Function.update p.dsts dst none }, next)

/-- Remove the links of a chain that are not active. -/
def sweepChain (entry : Ptr) (index2 : HashKey) : Option (Plugin ws) := do
  let first ← p.dst_tab.getHead p.liveChain (entry, index2)
  walk (sweepDst entry index2) p.brk p first

/-- Take a node off its chain.  The node before it keeps its `hash_next`. -/
def unlinkEntry (index1 : HashKey) (entry : Ptr) : Option (Plugin ws) := do
  let next ← p.tab.getNext p.liveEntry entry
  let prev ← p.tab.getPrev p.liveEntry entry
  let tab ← p.tab.setPrevOf p.liveEntry next prev
  let prev ← tab.getPrev p.liveEntry entry
  match prev with
  | some _ => return { p with tab := tab }
  | none =>
    let next ← tab.getNext p.liveEntry entry
    return { p with tab := { tab with head := Function.update tab.head index1 next } }

def sweepEntry (index1 : HashKey) (p : Plugin ws) (entry : Ptr) : Option (Plugin ws × Option Ptr) := do
  let p ← (List.finRange 128).foldlM (fun p index2 => p.sweepChain entry index2) p
  let e ← p.entries entry
  if e.is_active then
    let next ← p.tab.getNext p.liveEntry entry
    return (p, next)
  else
    let p ← (p.unlinkMids fun m => m.main_addr = e.src_addr).unlinkEntry index1 entry
    let p := p.dev_rmv_node e.src_addr
    let next ← p.tab.getNext p.liveEntry entry
    return ({ p with entries := Function.update p.entries entry none }, next)

def tc_remove_useless_link : Option (Plugin ws) :=
  (List.finRange 128).foldlM (fun p index1 => walk (sweepEntry index1) p.brk p (p.tab.head index1)) p

def tc_check_data : Option (Plugin ws) := do
  let p ← p.tc_reset_active_flag
  let p ← S.edges.foldlM (fun p e => p.tc_addLink ifnet S e.1 e.2) p
  let p := S.aliases.foldl (fun p m => p.tc_addMid m.1 m.2) p
  p.tc_remove_useless_mid.tc_remove_useless_link

end Plugin

end MpOlsr
