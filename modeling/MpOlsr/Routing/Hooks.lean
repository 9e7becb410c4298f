import MpOlsr.Routing.Packet

/-!
# The netfilter hooks

`hk_process_datagram_local_out` inserts the path into the datagrams sent by a node, and
`hk_process_datagram_pre_routing` processes an MP-OLSR datagram that arrives: the last node of the path removes the
header, any other node forwards the datagram to the next hop, and a node without a link to the next hop tries to
recover the route.  The search for a path is a function of the node (`find_path`); `pth_copy_path` lays out its
result.
-/

namespace MpOlsr

open Buffer Bytes IpPacket MpOlsrPacket

/-- The entry of `g_local_links` for a neighbour. -/
structure LocalLink (ws : WordSize) where
  dst_addr_ip : ip_v4_addr ws
  dst_alias_ip : ip_v4_addr ws
  deriving DecidableEq

/-- `struct olsr_path`: the number of hops and the block with their addresses. -/
structure OlsrPath where
  path_hops : ℕ
  path : List Byte

/-- What the hooks know of the topology. -/
structure Node (ws : WordSize) where
  /-- `g_local_addr_tab[0]` -/
  local_addr : ip_v4_addr ws
  g_local_links : List (LocalLink ws)
  /-- the path selected for a source and a destination, and whether the source is the local node -/
  find_path : ip_v4_addr ws → ip_v4_addr ws → Option (OlsrPath × Bool)

variable {ws : WordSize}

/-- The first entry for a neighbour. -/
def Node.findLink (node : Node ws) (addr : ip_v4_addr ws) : Option (LocalLink ws) :=
  node.g_local_links.find? fun link => link.dst_addr_ip = addr

/-- The result of a path lookup: the return value, the path data and its size, and the next hop. -/
structure PathResult (ws : WordSize) where
  ret : ℤ
  path_data : List Byte
  size : ℕ
  nextHop : ip_v4_addr ws

/-- Lay out the header and the path in `path_data`, and find the address of the first hop. -/
def pth_copy_path (node : Node ws) (path : OlsrPath) (path_data : List Byte) (nextHop : ip_v4_addr ws)
    (src_local : Bool) (header : SerHeader ws) : Option (PathResult ws) := do
  let header := { header with version := MPOLSR_VERSION, hops := path.path_hops, cur := 1 }
  let path_data ← write path_data 0 header.bytes
  let path_data ← memcpy path_data (sizeof_ser_header ws) path.path 0 (path.path_hops * ip_v4_size : ℕ)
  let size := path.path_hops * ip_v4_size + sizeof_ser_header ws
  -- `memcpy` of four bytes into an address that was set to 0
  let addr ← (read path_data (sizeof_ser_header ws) ip_v4_size).map fun bs => BitVec.ofNat ws.bits (ofLe bs)
  if src_local then
    let real_addr := ((node.findLink addr).map LocalLink.dst_alias_ip).getD 0
    if real_addr = 0 then return { ret := -1, path_data := path_data, size := size, nextHop := nextHop }
    else return { ret := 0, path_data := path_data, size := size, nextHop := real_addr }
  else return { ret := 0, path_data := path_data, size := size, nextHop := addr }

def pth_find_datagram_path (node : Node ws) (path_data : List Byte) (size : ℕ) (srcAddr dstAddr : ip_v4_addr ws)
    (nextHop : ip_v4_addr ws) (header : SerHeader ws) : Option (PathResult ws) :=
  match node.find_path srcAddr dstAddr with
  | none => some { ret := -1, path_data := path_data, size := size, nextHop := nextHop }
  | some (path, src_local) => pth_copy_path node path path_data nextHop src_local header

/-- 0 if the address is that of the local node. -/
def pth_checkCurrentAddr (node : Node ws) (curr_addr : ip_v4_addr ws) : ℤ :=
  if curr_addr ≠ node.local_addr then -1 else 0

/-- The address of the next hop is replaced by its address on the link: 1 without a link, -1 without an address. -/
def pth_checkNextHop (node : Node ws) (next_addr : ip_v4_addr ws) : ℤ × ip_v4_addr ws :=
  match node.findLink next_addr with
  | none => (1, next_addr)
  | some link => if link.dst_alias_ip = 0 then (-1, next_addr) else (0, link.dst_alias_ip)

/-- The result of a hook: the return value, the received packet, and the new packet with its length. -/
structure HookResult where
  ret : ℤ
  iph : List Byte
  newpayload : List Byte
  newpayloadlen : ℤ

/-- The packet that the hook passes on. -/
def HookResult.packet (r : HookResult) : List Byte := r.newpayload.take r.newpayloadlen.toNat

section Hooks

variable (node : Node ws) (path : List Byte)

def hk_process_datagram_local_out (iph newpayload : List Byte) (newpayloadlen : ℤ) : Option HookResult := do
  let saddr ← load32 iph 12
  let daddr ← load32 iph 16
  let protocol ← load iph 9
  let header : SerHeader ws :=
    { version := 0, protocol := protocol, empty := 0, hops := 0, cur := 0, first_node := saddr.setWidth ws.bits }
  let res ← pth_find_datagram_path node path MAX_MPOLSR_PATH (saddr.setWidth ws.bits) (daddr.setWidth ws.bits) 0
    header
  if res.ret < 0 then return ⟨-1, iph, newpayload, newpayloadlen⟩
  else if res.size = sizeof_ser_header ws ∨ res.size = 0 then return ⟨0, iph, newpayload, newpayloadlen⟩
  else
    let (added, newpayload) ← addMpOlsrHeader iph res.path_data res.size newpayload newpayloadlen
    if added = false then return ⟨-1, iph, newpayload, newpayloadlen⟩
    else
      let newpayloadlen ← getIpTotalSize newpayload
      let newpayload ← store newpayload 9 IPPROTO_MPOLSR
      let newpayload ← store32 newpayload 16 (res.nextHop.setWidth 32)
      let newpayload ← updateIpChecksum newpayload
      return ⟨1, iph, newpayload, newpayloadlen⟩

/-- The next hop is not a neighbour: look for a path from here to the last node. -/
def hk_route_recovery_pre_routing (iph newpayload : List Byte) (newpayloadlen : ℤ) : Option HookResult := do
  let some ser_header_ ← MpOlsrPacket.new ws iph | return ⟨-1, iph, newpayload, newpayloadlen⟩
  let srcAddr ← load32 iph 16
  let dstAddr ← getLastAddr ws iph ser_header_
  if dstAddr = 0 then return ⟨-1, iph, newpayload, newpayloadlen⟩
  else
    let header ← loadSerHeader ws iph ser_header_
    let header := { header with first_node := srcAddr.setWidth ws.bits }
    let res ← pth_find_datagram_path node path MAX_MPOLSR_PATH (srcAddr.setWidth ws.bits) dstAddr 0 header
    if res.ret < 0 then return ⟨-1, iph, newpayload, newpayloadlen⟩
    else if res.size = 0 then return ⟨-1, iph, newpayload, newpayloadlen⟩
    else
      let (added, newpayload) ← addMpOlsrHeader iph res.path_data res.size newpayload newpayloadlen
      if added = false then return ⟨-1, iph, newpayload, newpayloadlen⟩
      else
        let newpayloadlen ← getIpTotalSize newpayload
        -- the fields are written to the packet received
        let iph ← store iph 9 IPPROTO_MPOLSR
        let iph ← store32 iph 16 (res.nextHop.setWidth 32)
        let iph ← store32 iph 12 srcAddr
        let newpayload ← updateIpChecksum newpayload
        return ⟨1, iph, newpayload, newpayloadlen⟩

def hk_process_datagram_pre_routing (iph newpayload : List Byte) (newpayloadlen : ℤ) : Option HookResult := do
  let some ser_header_ ← MpOlsrPacket.new ws iph | return ⟨-1, iph, newpayload, newpayloadlen⟩
  let curAddr ← getCurrentAddr ws iph ser_header_
  if curAddr = 0 then return ⟨-1, iph, newpayload, newpayloadlen⟩
  else if pth_checkCurrentAddr node curAddr ≠ 0 then return ⟨-1, iph, newpayload, newpayloadlen⟩
  else if ← isEndOfPath iph ser_header_ then
    -- the local node is the destination
    let (removed, newpayload) ← removeMpOlsrHeader ws iph ser_header_ newpayload newpayloadlen
    if removed = false then return ⟨-1, iph, newpayload, newpayloadlen⟩
    else
      let total ← getIpTotalSize iph
      let headerSize ← getMpOlsrHeaderSize ws iph ser_header_
      return ⟨0, iph, newpayload, total - headerSize⟩
  else
    let srcAddr ← load32 iph 16
    let nextAddr ← getNextAddr ws iph ser_header_
    if nextAddr = 0 then return ⟨-1, iph, newpayload, newpayloadlen⟩
    else
      let (ret, nextAddr) := pth_checkNextHop node nextAddr
      if ret < 0 then return ⟨-1, iph, newpayload, newpayloadlen⟩
      else if ret > 0 then hk_route_recovery_pre_routing node path iph newpayload newpayloadlen
      else
        let iph ← store32 iph 16 (nextAddr.setWidth 32)
        let iph ← store32 iph 12 srcAddr
        let (moved, iph) ← moveToNextHop iph ser_header_
        if moved = false then return ⟨-1, iph, newpayload, newpayloadlen⟩
        else
          let iph ← updateIpChecksum iph
          let newpayloadlen ← getIpTotalSize iph
          let newpayload ← memcpy newpayload 0 iph 0 newpayloadlen
          return ⟨0, iph, newpayload, newpayloadlen⟩

end Hooks

end MpOlsr
