import MpOlsr.Kernel.Skb
import MpOlsr.Routing.Hooks

/-!
# The hooks of the kernel module

`hk_process_datagram_pre_routing` and `hk_process_datagram_local_in` of the kernel module.  The functions of the kernel
that can fail, and the memory that is not initialised, are parameters (`Env`).  The lookup of a path is that of the
daemon.
-/

namespace MpOlsr.Kernel

open Buffer Bytes IpPacket

variable {ws : WordSize}

/-- The kernel, during one call of a hook. -/
structure Env (ws : WordSize) where
  sums : Checksums
  /-- the results of `skb_make_writable`, `skb_linearize` and `skb_copy` -/
  writable : Bool
  linear : Bool
  copied : Bool
  /-- the memory after the datagram in the result of `skb_copy_expand`, or NULL -/
  expand : ℕ → Option (List Byte)
  ip_route_me_harder : SkBuff → ℤ
  /-- the buffers for a path on the stack -/
  path : List Byte
  newPath : List Byte
  length_path : path.length = 65536
  length_newPath : newPath.length = 65536
  /-- an address on the stack -/
  addr : ip_v4_addr ws

/-- `memcpy` of `ip_v4_size` bytes into an address that is not initialised. -/
def Env.readAddr (env : Env ws) (xs : List Byte) (i : ℤ) : Option (ip_v4_addr ws) :=
  (read xs i ip_v4_size).map fun bs =>
    BitVec.ofNat ws.bits (env.addr.toNat / 4294967296 * 4294967296 + ofLe bs)

section Paths

variable (env : Env ws) (node : Node ws) (path : List Byte)

/-- 1 at the end of the path, 0 before it, -1 for an invalid path. -/
def pth_isEndOfPath : Option ℤ := do
  let header ← loadSerHeader ws path 0
  if header.cur > header.hops then return -1
  else if header.hops ≠ header.cur then return 0
  else if header.cur < 1 then return -1
  else
    let addr ← env.readAddr path (((header.cur : ℤ) - 1) * ip_v4_size + sizeof_ser_header ws)
    return if addr = node.local_addr then 1 else -1

/-- Advance `cur`; the result is the return value, the path and the next hop. -/
def pth_checkNextHop (nextHop : ip_v4_addr ws) : Option (ℤ × List Byte × ip_v4_addr ws) := do
  let header ← loadSerHeader ws path 0
  if header.cur ≥ header.hops then return (-1, path, nextHop)
  else
    let offset : ℤ := ((header.cur : ℤ) - 1) * ip_v4_size + sizeof_ser_header ws
    let curr_addr ← env.readAddr path offset
    if curr_addr ≠ node.local_addr then return (-1, path, nextHop)
    else
      let path ← write path 0 { header with cur := header.cur + 1 }.bytes
      let next_addr ← env.readAddr path (offset + ip_v4_size)
      match node.findLink next_addr with
      | none => return (1, path, nextHop)
      | some link =>
        if link.dst_alias_ip = 0 then return (-1, path, nextHop) else return (0, path, link.dst_alias_ip)

def pth_getLastNode : Option (ip_v4_addr ws) := do
  let header ← loadSerHeader ws path 0
  env.readAddr path (sizeof_ser_header ws + ((header.hops : ℤ) - 1) * ip_v4_size)

end Paths

/-- The return value of a hook, the datagram received, and a datagram sent in its place. -/
structure HookResult where
  ret : ℤ
  skb : SkBuff
  sent : Option SkBuff

inductive Verdict where
  | NF_DROP
  | NF_ACCEPT
  | NF_STOLEN
  deriving DecidableEq

/-- The verdict of both hooks for a return value. -/
def HookResult.verdict (r : HookResult) : Verdict :=
  if r.ret < 0 then .NF_DROP else if r.ret > 0 then .NF_STOLEN else .NF_ACCEPT

section Hooks

variable (env : Env ws) (node : Node ws)

/-- The copy of a datagram with the memory that follows it, and `delta` more bytes put to its end. -/
def expanded (skb : SkBuff) (tailroom : List Byte) (delta : ℕ) : Option SkBuff :=
  let mem := skb.datagram ++ tailroom
  let skb_new : SkBuff := ⟨mem, skb.len, by simp [mem, SkBuff.datagram, skb.len_le]⟩
  if delta > 0 then skb_put skb_new delta else some skb_new

/-- Look for a path from here to the last node, and send the datagram with this path.  The datagram that is cut at the
end is the one received. -/
def hk_route_recovery_pre_routing (skb : SkBuff) (pheader : SerHeader ws) (initPath : List Byte) (initSize : ℕ) :
    Option HookResult := do
  let dstAddr ← pth_getLastNode env initPath
  let srcAddr ← load32 skb.mem 16
  let res ← pth_find_datagram_path node env.newPath 0 (srcAddr.setWidth ws.bits) dstAddr 0 pheader
  if res.ret < 0 then return ⟨-1, skb, none⟩
  else if res.size = 0 then return ⟨-1, skb, none⟩
  else
    let delta := res.size - initSize
    let some tailroom := env.expand delta | return ⟨-1, skb, none⟩
    let skb_new ← expanded skb tailroom delta
    let (ret, skb_new) ← skb_replacePath ws skb_new res.path_data res.size initSize
    if ret < 0 then return ⟨-1, skb, none⟩
    else
      let skb := if initSize > res.size then skb_trim skb (initSize - res.size) else skb
      let mem ← store skb_new.mem 9 IPPROTO_MPOLSR
      let mem ← store32 mem 16 (res.nextHop.setWidth 32)
      let mem ← store32 mem 12 srcAddr
      let skb_new ← skb_new.withMem mem
      let skb_new ← skb_updateChecksumIP env.sums skb_new
      if env.ip_route_me_harder skb_new ≠ 0 then return ⟨-1, skb, none⟩
      else return ⟨1, skb, some skb_new⟩

/-- Remove the path, and restore the protocol and the source. -/
def restore (skb : SkBuff) (header : SerHeader ws) (size : ℕ) : Option HookResult := do
  let (ret, skb) ← skb_removePath skb size
  if ret < 0 then return ⟨-1, skb, none⟩
  else
    let mem ← store skb.mem 9 header.protocol
    let mem ← store32 mem 12 (header.first_node.setWidth 32)
    let skb ← skb.withMem mem
    let skb ← skb_updateChecksumIP_UDP env.sums skb
    return ⟨0, skb, none⟩

def SerHeader.zero : SerHeader ws := { version := 0, protocol := 0, empty := 0, hops := 0, cur := 0, first_node := 0 }

def hk_process_datagram_pre_routing (skb : SkBuff) : Option HookResult := do
  if env.writable = false then return ⟨-1, skb, none⟩
  else
    let data ← skb_getPath ws skb env.path 0 SerHeader.zero
    if data.ret < 0 then return ⟨-1, skb, none⟩
    -- every value but 0 is taken for the end of the path
    else if (← pth_isEndOfPath env node data.sData) ≠ 0 then restore env skb data.pheader data.size
    else
      let (ret, path, nextHop) ← pth_checkNextHop env node data.sData 0
      if ret < 0 then return ⟨-1, skb, none⟩
      else if ret > 0 then hk_route_recovery_pre_routing env node skb data.pheader path data.size
      else
        let mem ← store32 skb.mem 16 (nextHop.setWidth 32)
        let skb ← skb.withMem mem
        let (ret, skb) ← skb_updatePath skb path data.size
        if ret < 0 then return ⟨-1, skb, none⟩
        else
          let skb ← skb_updateChecksumIP env.sums skb
          return ⟨0, skb, none⟩

def hk_process_datagram_local_in (skb : SkBuff) : Option HookResult := do
  if env.linear = false then return ⟨-1, skb, none⟩
  else
    let data ← skb_getPath ws skb env.path 0 SerHeader.zero
    if data.ret < 0 then return ⟨-1, skb, none⟩
    else if (← pth_isEndOfPath env node data.sData) ≠ 0 then
      if env.writable = false then return ⟨-1, skb, none⟩
      else restore env skb data.pheader data.size
    else
      let srcAddr ← load32 skb.mem 16
      if env.copied = false then return ⟨-1, skb, none⟩
      else
        let skb_new := skb
        let (ret, path, nextHop) ← pth_checkNextHop env node data.sData 0
        if ret < 0 then return ⟨-1, skb, none⟩
        else if ret > 0 then return ⟨-1, skb, none⟩
        else
          let mem ← store32 skb_new.mem 16 (nextHop.setWidth 32)
          let mem ← store32 mem 12 srcAddr
          let skb_new ← skb_new.withMem mem
          let (ret, skb_new) ← skb_updatePath skb_new path data.size
          if ret < 0 then return ⟨-1, skb, none⟩
          else
            let skb_new ← skb_updateChecksumIP env.sums skb_new
            if env.ip_route_me_harder skb_new ≠ 0 then return ⟨-1, skb, none⟩
            else return ⟨1, skb, some skb_new⟩

end Hooks

end MpOlsr.Kernel
