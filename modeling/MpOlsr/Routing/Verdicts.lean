import MpOlsr.Routing.Hooks

/-!
# The second hook, and the verdicts

`hk_process_datagram_local_in` processes an MP-OLSR datagram that arrived in fragments.  It is too late then to forward
the datagram, so it sends a copy through a raw socket.  The functions `hk_pre_routing_hook` and `hk_local_in_hook` issue
the verdicts on the packets of the queue.
-/

namespace MpOlsr

open Buffer Bytes IpPacket MpOlsrPacket

variable {ws : WordSize} (node : Node ws) (path : List Byte)

/-- A datagram sent through `g_rawSocket`, and the address that it is sent to. -/
structure RawSend where
  daddr : BitVec 32
  datagram : List Byte
  deriving DecidableEq

/-- The code of the other hook, with its own texts and its own buffer for the path. -/
def hk_route_recovery_local_in (iph newpayload : List Byte) (newpayloadlen : ℤ) : Option HookResult :=
  hk_route_recovery_pre_routing node path iph newpayload newpayloadlen

def hk_process_datagram_local_in (iph newpayload : List Byte) (newpayloadlen : ℤ) :
    Option (HookResult × Option RawSend) := do
  let some ser_header_ ← MpOlsrPacket.new ws iph | return (⟨-1, iph, newpayload, newpayloadlen⟩, none)
  let curAddr ← getCurrentAddr ws iph ser_header_
  if curAddr = 0 then return (⟨-1, iph, newpayload, newpayloadlen⟩, none)
  else if pth_checkCurrentAddr node curAddr ≠ 0 then return (⟨-1, iph, newpayload, newpayloadlen⟩, none)
  else if ← isEndOfPath iph ser_header_ then
    let (removed, newpayload) ← removeMpOlsrHeader ws iph ser_header_ newpayload newpayloadlen
    if removed = false then return (⟨-1, iph, newpayload, newpayloadlen⟩, none)
    else
      let total ← getIpTotalSize iph
      let headerSize ← getMpOlsrHeaderSize ws iph ser_header_
      return (⟨0, iph, newpayload, total - headerSize⟩, none)
  else
    let srcAddr ← load32 iph 16
    let nextAddr ← getNextAddr ws iph ser_header_
    if nextAddr = 0 then return (⟨-1, iph, newpayload, newpayloadlen⟩, none)
    else
      let (ret, nextAddr) := pth_checkNextHop node nextAddr
      if ret < 0 then return (⟨-1, iph, newpayload, newpayloadlen⟩, none)
      else if ret > 0 then
        let result ← hk_route_recovery_local_in node path iph newpayload newpayloadlen
        return (result, none)
      else
        let (moved, iph) ← moveToNextHop iph ser_header_
        if moved = false then return (⟨-1, iph, newpayload, newpayloadlen⟩, none)
        else
          let iph ← store32 iph 16 (nextAddr.setWidth 32)
          let iph ← store32 iph 12 srcAddr
          let iph ← updateIpChecksum iph
          let total ← getIpTotalSize iph
          let datagram ← read iph 0 total
          return (⟨1, iph, newpayload, newpayloadlen⟩, some ⟨nextAddr.setWidth 32, datagram⟩)

/-- A verdict on a packet of the queue; an accepted packet goes on with the given bytes. -/
inductive Verdict where
  | NF_DROP
  | NF_ACCEPT (payload : List Byte)
  deriving DecidableEq

end MpOlsr
