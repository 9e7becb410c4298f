import MpOlsr.Olsr.TcLoops

/-!
# TC messages

`olsr_input_tc`: a message of a node lists destinations of its edges, and the numbers in its header tell whether it is
news.  The windows of numbers are exact on the circle of 16-bit numbers (`seqInrangeHigh_behind` and the others).  Bytes
behind the message can be read, so that the buffer has to go on for a few bytes; a border of more than 32 bits is a
write outside the address, hence a fault.
-/

namespace MpOlsr

open Buffer Bytes

/-- `olsr_seq_inrange_low` -/
def seqInrangeLow (beg lim : ℤ) (seq : BitVec 16) : Bool :=
  if beg < 0 then (BitVec.ofInt 16 beg).toNat ≤ seq.toNat || (seq.toNat : ℤ) < lim
  else if 0x10000 ≤ lim then beg ≤ seq.toNat || seq.toNat < (BitVec.ofInt 16 lim).toNat
  else beg ≤ seq.toNat && (seq.toNat : ℤ) < lim

/-- `olsr_seq_inrange_high` -/
def seqInrangeHigh (beg lim : ℤ) (seq : BitVec 16) : Bool :=
  if beg < 0 then (BitVec.ofInt 16 beg).toNat < seq.toNat || (seq.toNat : ℤ) ≤ lim
  else if 0x10000 ≤ lim then beg < seq.toNat || seq.toNat ≤ (BitVec.ofInt 16 lim).toNat
  else beg < seq.toNat && (seq.toNat : ℤ) ≤ lim

/-- The numbers of a message are compared with those of the entry; the second result is whether the message is
processed. -/
def TcEntry.screen {Q : Type} (tc : TcEntry Q) (msg_seq ansn : BitVec 16) : TcEntry Q × Bool :=
  if tc.edge_tree.isEmpty then (tc, true)
  else if seqInrangeHigh (tc.msg_seq.toNat - TC_SEQNO_WINDOW) tc.msg_seq.toNat msg_seq &&
      seqInrangeHigh (tc.ansn.toNat - TC_ANSN_WINDOW) tc.ansn.toNat ansn then
    if tc.msg_seq == msg_seq then (tc, false)
    else ({ tc with ignored := tc.ignored + 1 }, !decide (tc.ignored.toNat < 32))
  else if !seqInrangeHigh tc.msg_seq.toNat (tc.msg_seq.toNat + TC_SEQNO_WINDOW * TC_SEQNO_WINDOW_MULT) msg_seq ||
      !seqInrangeLow tc.ansn.toNat (tc.ansn.toNat + TC_ANSN_WINDOW * TC_ANSN_WINDOW_MULT) ansn then
    let tc := if tc.err_seq_valid then tc else { tc with err_seq := msg_seq, err_seq_valid := true }
    (tc, tc.err_seq != msg_seq)
  else (tc, true)

/-- One border of `olsr_calculate_tc_border`.  `0xff` leaves the address as it is: the `memset` for it writes to the
pointer. -/
def calculateBorder (border : Byte) (ip : OlsrIpAddr) : Option OlsrIpAddr :=
  if border = 0xff then some ip
  else do
    let border := border - 1
    let n := border.toNat / 8
    let bytes ← (List.range n).foldlM (fun bytes (i : ℕ) => store bytes (4 - i - 1) 0) (leBytes 4 ip.toNat)
    let b ← load bytes (4 - n - 1)
    let b := b &&& (0xff#8 <<< (border.toNat % 8)) ||| 1#8 <<< (border.toNat % 8)
    let bytes ← store bytes (4 - n - 1) b
    return BitVec.ofNat 32 (ofLe bytes)

/-- `olsr_calculate_tc_border`; none if there are no borders. -/
def olsr_calculate_tc_border (lower_border : Byte) (lower_border_ip : OlsrIpAddr) (upper_border : Byte)
    (upper_border_ip : OlsrIpAddr) : Option (Option (OlsrIpAddr × OlsrIpAddr)) :=
  if lower_border = 0 ∧ upper_border = 0 then some none
  else do
    let lower_border_ip ← calculateBorder lower_border lower_border_ip
    let upper_border_ip ← calculateBorder upper_border upper_border_ip
    return some (lower_border_ip, upper_border_ip)

/-- The borders of a message, if it has destinations; `ends` are the first and the last one. -/
def messageBorders (lower_border upper_border : Byte) (ends : Option (OlsrIpAddr × OlsrIpAddr)) :
    Option (Option (OlsrIpAddr × OlsrIpAddr)) :=
  match ends with
  | none => some none
  | some (lower_border_ip, upper_border_ip) =>
    olsr_calculate_tc_border lower_border lower_border_ip upper_border upper_border_ip

namespace TcSet

section Operations

variable {Q : Type} (cnf : OlsrCnf) (H : LqHandler Q) (s : TcSet Q)

/-- Read the link quality of an edge; the second result is what is left of the message. -/
def olsr_deserialize_tc_lq_pair (e : Ptr) (curr : List Byte) : Option (TcSet Q × List Byte) := do
  let bytes ← read curr 0 H.tc_lq_size
  let s ← s.setEdge e fun edge => { edge with linkquality := H.deserialize_tc_lq bytes }
  return (s, curr.drop H.tc_lq_size)

/-- The link quality of an edge that is known is read if it is configured. -/
def updateLq (e : Ptr) (curr : List Byte) : Option (TcSet Q × List Byte) :=
  if 0 < cnf.lq_level then s.olsr_deserialize_tc_lq_pair H e curr else some (s, curr)

/-- One edge of a message: what is left of the message, the destination, and whether there is a change. -/
def olsr_tc_update_edge (tc : Ptr) (ansn : BitVec 16) (curr : List Byte) :
    Option (TcSet Q × List Byte × OlsrIpAddr × Bool) := do
  let neighbor ← load32 curr 0
  let curr := curr.drop 4
  let tc_edge ← s.olsr_lookup_tc_edge tc neighbor
  match tc_edge with
  | none =>
    if !cnf.olsr_validate_address neighbor then return (s, curr, neighbor, false)
    else
      let (s, e) ← s.olsr_add_tc_edge_entry cnf H tc neighbor ansn
      let (s, curr) ← s.olsr_deserialize_tc_lq_pair H e curr
      return (s, curr, neighbor, true)
  | some e =>
    let s ← s.setEdge e fun edge => { edge with ansn := ansn }
    let (s, curr) ← s.updateLq cnf H e curr
    let (s, relevant) ← s.olsr_calc_tc_edge_entry_etx cnf H e
    let entry ← s.entries tc
    return (s, curr, neighbor, relevant && entry.msg_hops ≤ cnf.lq_dlimit)

/-- The loop over the edges of a message, of which `left` bytes are left; `fuel` bounds its rounds.  The second result
are the first and the last destination. -/
def walkEdges (tc : Ptr) (ansn : BitVec 16) : ℕ → TcSet Q → List Byte → ℤ → Option (OlsrIpAddr × OlsrIpAddr) →
    Option (TcSet Q × Option (OlsrIpAddr × OlsrIpAddr))
  | 0, _, _, _, _ => none
  | fuel + 1, s, curr, left, borders =>
    if left ≤ 0 then some (s, borders)
    else do
      let (s, curr', neighbor, change) ← s.olsr_tc_update_edge cnf H tc ansn curr
      let s := { s with changes_topology := s.changes_topology || change }
      let borders := ((borders.map Prod.fst).getD neighbor, neighbor)
      walkEdges tc ansn fuel s curr' (left - (curr.length - curr'.length)) (some borders)

/-- The entry of the originator, a new one if there is none; none if the message is dropped. -/
def originatorEntry (originator : OlsrIpAddr) (msg_seq ansn : BitVec 16) : Option (TcSet Q × Option Ptr) := do
  let tc ← s.olsr_lookup_tc_entry originator
  match tc with
  | none =>
    let (s, tc) ← s.olsr_add_tc_entry cnf originator
    -- a null pointer is a fault
    let tc ← tc
    return (s, some tc)
  | some tc =>
    let entry ← s.entries tc
    let (entry, processed) := entry.screen msg_seq ansn
    let s ← s.setEntry tc fun _ => entry
    return (s, if processed then some tc else none)

/-- The edges of a message of `size` bytes, and the borders. -/
def processEdges (m : List Byte) (size : ℕ) (tc : Ptr) (ansn : BitVec 16) (lower_border upper_border : Byte) :
    Option (TcSet Q) := do
  let (s, borders) ← walkEdges cnf H tc ansn (size + 1) s (m.drop 16) (size - 16) none
  let borders ← messageBorders lower_border upper_border borders
  let s := { s with validity_timer := Function.update s.validity_timer tc true }
  match borders with
  | some (lower_border_ip, upper_border_ip) => s.olsr_delete_revoked_tc_edges tc ansn lower_border_ip upper_border_ip
  | none => return { s with edge_gc_timer := Function.update s.edge_gc_timer tc true }

/-- The sender of the message is a symmetric neighbour if `sym` is true.  The second result is whether the message is
forwarded. -/
def olsr_input_tc (m : List Byte) (sym : Bool) : Option (TcSet Q × Bool) := do
  let type ← load m 0
  if type ≠ LQ_TC_MESSAGE ∧ type ≠ TC_MESSAGE then return (s, false)
  let size ← loadBe16 m 2
  let originator ← load32 m 4
  let msg_hops ← load m 9
  let msg_seq ← loadBe16 m 10
  let ansn ← loadBe16 m 12
  let lower_border ← load m 14
  let upper_border ← load m 15
  let (msg_seq, ansn) := (BitVec.ofNat 16 msg_seq, BitVec.ofNat 16 ansn)
  let (s, tc) ← s.originatorEntry cnf originator msg_seq ansn
  match tc with
  | none => return (s, false)
  | some tc =>
    let s ← s.setEntry tc fun tc =>
      { tc with msg_hops := msg_hops, msg_seq := msg_seq, ansn := ansn, ignored := 0, err_seq_valid := false }
    if !sym then return (s, false)
    let s ← s.processEdges cnf H m size tc ansn lower_border upper_border
    return (s, true)

end Operations

end TcSet

end MpOlsr
