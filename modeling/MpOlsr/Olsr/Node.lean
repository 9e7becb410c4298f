import MpOlsr.Olsr.DuplicateSet
import MpOlsr.Olsr.Packet

/-!
# A node of olsrd

What olsrd does with a message that it receives: the body of the loop in `parse_packet` (`parser.c`) and
`olsr_forward_message` (`olsr.c`), with the functions that `olsr_init_package_process` registers.  What these functions
do to the tables of the node, and what the tables say about a neighbour, are parameters.
-/

namespace MpOlsr

open Buffer Bytes

def HELLO_MESSAGE : Byte := 1
def TC_MESSAGE : Byte := 2
def MID_MESSAGE : Byte := 3
def HNA_MESSAGE : Byte := 4
def LQ_HELLO_MESSAGE : Byte := 201
def LQ_TC_MESSAGE : Byte := 202

/-- The tables of a node: what is read from them, and what the input functions do to them with the message and the
address of its sender.  The second result is whether the function forwards the message. -/
structure OlsrTables (σ : Type) where
  mid_lookup_main_addr : σ → OlsrIpAddr → Option OlsrIpAddr
  olsr_lookup_neighbor_table : σ → OlsrIpAddr → Option NeighborStatus
  olsr_lookup_mprs_set : σ → OlsrIpAddr → Bool
  olsr_input_hello : σ → List Byte → OlsrIpAddr → σ
  olsr_input_tc : σ → List Byte → OlsrIpAddr → σ × Bool
  olsr_process_received_mid : σ → List Byte → OlsrIpAddr → σ × Bool
  olsr_process_received_hna : σ → List Byte → OlsrIpAddr → σ × Bool

/-- `struct parse_function_entry`; all functions are registered with `caller_forwarding` set. -/
structure ParseFunction (σ : Type) where
  type : Byte
  function : σ → List Byte → OlsrIpAddr → σ × Bool

/-- The registered functions, the last one first. -/
def olsr_init_package_process {σ : Type} (T : OlsrTables σ) (lq_level : ℕ) : List (ParseFunction σ) :=
  [⟨HNA_MESSAGE, T.olsr_process_received_hna⟩, ⟨MID_MESSAGE, T.olsr_process_received_mid⟩,
    ⟨if lq_level = 0 then TC_MESSAGE else LQ_TC_MESSAGE, T.olsr_input_tc⟩,
    ⟨if lq_level = 0 then HELLO_MESSAGE else LQ_HELLO_MESSAGE, fun s m from_addr =>
      (T.olsr_input_hello s m from_addr, false)⟩]

/-- What does not change at a node. -/
structure OlsrCnf where
  main_addr : OlsrIpAddr
  lq_level : ℕ
  deny_entries : List OlsrIpAddr
  /-- `DUPLICATE_VTIME` in ticks -/
  vtime : ℤ
  lq_dlimit : Byte

def OlsrCnf.olsr_validate_address (cnf : OlsrCnf) (adr : OlsrIpAddr) : Bool := !cnf.deny_entries.contains adr

structure OlsrRouter (σ : Type) where
  interfaces : List OlsrInterface
  dup : Duplicates
  tables : σ
  /-- the events of the duplicate set -/
  heard : List DupEvent
  /-- the originators and the numbers of the messages that were forwarded -/
  forwarded : List (OlsrIpAddr × BitVec 16)
  /-- the packets sent, with the address of the interface -/
  sent : List (OlsrIpAddr × List Byte)

namespace OlsrRouter

section Input

variable {σ : Type} (T : OlsrTables σ) (cnf : OlsrCnf) (node : OlsrRouter σ)

/-- Put data in the buffers of all interfaces. -/
def bufferAll (data : List Byte) : OlsrRouter σ :=
  { node with
    interfaces := node.interfaces.map fun ifp => (ifp.buffer data).1
    sent := node.sent ++ node.interfaces.flatMap fun ifp => (ifp.buffer data).2.map fun p => (ifp.ip_addr, p) }

/-- Forward a message, unless it is overdue or its sender is not a symmetric neighbour that has chosen this node as a
relay.  The last result is the return value. -/
def olsr_forward_message (m : List Byte) (from_addr : OlsrIpAddr) : Option (OlsrRouter σ × List Byte × Bool) := do
  let ttl ← load m 8
  let hopcnt ← load m 9
  if ttl.toNat < 2 ∨ 255 < hopcnt.toNat + ttl.toNat then return (node, m, false)
  let src := (T.mid_lookup_main_addr node.tables from_addr).getD from_addr
  if T.olsr_lookup_neighbor_table node.tables src ≠ some .SYM then return (node, m, false)
  if !T.olsr_lookup_mprs_set node.tables src then return (node, m, false)
  let m ← store m 9 (hopcnt + 1)
  let m ← store m 8 (ttl - 1)
  let msgsize ← loadBe16 m 2
  let data ← read m 0 msgsize
  return (node.bufferAll data, m, true)

/-- `olsr_forward_message` for the message of an originator. -/
def forward (originator : OlsrIpAddr) (seqno : BitVec 16) (m : List Byte) (from_addr : OlsrIpAddr) :
    Option (OlsrRouter σ × List Byte) := do
  let (node, m, forwarded) ← node.olsr_forward_message T m from_addr
  return (if forwarded then { node with forwarded := node.forwarded ++ [(originator, seqno)] } else node, m)

/-- One registered function; the last component of the state is `processed`. -/
def callFunction (type : Byte) (originator : OlsrIpAddr) (seqno : BitVec 16) (from_addr : OlsrIpAddr)
    (s : OlsrRouter σ × List Byte × Bool) (entry : ParseFunction σ) : Option (OlsrRouter σ × List Byte × Bool) := do
  let (node, m, processed) := s
  if entry.type == type then
    let (tables, forwards) := entry.function node.tables m from_addr
    let node := { node with tables := tables }
    if forwards then
      let (node, m) ← node.forward T originator seqno m from_addr
      return (node, m, true)
    return (node, m, true)
  return (node, m, processed)

/-- The body of the loop over the messages of a packet.  A message of an unknown type is forwarded, and ends the
loop. -/
def parseMessage (now : ℤ) (from_addr : OlsrIpAddr) (m : List Byte) : Option (OlsrRouter σ × List Byte × Bool) := do
  let originator ← load32 m 4
  if originator = cnf.main_addr ∨ !cnf.olsr_validate_address originator then return (node, m, false)
  let seqno ← loadBe16 m 10
  let event : DupEvent := .message now originator (BitVec.ofNat 16 seqno)
  let shall := (olsr_shall_process_message cnf.vtime now originator (BitVec.ofNat 16 seqno) node.dup.set).2
  let node := { node with dup := node.dup.step cnf.vtime event, heard := node.heard ++ [event] }
  if !shall then return (node, m, false)
  let type ← load m 0
  let (node, m, processed) ← (olsr_init_package_process T cnf.lq_level).foldlM
    (callFunction T type originator (BitVec.ofNat 16 seqno) from_addr) (node, m, false)
  if processed then return (node, m, false)
  let (node, m) ← node.forward T originator (BitVec.ofNat 16 seqno) m from_addr
  return (node, m, true)

/-- A packet is read from the socket into the input buffer, and parsed; its own packets are ignored. -/
def olsr_input (now : ℤ) (from_addr : OlsrIpAddr) (packet stale : List Byte) : Option (OlsrRouter σ) :=
  if node.interfaces.any fun ifp => ifp.ip_addr == from_addr then some node
  else
    let received := packet.take 1501
    parse_packet (fun node m => OlsrRouter.parseMessage T cnf node now from_addr m) (received.length + 1) node
      (received ++ stale) received.length

end Input

end OlsrRouter

/-- The message one hop further. -/
def OlsrMsg.hop (m : OlsrMsg) : OlsrMsg := { m with ttl := m.ttl - 1, hopcnt := m.hopcnt + 1 }

/-- The message may go further. -/
def OlsrMsg.Alive (m : OlsrMsg) : Prop := 2 ≤ m.ttl.toNat ∧ m.hopcnt.toNat + m.ttl.toNat ≤ 255

namespace OlsrRouter

variable {σ : Type} (T : OlsrTables σ) (cnf : OlsrCnf) (node : OlsrRouter σ) {m : OlsrMsg} (from_addr : OlsrIpAddr)

/-! ### One message -/

theorem olsr_forward_message_spec (hm : m.Fits) (rest : List Byte) :
    node.olsr_forward_message T (m.bytes ++ rest) from_addr = some (node, m.bytes ++ rest, false) ∨
      m.Alive ∧ node.olsr_forward_message T (m.bytes ++ rest) from_addr =
        some (node.bufferAll m.hop.bytes, m.hop.bytes ++ rest, true) := by
  rw [olsr_forward_message, Fault.bind_of_some (OlsrMsg.load_ttl rest m), Fault.bind_of_some (OlsrMsg.load_hopcnt rest m)]
  split
  · exact Or.inl rfl
  · rename_i halive
    dsimp only
    split
    · exact Or.inl rfl
    · split
      · exact Or.inl rfl
      · refine Or.inr ⟨⟨by omega, by omega⟩, ?_⟩
        have hhop : ({ m with hopcnt := m.hopcnt + 1, ttl := m.ttl - 1 } : OlsrMsg) = m.hop := rfl
        rw [Fault.bind_of_some (OlsrMsg.store_hopcnt rest m _), Fault.bind_of_some (OlsrMsg.store_ttl rest _ _), hhop,
          Fault.bind_of_some (OlsrMsg.load_msgsize rest (show m.hop.Fits from hm)),
          Fault.bind_of_some (OlsrMsg.read_bytes rest m.hop)]
        rfl

/-- The node has left a message alone, or has forwarded it. -/
structure Relays (m : OlsrMsg) (node node' : OlsrRouter σ) (m' : OlsrMsg) : Prop where
  dup : node'.dup = node.dup
  heard : node'.heard = node.heard
  cases : m' = m ∧ node'.interfaces = node.interfaces ∧ node'.sent = node.sent ∧ node'.forwarded = node.forwarded ∨
    m' = m.hop ∧ m.Alive ∧ node'.interfaces = (node.bufferAll m.hop.bytes).interfaces ∧
      node'.sent = (node.bufferAll m.hop.bytes).sent ∧ node'.forwarded = node.forwarded ++ [(m.originator, m.seqno)]

theorem relays_refl (m : OlsrMsg) (node : OlsrRouter σ) : Relays m node node m :=
  ⟨rfl, rfl, Or.inl ⟨rfl, rfl, rfl, rfl⟩⟩

theorem Relays.msgsize {node' : OlsrRouter σ} {m' : OlsrMsg} (h : Relays m node node' m') :
    m'.olsr_msgsize = m.olsr_msgsize := by
  rcases h.cases with ⟨rfl, -⟩ | ⟨rfl, -⟩ <;> rfl

theorem forward_spec (hm : m.Fits) (rest : List Byte) : ∃ node' m',
    node.forward T m.originator m.seqno (m.bytes ++ rest) from_addr = some (node', m'.bytes ++ rest) ∧
      Relays m node node' m' := by
  rcases olsr_forward_message_spec T node from_addr hm rest with h | ⟨halive, h⟩
  · exact ⟨node, m, by rw [forward, Fault.bind_of_some h]; rfl, relays_refl m node⟩
  · refine ⟨{ node.bufferAll m.hop.bytes with forwarded := node.forwarded ++ [(m.originator, m.seqno)] }, m.hop, ?_,
      rfl, rfl, Or.inr ⟨rfl, halive, rfl, rfl, rfl⟩⟩
    rw [forward, Fault.bind_of_some h]
    rfl

/-- The registered functions have different types, so that only one of them gets the message. -/
theorem callFunctions_spec (hm : m.Fits) (rest : List Byte) {entries : List (ParseFunction σ)}
    (htypes : (entries.map ParseFunction.type).Nodup) : ∃ node' m' processed,
    entries.foldlM (callFunction T m.olsr_msgtype m.originator m.seqno from_addr) (node, m.bytes ++ rest, false) =
      some (node', m'.bytes ++ rest, processed) ∧ Relays m node node' m' ∧
        (processed = false → node' = node ∧ m' = m) := by
  have hskip : ∀ (entries : List (ParseFunction σ)) (s : OlsrRouter σ × List Byte × Bool),
      m.olsr_msgtype ∉ entries.map ParseFunction.type →
        entries.foldlM (callFunction T m.olsr_msgtype m.originator m.seqno from_addr) s = some s := by
    intro entries s
    induction entries with
    | nil => exact fun _ => rfl
    | cons entry entries ih =>
      intro hmem
      rw [List.map_cons, List.mem_cons, not_or] at hmem
      have hstep : callFunction T m.olsr_msgtype m.originator m.seqno from_addr s entry = some s := by
        rw [callFunction, if_neg (by rw [beq_iff_eq]; exact Ne.symm hmem.1)]
        rfl
      rw [List.foldlM_cons, Fault.bind_of_some hstep]
      exact ih hmem.2
  induction entries with
  | nil => exact ⟨node, m, false, rfl, relays_refl m node, fun _ => ⟨rfl, rfl⟩⟩
  | cons entry entries ih =>
    rw [List.map_cons, List.nodup_cons] at htypes
    by_cases htype : entry.type = m.olsr_msgtype
    · rw [htype] at htypes
      -- the function of this type; the later ones are skipped
      have hcall : ∃ node' m', callFunction T m.olsr_msgtype m.originator m.seqno from_addr
          (node, m.bytes ++ rest, false) entry = some (node', m'.bytes ++ rest, true) ∧ Relays m node node' m' := by
        rw [callFunction, if_pos (by rw [htype, beq_self_eq_true])]
        dsimp only
        split
        · obtain ⟨node', m', hrun, hrelays⟩ := forward_spec T
            { node with tables := (entry.function node.tables (m.bytes ++ rest) from_addr).1 } from_addr hm rest
          exact ⟨node', m', by rw [Fault.bind_of_some hrun]; rfl, hrelays.dup, hrelays.heard, hrelays.cases⟩
        · exact ⟨_, m, rfl, rfl, rfl, Or.inl ⟨rfl, rfl, rfl, rfl⟩⟩
      obtain ⟨node', m', hrun, hrelays⟩ := hcall
      refine ⟨node', m', true, ?_, hrelays, fun h => absurd h.symm Bool.false_ne_true⟩
      rw [List.foldlM_cons, Fault.bind_of_some hrun]
      exact hskip entries _ htypes.1
    · have hstep : callFunction T m.olsr_msgtype m.originator m.seqno from_addr (node, m.bytes ++ rest, false) entry =
          some (node, m.bytes ++ rest, false) := by
        rw [callFunction, if_neg (by rw [beq_iff_eq]; exact htype)]
        rfl
      rw [List.foldlM_cons, Fault.bind_of_some hstep]
      exact ih htypes.2

theorem nodup_types (T : OlsrTables σ) (lq_level : ℕ) :
    ((olsr_init_package_process T lq_level).map ParseFunction.type).Nodup := by
  rw [olsr_init_package_process]
  by_cases h : lq_level = 0
  · simp only [h, if_true, List.map_cons, List.map_nil]
    decide
  · simp only [h, if_false, List.map_cons, List.map_nil]
    decide

/-- What a node does with a message. -/
inductive Handles (vtime now : ℤ) (m : OlsrMsg) (node node' : OlsrRouter σ) (m' : OlsrMsg) : Prop where
  | ignored (hnode : node' = node) (hm : m' = m)
  | heard (hdup : node'.dup = node.dup.step vtime (.message now m.originator m.seqno))
      (hheard : node'.heard = node.heard ++ [.message now m.originator m.seqno])
      (hcases : m' = m ∧ node'.interfaces = node.interfaces ∧ node'.sent = node.sent ∧
          node'.forwarded = node.forwarded ∨
        m' = m.hop ∧ m.Alive ∧ node'.interfaces = (node.bufferAll m.hop.bytes).interfaces ∧
          node'.sent = (node.bufferAll m.hop.bytes).sent ∧
          node'.forwarded = node.forwarded ++ [(m.originator, m.seqno)] ∧
          node'.dup.processed = node.dup.processed ++ [(m.originator, m.seqno)])

theorem parseMessage_spec (hm : m.Fits) (now : ℤ) (rest : List Byte) : ∃ node' m' stop,
    node.parseMessage T cnf now from_addr (m.bytes ++ rest) = some (node', m'.bytes ++ rest, stop) ∧
      m'.olsr_msgsize = m.olsr_msgsize ∧ Handles cnf.vtime now m node node' m' := by
  rw [parseMessage, Fault.bind_of_some (OlsrMsg.load_originator rest m)]
  split
  · exact ⟨node, m, false, rfl, rfl, .ignored rfl rfl⟩
  · rw [Fault.bind_of_some (OlsrMsg.load_seqno rest m), BitVec.ofNat_toNat, BitVec.setWidth_eq]
    dsimp only
    split
    · exact ⟨_, m, false, rfl, rfl, .heard rfl rfl (Or.inl ⟨rfl, rfl, rfl, rfl⟩)⟩
    · rename_i hshall
      rw [Bool.not_eq_true', Bool.not_eq_false] at hshall
      have hprocessed : (node.dup.step cnf.vtime (.message now m.originator m.seqno)).processed =
          node.dup.processed ++ [(m.originator, m.seqno)] := by
        rw [Duplicates.step]
        dsimp only
        rw [if_pos hshall]
      rw [Fault.bind_of_some (OlsrMsg.load_msgtype rest m)]
      generalize hheard : ({ node with
        dup := node.dup.step cnf.vtime (.message now m.originator m.seqno)
        heard := node.heard ++ [.message now m.originator m.seqno] } : OlsrRouter σ) = heard
      obtain ⟨node', m', processed, hrun, hrelays, hunprocessed⟩ :=
        callFunctions_spec T heard from_addr hm rest (nodup_types T cnf.lq_level)
      rw [Fault.bind_of_some hrun]
      dsimp only
      have hhandles : ∀ {node'' : OlsrRouter σ} {m'' : OlsrMsg}, Relays m heard node'' m'' →
          Handles cnf.vtime now m node node'' m'' := by
        intro node'' m'' h
        subst hheard
        refine .heard h.dup h.heard (h.cases.imp id ?_)
        rintro ⟨hm'', halive, hinterfaces, hsent, hforwarded⟩
        exact ⟨hm'', halive, hinterfaces, hsent, hforwarded, by rw [h.dup]; exact hprocessed⟩
      cases processed with
      | true => exact ⟨node', m', false, rfl, hrelays.msgsize, hhandles hrelays⟩
      | false =>
        obtain ⟨rfl, rfl⟩ := hunprocessed rfl
        obtain ⟨node'', m'', hrun', hrelays'⟩ := forward_spec T node' from_addr hm rest
        refine ⟨node'', m'', true, ?_, hrelays'.msgsize, hhandles hrelays'⟩
        rw [if_neg Bool.false_ne_true, Fault.bind_of_some hrun']
        rfl

end OlsrRouter

end MpOlsr
