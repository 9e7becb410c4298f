import MpOlsr.Plugin.Tables
import MpOlsr.Routing.Layout

/-!
# Packets of olsrd

The output buffer of an interface (`net_olsr.c`) collects messages and is sent as a packet, which the neighbours take
apart again (`parse_packet` in `parser.c`).  The handler of the messages is a parameter; it gets the bytes from the
message on, and may change them.  A packet that was put together from messages is parsed into these messages
(`parse_packet_spec`), while a message whose size is zero can keep the parser in its loop for ever (`parse_hangs`).
-/

namespace MpOlsr

open Buffer Bytes

def OLSR_HEADERSIZE : ℕ := 4
def OLSR_MSGHDRSZ_IPV4 : ℕ := 12
def MIN_PACKET_SIZE : ℤ := 4

/-- `struct olsrmsg` -/
structure OlsrMsg where
  olsr_msgtype : Byte
  olsr_vtime : Byte
  originator : OlsrIpAddr
  ttl : Byte
  hopcnt : Byte
  seqno : BitVec 16
  message : List Byte

namespace OlsrMsg

def olsr_msgsize (m : OlsrMsg) : ℕ := OLSR_MSGHDRSZ_IPV4 + m.message.length

def bytes (m : OlsrMsg) : List Byte :=
  [m.olsr_msgtype, m.olsr_vtime] ++ be16 m.olsr_msgsize ++ leBytes 4 m.originator.toNat ++ [m.ttl, m.hopcnt] ++
    be16 m.seqno.toNat ++ m.message

/-- The size of the message is a 16-bit number. -/
def Fits (m : OlsrMsg) : Prop := m.olsr_msgsize < 65536

end OlsrMsg

/-! ### Output buffers -/

/-- An interface with its output buffer. -/
structure OlsrInterface where
  ip_addr : OlsrIpAddr
  olsr_seqnum : BitVec 16
  /-- the messages in the buffer, behind the header -/
  pending : List Byte
  maxsize : ℤ

namespace OlsrInterface

/-- Add data to the buffer, if there is room; the second result is the number of bytes added. -/
def net_outbuffer_push (ifp : OlsrInterface) (data : List Byte) : OlsrInterface × ℕ :=
  if ifp.maxsize < ifp.pending.length + data.length then (ifp, 0)
  else ({ ifp with pending := ifp.pending ++ data }, data.length)

/-- Send the buffer. -/
def net_output (ifp : OlsrInterface) : OlsrInterface × List (List Byte) :=
  if ifp.pending.isEmpty then (ifp, [])
  else ({ ifp with olsr_seqnum := ifp.olsr_seqnum + 1, pending := [] },
    [be16 (OLSR_HEADERSIZE + ifp.pending.length) ++ be16 ifp.olsr_seqnum.toNat ++ ifp.pending])

/-- Put a message in the buffer, which is sent before if the message does not fit. -/
def buffer (ifp : OlsrInterface) (data : List Byte) : OlsrInterface × List (List Byte) :=
  if ifp.pending.isEmpty then ((ifp.net_outbuffer_push data).1, [])
  else
    let (pushed, n) := ifp.net_outbuffer_push data
    if n ≠ data.length then
      let (ifp, packets) := pushed.net_output
      ((ifp.net_outbuffer_push data).1, packets)
    else (pushed, [])

end OlsrInterface

/-! ### The parser -/

section Parser

variable {σ : Type} (handle : σ → List Byte → Option (σ × List Byte × Bool))

/-- The loop over the messages of a packet, with the bytes from the message on and the number of those that belong to
the packet.  `fuel` bounds its rounds; the handler can end it. -/
def parseMessages : ℕ → σ → List Byte → ℤ → Option σ
  | 0, _, _, _ => none
  | fuel + 1, s, m, count =>
    if count ≤ 0 ∨ count < MIN_PACKET_SIZE then some s
    else do
      let msgsize ← loadBe16 m 2
      if count - msgsize < 0 then return s
      let (s, m, stop) ← handle s m
      if stop then return s
      parseMessages fuel s (m.drop msgsize) (count - msgsize)

/-- Parse the packet of `size` bytes at the front of the input buffer. -/
def parse_packet (fuel : ℕ) (s : σ) (inbuf : List Byte) (size : ℕ) : Option σ :=
  let count : ℤ := (size : ℤ) - OLSR_HEADERSIZE
  if count < MIN_PACKET_SIZE then some s
  else do
    let packlen ← loadBe16 inbuf 0
    if packlen ≠ size then return s
    parseMessages handle fuel s (inbuf.drop OLSR_HEADERSIZE) count

end Parser

/-! ### The layout of a message -/

namespace OlsrMsg

variable {m : OlsrMsg} (rest : List Byte)

@[simp] theorem length_bytes (m : OlsrMsg) : m.bytes.length = m.olsr_msgsize := by
  simp [bytes, olsr_msgsize, OLSR_MSGHDRSZ_IPV4]
  omega

theorem load_msgtype (m : OlsrMsg) : load (m.bytes ++ rest) 0 = some m.olsr_msgtype := rfl

theorem load_msgsize (hm : m.Fits) : loadBe16 (m.bytes ++ rest) 2 = some m.olsr_msgsize := by
  refine loadBe16_eq (a := [m.olsr_msgtype, m.olsr_vtime])
    (c := leBytes 4 m.originator.toNat ++ [m.ttl, m.hopcnt] ++ be16 m.seqno.toNat ++ m.message ++ rest) ?_ rfl hm
  simp [bytes]

theorem load_originator (m : OlsrMsg) : load32 (m.bytes ++ rest) 4 = some m.originator := by
  have hsplit : m.bytes ++ rest = ([m.olsr_msgtype, m.olsr_vtime] ++ be16 m.olsr_msgsize) ++
      (leBytes 4 m.originator.toNat ++ ([m.ttl, m.hopcnt] ++ be16 m.seqno.toNat ++ m.message ++ rest)) := by
    simp [bytes]
  rw [load32, read_eq hsplit (by simp) (by simp), Option.map_some, IpHdr.ofLe_addr]

theorem split_ttl (m : OlsrMsg) : m.bytes ++ rest = ([m.olsr_msgtype, m.olsr_vtime] ++ be16 m.olsr_msgsize ++
    leBytes 4 m.originator.toNat) ++ m.ttl :: (m.hopcnt :: (be16 m.seqno.toNat ++ m.message ++ rest)) := by
  simp [bytes]

theorem split_hopcnt (m : OlsrMsg) : m.bytes ++ rest = ([m.olsr_msgtype, m.olsr_vtime] ++ be16 m.olsr_msgsize ++
    leBytes 4 m.originator.toNat ++ [m.ttl]) ++ m.hopcnt :: (be16 m.seqno.toNat ++ m.message ++ rest) := by
  simp [bytes]

theorem load_ttl (m : OlsrMsg) : load (m.bytes ++ rest) 8 = some m.ttl :=
  load_eq (split_ttl rest m) (by simp)

theorem load_hopcnt (m : OlsrMsg) : load (m.bytes ++ rest) 9 = some m.hopcnt :=
  load_eq (split_hopcnt rest m) (by simp)

theorem store_ttl (m : OlsrMsg) (ttl : Byte) :
    store (m.bytes ++ rest) 8 ttl = some ({ m with ttl := ttl }.bytes ++ rest) := by
  rw [store_eq (split_ttl rest m) (by simp)]
  simp [bytes, olsr_msgsize]

theorem store_hopcnt (m : OlsrMsg) (hopcnt : Byte) :
    store (m.bytes ++ rest) 9 hopcnt = some ({ m with hopcnt := hopcnt }.bytes ++ rest) := by
  rw [store_eq (split_hopcnt rest m) (by simp)]
  simp [bytes, olsr_msgsize]

theorem load_seqno (m : OlsrMsg) : loadBe16 (m.bytes ++ rest) 10 = some m.seqno.toNat := by
  refine loadBe16_eq (a := [m.olsr_msgtype, m.olsr_vtime] ++ be16 m.olsr_msgsize ++ leBytes 4 m.originator.toNat ++
    [m.ttl, m.hopcnt]) (c := m.message ++ rest) ?_ (by simp) m.seqno.isLt
  simp [bytes]

theorem read_bytes (m : OlsrMsg) : read (m.bytes ++ rest) 0 m.olsr_msgsize = some m.bytes :=
  read_eq (a := []) rfl rfl (by rw [length_bytes])

theorem pos_msgsize (m : OlsrMsg) : OLSR_MSGHDRSZ_IPV4 ≤ m.olsr_msgsize := Nat.le_add_right _ _

end OlsrMsg

/-! ### Parsing -/

section Parser

variable {σ : Type} (handle : σ → List Byte → Option (σ × List Byte × Bool)) {s : σ} {ms : List OlsrMsg}

/-- The rule for the loop over the messages of a packet: `P done` holds before each round, `done` being the messages
already handled.  The loop handles all messages unless the handler stops it. -/
theorem parseMessages_spec (P : List OlsrMsg → σ → Prop) (stops : OlsrMsg → Prop) (hms : ∀ m ∈ ms, m.Fits)
    (hstep : ∀ done m later s rest, ms = done ++ m :: later → P done s → ∃ (s' : σ) (m' : OlsrMsg) (stop : Bool),
      handle s (m.bytes ++ rest) = some (s', m'.bytes ++ rest, stop) ∧ m'.olsr_msgsize = m.olsr_msgsize ∧
        (stop = true → stops m) ∧ P (done ++ [m]) s')
    (hs : P [] s) {fuel : ℕ} (hfuel : ms.length < fuel) (rest : List Byte) : ∃ done s',
    parseMessages handle fuel s (ms.flatMap OlsrMsg.bytes ++ rest) (ms.flatMap OlsrMsg.bytes).length = some s' ∧
      done <+: ms ∧ P done s' ∧ (done = ms ∨ ∃ m ∈ done, stops m) := by
  suffices h : ∀ (later done : List OlsrMsg) (s : σ) (fuel : ℕ), ms = done ++ later → later.length < fuel → P done s →
      ∃ done' s', parseMessages handle fuel s (later.flatMap OlsrMsg.bytes ++ rest)
        (later.flatMap OlsrMsg.bytes).length = some s' ∧ done' <+: ms ∧ P done' s' ∧
          (done' = ms ∨ ∃ m ∈ done', stops m) from h ms [] s fuel rfl hfuel hs
  clear hfuel hs
  intro later
  induction later with
  | nil =>
    intro done s fuel hsplit hfuel hs
    obtain ⟨fuel, rfl⟩ := Nat.exists_eq_succ_of_ne_zero (by omega : fuel ≠ 0)
    exact ⟨done, s, if_pos (Or.inl (le_refl _)), hsplit ▸ List.prefix_append _ _, hs, Or.inl (by rw [hsplit, List.append_nil])⟩
  | cons m later ih =>
    intro done s fuel hsplit hfuel hs
    obtain ⟨fuel, rfl⟩ := Nat.exists_eq_succ_of_ne_zero (by omega : fuel ≠ 0)
    obtain ⟨s', m', stop, hhandle, hsize, hstop, hs'⟩ :=
      hstep done m later s (later.flatMap OlsrMsg.bytes ++ rest) hsplit hs
    have hpos := m.pos_msgsize
    rw [OLSR_MSGHDRSZ_IPV4] at hpos
    have hcount : ¬ ((((m :: later).flatMap OlsrMsg.bytes).length : ℤ) ≤ 0 ∨
        (((m :: later).flatMap OlsrMsg.bytes).length : ℤ) < MIN_PACKET_SIZE) := by
      rw [List.flatMap_cons, List.length_append, OlsrMsg.length_bytes, MIN_PACKET_SIZE]
      omega
    have hleft : (((m :: later).flatMap OlsrMsg.bytes).length : ℤ) - m.olsr_msgsize =
        (later.flatMap OlsrMsg.bytes).length := by
      rw [List.flatMap_cons, List.length_append, OlsrMsg.length_bytes]
      omega
    have hfits : m.Fits := hms m (hsplit ▸ List.mem_append_right _ List.mem_cons_self)
    rw [parseMessages, if_neg hcount, List.flatMap_cons, List.append_assoc,
      Fault.bind_of_some (OlsrMsg.load_msgsize _ hfits), if_neg (by rw [← List.flatMap_cons, hleft]; omega),
      Fault.bind_of_some hhandle]
    cases stop with
    | true =>
      refine ⟨done ++ [m], s', rfl, ⟨later, ?_⟩, hs', Or.inr ⟨m, by simp, hstop rfl⟩⟩
      rw [hsplit, List.append_assoc, List.singleton_append]
    | false =>
      have hdrop : (m'.bytes ++ (later.flatMap OlsrMsg.bytes ++ rest)).drop m.olsr_msgsize =
          later.flatMap OlsrMsg.bytes ++ rest := by
        rw [← hsize, ← OlsrMsg.length_bytes, List.drop_left]
      obtain ⟨done', s'', hrun, hdone⟩ := ih (done ++ [m]) s' fuel
        (by rw [hsplit, List.append_assoc, List.singleton_append]) (by simpa using hfuel) hs'
      refine ⟨done', s'', ?_, hdone⟩
      dsimp only
      rw [if_neg Bool.false_ne_true, hdrop, ← List.flatMap_cons, hleft]
      exact hrun

/-- The packet of the messages. -/
def packetOf (seqnum : BitVec 16) (ms : List OlsrMsg) : List Byte :=
  be16 (OLSR_HEADERSIZE + (ms.flatMap OlsrMsg.bytes).length) ++ be16 seqnum.toNat ++ ms.flatMap OlsrMsg.bytes

theorem length_packetOf (seqnum : BitVec 16) (ms : List OlsrMsg) :
    (packetOf seqnum ms).length = OLSR_HEADERSIZE + (ms.flatMap OlsrMsg.bytes).length := by
  simp [packetOf, OLSR_HEADERSIZE]
  omega

theorem length_le_flatMap (ms : List OlsrMsg) : ms.length ≤ (ms.flatMap OlsrMsg.bytes).length := by
  induction ms with
  | nil => exact le_refl _
  | cons m ms ih =>
    have hpos := m.pos_msgsize
    rw [OLSR_MSGHDRSZ_IPV4] at hpos
    rw [List.flatMap_cons, List.length_append, OlsrMsg.length_bytes, List.length_cons]
    omega

/-- A packet that was put together from messages is parsed into these messages. -/
theorem parse_packet_spec (P : List OlsrMsg → σ → Prop) (stops : OlsrMsg → Prop) (hms : ∀ m ∈ ms, m.Fits)
    (hstep : ∀ done m later s rest, ms = done ++ m :: later → P done s → ∃ (s' : σ) (m' : OlsrMsg) (stop : Bool),
      handle s (m.bytes ++ rest) = some (s', m'.bytes ++ rest, stop) ∧ m'.olsr_msgsize = m.olsr_msgsize ∧
        (stop = true → stops m) ∧ P (done ++ [m]) s')
    (hs : P [] s) (seqnum : BitVec 16) (hsize : (packetOf seqnum ms).length < 65536) {fuel : ℕ}
    (hfuel : (packetOf seqnum ms).length < fuel) (stale : List Byte) : ∃ done s',
    parse_packet handle fuel s (packetOf seqnum ms ++ stale) (packetOf seqnum ms).length = some s' ∧
      done <+: ms ∧ P done s' ∧ (done = ms ∨ ∃ m ∈ done, stops m) := by
  rw [length_packetOf] at hsize hfuel ⊢
  rw [parse_packet]
  rcases Nat.eq_zero_or_pos ms.length with hnil | hpos
  · obtain rfl := List.length_eq_zero_iff.1 hnil
    exact ⟨[], s, if_pos (by decide), List.nil_prefix, hs, Or.inl rfl⟩
  · obtain ⟨m, ms', rfl⟩ := List.exists_cons_of_length_pos hpos
    have hm := m.pos_msgsize
    rw [OLSR_MSGHDRSZ_IPV4] at hm
    have hlong : OLSR_HEADERSIZE ≤ ((m :: ms').flatMap OlsrMsg.bytes).length := by
      rw [List.flatMap_cons, List.length_append, OlsrMsg.length_bytes, OLSR_HEADERSIZE]
      omega
    have hpacklen : loadBe16 (packetOf seqnum (m :: ms') ++ stale) 0 =
        some (OLSR_HEADERSIZE + ((m :: ms').flatMap OlsrMsg.bytes).length) := by
      refine loadBe16_eq (a := []) (c := be16 seqnum.toNat ++ (m :: ms').flatMap OlsrMsg.bytes ++ stale) ?_ rfl hsize
      simp [packetOf]
    have hdrop : (packetOf seqnum (m :: ms') ++ stale).drop OLSR_HEADERSIZE =
        (m :: ms').flatMap OlsrMsg.bytes ++ stale := by
      rw [packetOf, List.append_assoc]
      exact List.drop_left' rfl
    have hcount : ((OLSR_HEADERSIZE + ((m :: ms').flatMap OlsrMsg.bytes).length : ℕ) : ℤ) - OLSR_HEADERSIZE =
        (((m :: ms').flatMap OlsrMsg.bytes).length : ℕ) := by
      omega
    rw [hcount, if_neg (by rw [MIN_PACKET_SIZE]; rw [OLSR_HEADERSIZE] at hlong; omega), Fault.bind_of_some hpacklen,
      if_neg (by simp), hdrop]
    have hlength := length_le_flatMap (m :: ms')
    exact parseMessages_spec handle P stops hms hstep hs (by omega) stale

/-- A message of size zero that its handler leaves alone keeps the parser in its loop, whatever number of rounds it is
given. -/
theorem parse_hangs {m : List Byte} {count : ℤ} (hcount : MIN_PACKET_SIZE ≤ count) (hsize : loadBe16 m 2 = some 0)
    (hhandle : handle s m = some (s, m, false)) (fuel : ℕ) : parseMessages handle fuel s m count = none := by
  rw [MIN_PACKET_SIZE] at hcount
  induction fuel with
  | zero => rfl
  | succ fuel ih =>
    rw [parseMessages, if_neg (by rw [MIN_PACKET_SIZE]; omega), Fault.bind_of_some hsize, if_neg (by omega),
      Fault.bind_of_some hhandle]
    dsimp only
    rw [if_neg Bool.false_ne_true, List.drop_zero, Int.natCast_zero, Int.sub_zero]
    exact ih

end Parser

/-! ### Filling the buffers -/

namespace OlsrInterface

variable {ifp : OlsrInterface} {group : List OlsrMsg}

/-- The buffer contains the messages, for which there is room. -/
structure Filled (group : List OlsrMsg) (ifp : OlsrInterface) : Prop where
  pending : ifp.pending = group.flatMap OlsrMsg.bytes
  room : group = [] ∨ ((group.flatMap OlsrMsg.bytes).length : ℤ) ≤ ifp.maxsize

theorem flatMap_bytes_eq_nil_iff : group.flatMap OlsrMsg.bytes = [] ↔ group = [] := by
  constructor
  · intro h
    have hlength := length_le_flatMap group
    rw [h] at hlength
    exact List.length_eq_zero_iff.1 (Nat.le_zero.1 hlength)
  · rintro rfl
    rfl

theorem Filled.isEmpty_iff (h : ifp.Filled group) : ifp.pending.isEmpty = true ↔ group = [] := by
  rw [List.isEmpty_iff, h.pending, flatMap_bytes_eq_nil_iff]

/-- The packets that are sent when the buffer is. -/
def flushed (seqnum : BitVec 16) (group : List OlsrMsg) : List (BitVec 16 × List OlsrMsg) :=
  if group.isEmpty then [] else [(seqnum, group)]

/-- What a change of a buffer sends and keeps of the messages `group`. -/
structure Sends (ifp ifp' : OlsrInterface) (packets : List (List Byte)) (group : List OlsrMsg)
    (groups : List (BitVec 16 × List OlsrMsg)) (group' : List OlsrMsg) : Prop where
  ip_addr : ifp'.ip_addr = ifp.ip_addr
  maxsize : ifp'.maxsize = ifp.maxsize
  packets : packets = groups.map fun g => packetOf g.1 g.2
  room : ∀ g ∈ groups, ((g.2.flatMap OlsrMsg.bytes).length : ℤ) ≤ ifp.maxsize
  filled : ifp'.Filled group'
  messages : groups.flatMap Prod.snd ++ group' = group

theorem Filled.net_output (h : ifp.Filled group) :
    Sends ifp ifp.net_output.1 ifp.net_output.2 group (flushed ifp.olsr_seqnum group) [] := by
  rw [OlsrInterface.net_output, flushed]
  cases group with
  | nil =>
    rw [if_pos (h.isEmpty_iff.2 rfl)]
    exact ⟨rfl, rfl, rfl, fun _ hg => absurd hg List.not_mem_nil, h, rfl⟩
  | cons m group =>
    rw [if_neg fun hempty => List.cons_ne_nil _ _ (h.isEmpty_iff.1 hempty)]
    refine ⟨rfl, rfl, ?_, fun g hg => ?_, ⟨rfl, Or.inl rfl⟩, by simp⟩
    · rw [h.pending]
      rfl
    · rw [List.mem_singleton.1 hg]
      exact h.room.resolve_left (List.cons_ne_nil _ _)

/-- A message is added if there is room. -/
theorem Filled.push (h : ifp.Filled group) (m : OlsrMsg) :
    (ifp.net_outbuffer_push m.bytes).2 = m.olsr_msgsize ∧
        (ifp.net_outbuffer_push m.bytes).1 = { ifp with pending := ifp.pending ++ m.bytes } ∧
        (ifp.net_outbuffer_push m.bytes).1.Filled (group ++ [m]) ∨
      (ifp.net_outbuffer_push m.bytes).2 ≠ m.olsr_msgsize ∧ (ifp.net_outbuffer_push m.bytes).1 = ifp ∧
        ifp.maxsize < (group.flatMap OlsrMsg.bytes).length + m.olsr_msgsize := by
  have hpos := m.pos_msgsize
  rw [OLSR_MSGHDRSZ_IPV4] at hpos
  rw [net_outbuffer_push, h.pending, OlsrMsg.length_bytes]
  split
  · refine Or.inr ⟨?_, rfl, by assumption⟩
    dsimp only
    omega
  · refine Or.inl ⟨rfl, rfl, ?_, Or.inr ?_⟩
    · simp
    · rw [List.flatMap_append, List.length_append, List.flatMap_singleton, OlsrMsg.length_bytes]
      dsimp only
      push_cast
      omega

/-- A message and a buffer that is empty. -/
theorem Filled.push_nil (h : ifp.Filled []) (m : OlsrMsg) : (ifp.net_outbuffer_push m.bytes).1.Filled
      (if (m.olsr_msgsize : ℤ) ≤ ifp.maxsize then [m] else []) ∧
    (ifp.net_outbuffer_push m.bytes).1.ip_addr = ifp.ip_addr ∧
    (ifp.net_outbuffer_push m.bytes).1.maxsize = ifp.maxsize := by
  rcases h.push m with ⟨-, hpush, hfilled⟩ | ⟨-, hpush, hroom⟩
  · rw [hpush] at hfilled ⊢
    have hroom := hfilled.room.resolve_left (by simp)
    simp only [List.nil_append, List.flatMap_singleton, OlsrMsg.length_bytes] at hroom hfilled
    rw [if_pos hroom]
    exact ⟨hfilled, rfl, rfl⟩
  · rw [hpush, if_neg (by simpa using hroom)]
    exact ⟨h, rfl, rfl⟩

/-- A message goes in the buffer or, if it does not fit in an empty one, is dropped. -/
theorem Filled.buffer (h : ifp.Filled group) (m : OlsrMsg) : ∃ groups group',
    Sends ifp (ifp.buffer m.bytes).1 (ifp.buffer m.bytes).2
      (group ++ if (m.olsr_msgsize : ℤ) ≤ ifp.maxsize then [m] else []) groups group' := by
  rw [OlsrInterface.buffer]
  by_cases hempty : ifp.pending.isEmpty = true
  · obtain rfl := h.isEmpty_iff.1 hempty
    obtain ⟨hfilled, hip, hmaxsize⟩ := h.push_nil m
    rw [if_pos hempty]
    exact ⟨[], _, hip, hmaxsize, rfl, fun g hg => absurd hg List.not_mem_nil, hfilled, rfl⟩
  · rw [if_neg hempty]
    dsimp only
    rw [OlsrMsg.length_bytes]
    rcases h.push m with ⟨hn, hpush, hfilled⟩ | ⟨hn, hpush, -⟩
    · rw [if_neg (by rw [hn]; exact fun hne => hne rfl)]
      rw [hpush] at hfilled ⊢
      have hroom := hfilled.room.resolve_left (by simp)
      rw [List.flatMap_append, List.length_append, List.flatMap_singleton, OlsrMsg.length_bytes] at hroom
      dsimp only at hroom
      rw [if_pos (by push_cast at hroom; omega)]
      exact ⟨[], _, rfl, rfl, rfl, fun g hg => absurd hg List.not_mem_nil, hfilled, rfl⟩
    · -- the buffer is sent, and the message is tried again
      rw [if_pos hn, hpush]
      have hsent := h.net_output
      obtain ⟨hfilled, hip, hmaxsize⟩ := hsent.filled.push_nil m
      rw [hsent.maxsize] at hfilled
      refine ⟨flushed ifp.olsr_seqnum group, _, hip.trans hsent.ip_addr, hmaxsize.trans hsent.maxsize, hsent.packets,
        hsent.room, hfilled, ?_⟩
      have hmessages := hsent.messages
      rw [List.append_nil] at hmessages
      rw [hmessages]

/-- Put messages in the buffer one after the other, and send it at the end. -/
def packets (ifp : OlsrInterface) (data : List (List Byte)) : List (List Byte) :=
  let (ifp, packets) := data.foldl (fun (ifp, packets) d =>
    let (ifp, sent) := ifp.buffer d
    (ifp, packets ++ sent)) (ifp, [])
  packets ++ ifp.net_output.2

theorem Sends.trans {ifp₁ ifp₂ ifp₃ : OlsrInterface} {ps ps' : List (List Byte)} {group₁ group₂ group₃ : List OlsrMsg}
    {groups groups' : List (BitVec 16 × List OlsrMsg)} {ms : List OlsrMsg} (h : Sends ifp₁ ifp₂ ps group₁ groups group₂)
    (h' : Sends ifp₂ ifp₃ ps' (group₂ ++ ms) groups' group₃) :
    Sends ifp₁ ifp₃ (ps ++ ps') (group₁ ++ ms) (groups ++ groups') group₃ where
  ip_addr := h'.ip_addr.trans h.ip_addr
  maxsize := h'.maxsize.trans h.maxsize
  packets := by rw [h.packets, h'.packets, List.map_append]
  room g hg := by
    rcases List.mem_append.1 hg with hg | hg
    · exact h.room g hg
    · exact h.maxsize ▸ h'.room g hg
  filled := h'.filled
  messages := by
    rw [List.flatMap_append, List.append_assoc, h'.messages, ← List.append_assoc, h.messages]

theorem Filled.refl (h : ifp.Filled group) : Sends ifp ifp [] group [] group :=
  ⟨rfl, rfl, rfl, fun _ hg => absurd hg List.not_mem_nil, h, rfl⟩

end OlsrInterface

/-! ### The round trip -/

end MpOlsr
