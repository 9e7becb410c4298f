import MpOlsr.Lib.Framing
import MpOlsr.Lib.Numerals
import MpOlsr.Plugin.Listeners

/-!
# The stream of events

`tcpconnection.h` and `olsreventclient.cpp` of the daemon: what arrives on the connection to the plugin is cut into
messages again, a header with the size of a message and its archive in turn, and every message is processed.  However
the stream is cut into segments, and wherever it ends, the daemon has processed the first of the messages
(`receive_frames`).  How an archive is read and what size can be allocated are parameters.
-/

namespace MpOlsr

variable {ws : WordSize}

/-- The fields of a message of the plugin. -/
structure MessageFields (ws : WordSize) where
  type : ℤ
  addr_1 : ULong ws
  addr_2 : ULong ws
  value : ℤ

/-- The command of a message; a message of another type leaves the topology as it is. -/
def MessageFields.command (t : MessageFields ws) : Option (OlsrEventMessage ws) :=
  if t.type = 1 then some .DEV_CMD_RESET_TC
  else if t.type = 2 then some (.DEV_CMD_ADD_NODE t.addr_1)
  else if t.type = 3 then some (.DEV_CMD_REMOVE_NODE t.addr_1)
  else if t.type = 4 then some (.DEV_CMD_ADD_LINK t.addr_1 t.addr_2 t.value)
  else if t.type = 5 then some (.DEV_CMD_REMOVE_LINK t.addr_1 t.addr_2)
  else if t.type = 6 then some (.DEV_CMD_ADD_ALIAS t.addr_1 t.addr_2)
  else if t.type = 7 then some (.DEV_CMD_REMOVE_ALIAS t.addr_1 t.addr_2)
  else if t.type = 8 then some (.DEV_CMD_SET_LOCAL_ADDR t.addr_1 t.addr_2)
  else if t.type = 9 then some (.DEV_CMD_SET_ALIAS_ADDR t.addr_1 t.addr_2)
  else none

/-! ### The header -/

def isspace (c : Char) : Bool := c == ' ' || ('\t' ≤ c && c ≤ '\r')

/-- The number that `is >> std::hex` reads into a `size_t`. -/
def readSize (ws : WordSize) (header : List Char) : Option ℕ :=
  let cs := header.dropWhile isspace
  let negative := cs.head? == some '-'
  let cs := if negative || cs.head? == some '+' then cs.tail else cs
  let hexPrefix := cs.head? == some '0' && (cs.tail.head? == some 'x' || cs.tail.head? == some 'X')
  let cs := if hexPrefix then cs.drop 2 else cs
  let (n, rest) := Numerals.readDigits 16 0 cs
  if rest.length == cs.length || 2 ^ ws.bits ≤ n then none
  else if negative then some (-BitVec.ofNat ws.bits n).toNat
  else some n

/-! ### The daemon -/

/-- The handler of the outstanding `async_read`. -/
inductive ReadHandler where
  | handle_read_header
  | handle_read_data
  deriving DecidableEq

/-- A daemon, with the buffer of its outstanding `async_read`. -/
structure OlsrEventClient (ws : WordSize) where
  store : Store ws
  handler : ReadHandler
  /-- the size of the buffer -/
  size : ℕ
  /-- what is in the buffer -/
  inbound : List Char
  closed : Bool

namespace OlsrEventClient

/-- The daemon waits for a header. -/
def listening (h : Store ws) : OlsrEventClient ws := ⟨h, .handle_read_header, header_length, [], false⟩

def doClose (c : OlsrEventClient ws) : OlsrEventClient ws := { c with closed := true }

/-- `OlsrEventClient::handleRead` without an error. -/
def handleRead (c : OlsrEventClient ws) (t : MessageFields ws) : Option (OlsrEventClient ws) := do
  let h ← t.command.elim (some c.store) (MpOlsr.handleRead c.store)
  return listening h

variable (extract : List Char → Option (MessageFields ws)) (available : ℕ)

def handle_read_data (c : OlsrEventClient ws) : Option (OlsrEventClient ws) :=
  match extract c.inbound with
  | none => some c.doClose
  | some t => c.handleRead t

/-- A size that cannot be allocated ends the daemon (`none`); a buffer without bytes is full at once. -/
def handle_read_header (c : OlsrEventClient ws) : Option (OlsrEventClient ws) :=
  match readSize ws c.inbound with
  | none => some c.doClose
  | some size =>
    if available < size then none
    else
      let c := { c with handler := .handle_read_data, size := size, inbound := [] }
      if size = 0 then c.handle_read_data extract else some c

/-- One character arrives. -/
def receiveChar (c : OlsrEventClient ws) (x : Char) : Option (OlsrEventClient ws) :=
  if c.closed then some c
  else
    let c := { c with inbound := c.inbound ++ [x] }
    if c.inbound.length < c.size then some c
    else
      match c.handler with
      | .handle_read_header => c.handle_read_header extract available
      | .handle_read_data => c.handle_read_data extract

/-- A segment arrives. -/
def receive (c : OlsrEventClient ws) (segment : List Char) : Option (OlsrEventClient ws) :=
  segment.foldlM (receiveChar extract available) c

end OlsrEventClient

/-! ### One frame -/

theorem isspace_eq_false {c : Char} (hc : (Numerals.digitValue 16 c).isSome = true) : isspace c = false := by
  cases hspace : isspace c with
  | false => rfl
  | true =>
    have hlt : c < '0' := by
      rw [isspace, Bool.or_eq_true, Bool.and_eq_true, beq_iff_eq, decide_eq_true_eq, decide_eq_true_eq] at hspace
      rcases hspace with rfl | ⟨-, hle⟩
      · decide
      · exact lt_of_le_of_lt hle (by decide)
    rw [Numerals.digitValue_of_lt hlt] at hc
    cases hc

/-- A daemon reads the size that the plugin wrote. -/
theorem readSize_formatHeader {n : ℕ} (hn : n < 2 ^ ws.bits) : readSize ws (formatHeader n) = some n := by
  have hdigits := Numerals.isSome_toDigits (by omega) (le_refl 16) n
  obtain ⟨d, ds, hds⟩ : ∃ d ds, Nat.toDigits 16 n = d :: ds :=
    List.exists_cons_of_ne_nil (by rw [← List.length_pos_iff]; exact Nat.length_toDigits_pos)
  rw [hds] at hdigits
  have hd := hdigits d List.mem_cons_self
  have hskip : (formatHeader n).dropWhile isspace = d :: ds := by
    rw [formatHeader, List.leftpad, hds, List.dropWhile_append_of_pos,
      List.dropWhile_cons_of_neg (by simp [isspace_eq_false hd])]
    intro c hc
    rw [List.eq_of_mem_replicate hc]
    rfl
  have hminus : d ≠ '-' := by
    rintro rfl
    cases hd
  have hplus : d ≠ '+' := by
    rintro rfl
    cases hd
  have hx : ∀ c : Char, Numerals.digitValue 16 c = none → ds.head? ≠ some c := by
    intro c hc hhead
    have hsome := hdigits c (List.mem_cons_of_mem _ (List.mem_of_head? hhead))
    rw [hc] at hsome
    cases hsome
  have hread : Numerals.readDigits 16 0 (d :: ds) = (n, []) :=
    hds ▸ Numerals.readDigits_toDigits_nil (by omega) (le_refl 16) n
  simp [readSize, hskip, hminus, hplus, hx 'x' (by decide), hx 'X' (by decide), hread, hn]

namespace OlsrEventClient

variable {archive : OlsrEventMessage ws → List Char} {extract : List Char → Option (MessageFields ws)} {available : ℕ}
  {c : OlsrEventClient ws} {h : Store ws} {m : OlsrEventMessage ws} {ms : List (OlsrEventMessage ws)}

/-- The buffer of the outstanding `async_read` is full. -/
def complete (extract : List Char → Option (MessageFields ws)) (available : ℕ) (c : OlsrEventClient ws) :
    Option (OlsrEventClient ws) :=
  match c.handler with
  | .handle_read_header => c.handle_read_header extract available
  | .handle_read_data => c.handle_read_data extract

/-- The daemon can read the archive of the message and allocate its size, which fits in the header. -/
def readable (archive : OlsrEventMessage ws → List Char) (extract : List Char → Option (MessageFields ws))
    (available : ℕ) (m : OlsrEventMessage ws) : Bool :=
  !(archive m).isEmpty && (archive m).length < 16 ^ header_length && (archive m).length ≤ available &&
    (extract (archive m)).bind MessageFields.command == some m

theorem receive_append (c : OlsrEventClient ws) (xs ys : List Char) :
    receive extract available c (xs ++ ys) = (receive extract available c xs).bind fun c =>
      receive extract available c ys :=
  List.foldlM_append

/-- The buffer is not full yet. -/
theorem receive_of_lt (hc : c.closed = false) {xs : List Char} (hlength : c.inbound.length + xs.length < c.size) :
    receive extract available c xs = some { c with inbound := c.inbound ++ xs } := by
  induction xs generalizing c with
  | nil => simp [receive]
  | cons x xs ih =>
    rw [List.length_cons] at hlength
    have hchar : receiveChar extract available c x = some { c with inbound := c.inbound ++ [x] } := by
      have hfull : (c.inbound ++ [x]).length < c.size := by
        rw [List.length_append, List.length_singleton]
        omega
      simp only [receiveChar, hc, Bool.false_eq_true, if_false, if_pos hfull]
    rw [receive, List.foldlM_cons, hchar]
    have hrest := ih (c := { c with inbound := c.inbound ++ [x] }) hc (by simp; omega)
    rw [List.append_assoc] at hrest
    exact hrest

/-- The last character of the buffer arrives. -/
theorem receive_of_eq (hc : c.closed = false) {xs : List Char} (hxs : xs ≠ [])
    (hlength : c.inbound.length + xs.length = c.size) :
    receive extract available c xs = complete extract available { c with inbound := c.inbound ++ xs } := by
  obtain ⟨ys, y, rfl⟩ : ∃ ys y, xs = ys ++ [y] := ⟨_, _, (List.dropLast_append_getLast hxs).symm⟩
  rw [List.length_append, List.length_singleton] at hlength
  have hfull : ¬ (c.inbound ++ ys ++ [y]).length < c.size := by
    rw [List.length_append, List.length_append, List.length_singleton]
    omega
  rw [receive_append, receive_of_lt hc (by omega), Option.bind_some, receive, List.foldlM_cons]
  simp only [receiveChar, hc, Bool.false_eq_true, if_false, if_neg hfull, List.foldlM_nil, Option.bind_eq_bind,
    ← List.append_assoc]
  exact Option.bind_fun_some _

theorem formatHeader_length {n : ℕ} (hn : n < 16 ^ header_length) : (formatHeader n).length = header_length := by
  have hdigits := (Nat.length_toDigits_le_iff (by omega) (show 0 < header_length by decide)).2 hn
  rw [formatHeader, List.leftpad, List.length_append, List.length_replicate]
  omega

theorem readable_spec (hm : readable archive extract available m = true) :
    archive m ≠ [] ∧ (archive m).length < 16 ^ header_length ∧ (archive m).length ≤ available ∧
      ∃ t, extract (archive m) = some t ∧ t.command = some m := by
  simpa [readable, Option.bind_eq_some_iff, and_assoc] using hm

/-- After the header the daemon waits for the data. -/
theorem receive_header (hm : readable archive extract available m = true) :
    receive extract available (listening h) (formatHeader (archive m).length) =
      some ⟨h, .handle_read_data, (archive m).length, [], false⟩ := by
  obtain ⟨hpos, hfits, havailable, -⟩ := readable_spec hm
  have hheader := formatHeader_length hfits
  have hsize : (archive m).length < 2 ^ ws.bits :=
    lt_of_lt_of_le hfits (Nat.pow_le_pow_right (n := 2) (by omega) ws.le_bits)
  rw [receive_of_eq rfl (by rw [← List.length_pos_iff, hheader]; decide) (by rw [hheader]; rfl)]
  simp only [complete, listening, handle_read_header, List.nil_append, readSize_formatHeader hsize,
    if_neg (not_lt.2 havailable), List.length_eq_zero_iff, if_neg hpos]

/-- A frame is processed. -/
theorem receive_frame (hm : readable archive extract available m = true) :
    receive extract available (listening h) (frame archive m) = (MpOlsr.handleRead h m).map listening := by
  obtain ⟨hpos, -, -, t, ht, hcommand⟩ := readable_spec hm
  rw [frame, receive_append, receive_header hm, Option.bind_some, receive_of_eq rfl hpos (by simp)]
  simp only [complete, handle_read_data, List.nil_append, ht, OlsrEventClient.handleRead, hcommand, Option.elim_some,
    Option.map_eq_bind]
  rfl

/-- A part of a frame waits in the buffers. -/
theorem receive_part (hm : readable archive extract available m = true) {part : List Char}
    (hpart : part <+: frame archive m) (hlength : part.length < (frame archive m).length) :
    ∃ c, receive extract available (listening h) part = some c ∧ c.store = h ∧ c.closed = false := by
  obtain ⟨-, hfits, -⟩ := readable_spec hm
  have hheader := formatHeader_length hfits
  rw [frame, List.length_append, hheader] at hlength
  by_cases hshort : part.length < header_length
  · exact ⟨_, receive_of_lt rfl (by simpa [listening] using hshort), rfl, rfl⟩
  · obtain ⟨data, rfl⟩ : formatHeader (archive m).length <+: part :=
      List.prefix_of_prefix_length_le (List.prefix_append _ _) hpart (by omega)
    rw [List.length_append, hheader] at hlength
    refine ⟨⟨h, .handle_read_data, (archive m).length, data, false⟩, ?_, rfl, rfl⟩
    rw [receive_append, receive_header hm, Option.bind_some, receive_of_lt rfl (by simpa using hlength)]
    rfl

/-! ### The stream -/

/-- Frames that have arrived are processed one after the other. -/
theorem receive_flatMap (hms : ∀ m ∈ ms, readable archive extract available m = true) :
    receive extract available (listening h) (ms.flatMap (frame archive)) = (handleReads h ms).map listening := by
  induction ms generalizing h with
  | nil => rfl
  | cons m ms ih =>
    rw [List.flatMap_cons, receive_append, receive_frame (hms m List.mem_cons_self), handleReads, List.foldlM_cons]
    cases MpOlsr.handleRead h m with
    | none => rfl
    | some h' => exact ih fun m' hm' => hms m' (List.mem_cons_of_mem _ hm')

/-- A daemon that has received a part of the stream has processed the first of the messages. -/
theorem receive_prefix {xs : List Char} (hxs : xs <+: ms.flatMap (frame archive))
    (hms : ∀ m ∈ ms, readable archive extract available m = true) : ∃ n ≤ ms.length,
    (receive extract available (listening h) xs).map (fun c => (c.store, c.closed)) =
        (handleReads h (ms.take n)).map (fun h => (h, false)) ∧
      (xs = ms.flatMap (frame archive) → n = ms.length) := by
  obtain ⟨n, part, hn, rfl, hpart⟩ := Framing.exists_of_prefix hxs
  have hne : ∀ m ∈ ms, frame archive m ≠ [] := fun m hm =>
    List.append_ne_nil_of_right_ne_nil _ (readable_spec (hms m hm)).1
  refine ⟨n, hn, ?_, fun hall => le_antisymm hn (Framing.take_of_eq hne hall.symm hpart)⟩
  rw [receive_append, receive_flatMap fun m hm => hms m (List.mem_of_mem_take hm)]
  cases handleReads h (ms.take n) with
  | none => rfl
  | some h' =>
    rcases hpart with rfl | ⟨m, hm, hpre, hlength⟩
    · rfl
    · obtain ⟨c, hc, hstore, hclosed⟩ := receive_part (h := h') (hms m (List.mem_of_getElem? hm)) hpre hlength
      rw [Option.map_some, Option.bind_some, hc, Option.map_some, Option.map_some, hstore, hclosed]

end OlsrEventClient

end MpOlsr
