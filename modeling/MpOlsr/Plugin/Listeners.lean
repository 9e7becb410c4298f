import MpOlsr.Lib.Fault
import MpOlsr.Lib.Simulation
import MpOlsr.Topology.Commands

/-!
# The event server of the plugin

`olsreventserver.cpp`, `eventlistener.cpp` and `connection.h`: the messages of the plugin are queued and sent to every
listener.  A listener has a queue of its own, whose front is in the outbound buffer of its connection while it is
written.  The socket invokes the handler of a write once.  The calls of the two threads do not overlap; `pop_front` on
an empty queue is a fault (`none`).
-/

namespace MpOlsr

variable {ws : WordSize}

/-! ### Connections -/

def header_length : ℕ := 8

/-- What an `async_write` has started: a write to the socket, or a call of the handler with an error. -/
inductive Operation where
  | write
  | post
  deriving DecidableEq

structure TcpConnection where
  m_outbound_header : List Char
  m_outbound_data : List Char
  /-- the operations whose handler was not invoked yet -/
  outstanding : List Operation
  /-- what was sent on the socket -/
  sent : List Char

/-- The size in hexadecimal, in a field of `header_length` characters. -/
def formatHeader (size : ℕ) : List Char := (Nat.toDigits 16 size).leftpad header_length ' '

/-- What a message is on the socket: `archive` is its serialisation. -/
def frame (archive : OlsrEventMessage ws → List Char) (t : OlsrEventMessage ws) : List Char :=
  formatHeader (archive t).length ++ archive t

namespace TcpConnection

def init : TcpConnection := ⟨[], [], [], []⟩

def async_write (archive : OlsrEventMessage ws → List Char) (c : TcpConnection) (t : OlsrEventMessage ws) :
    TcpConnection :=
  let c := { c with m_outbound_data := archive t }
  let header := formatHeader c.m_outbound_data.length
  if header.length ≠ header_length then { c with outstanding := c.outstanding ++ [.post] }
  else { c with m_outbound_header := header, outstanding := c.outstanding ++ [.write] }

/-- Whether the handler is invoked with an error. -/
def handlerError (op : Operation) (error : Option ℕ) : Bool := op == .post || error.isSome

/-- The end of an operation: the buffers are sent as they are now, after an error only their first bytes. -/
def finish (c : TcpConnection) (k : ℕ) (op : Operation) (error : Option ℕ) : TcpConnection :=
  let buffers := c.m_outbound_header ++ c.m_outbound_data
  let transferred :=
    match op, error with
    | .post, _ => []
    | .write, none => buffers
    | .write, some n => buffers.take n
  { c with outstanding := c.outstanding.eraseIdx k, sent := c.sent ++ transferred }

end TcpConnection

/-! ### Listeners -/

structure EventListener (ws : WordSize) where
  tcpConnection_ : TcpConnection
  writeMsgs_ : List (OlsrEventMessage ws)
  /-- the messages handed to `async_write` so far -/
  handed : List (OlsrEventMessage ws)

namespace EventListener

variable (archive : OlsrEventMessage ws → List Char) (l : EventListener ws)

def init : EventListener ws := ⟨.init, [], []⟩

/-- Write the front of the queue. -/
def writeFront : Option (EventListener ws) :=
  l.writeMsgs_.head?.map fun msg =>
    { l with tcpConnection_ := l.tcpConnection_.async_write archive msg, handed := l.handed ++ [msg] }

def notifyEvent (eventMessage : OlsrEventMessage ws) : Option (EventListener ws) :=
  let write_in_progress := !l.writeMsgs_.isEmpty
  let l := { l with writeMsgs_ := l.writeMsgs_ ++ [eventMessage] }
  if !write_in_progress then l.writeFront archive else some l

/-- The handler of a write; after an error it only unsubscribes the listener. -/
def handleWrite (error : Bool) : Option (EventListener ws) :=
  if error then some l
  else
    match l.writeMsgs_ with
    | [] => none
    | _ :: writeMsgs_ =>
      let l := { l with writeMsgs_ := writeMsgs_ }
      if writeMsgs_.isEmpty then some l else l.writeFront archive

end EventListener

/-! ### The server -/

/-- A listener, with what happened to it. -/
structure Client (ws : WordSize) where
  listener : EventListener ws
  /-- the number of events notified before it subscribed -/
  since : ℕ
  /-- one of its writes failed -/
  failed : Bool
  /-- its connection was lost -/
  lost : Bool

structure OlsrEventServer (ws : WordSize) where
  /-- every listener created, in the order of the connections -/
  clients : List (Client ws)
  /-- the set of the subscribed listeners, in the order of its iterator -/
  eventListeners_ : List ℕ
  msgQueue_ : List (OlsrEventMessage ws)
  /-- the events notified so far -/
  log : List (OlsrEventMessage ws)

namespace OlsrEventServer

variable (archive : OlsrEventMessage ws → List Char) (s : OlsrEventServer ws)

def init : OlsrEventServer ws := ⟨[], [], [], []⟩

def addMessage (msg : OlsrEventMessage ws) : OlsrEventServer ws := { s with msgQueue_ := s.msgQueue_ ++ [msg] }

/-- Subscribe the listener of a new connection; its place in the set is the one of its address. -/
def start (pos : ℕ) : OlsrEventServer ws :=
  { s with
    clients := s.clients ++ [{ listener := .init, since := s.log.length, failed := false, lost := false }],
    eventListeners_ := s.eventListeners_.insertIdx (min pos s.eventListeners_.length) s.clients.length }

def unsubscribe (i : ℕ) : OlsrEventServer ws := { s with eventListeners_ := s.eventListeners_.erase i }

def notifyListener (eventMessage : OlsrEventMessage ws) (s : OlsrEventServer ws) (i : ℕ) :
    Option (OlsrEventServer ws) := do
  let c ← s.clients[i]?
  let l ← c.listener.notifyEvent archive eventMessage
  return { s with clients := s.clients.set i { c with listener := l } }

/-- `EventListenerManager::notifyEvent`, for the front of the queue. -/
def notifyFront (s : OlsrEventServer ws) (eventMessage : OlsrEventMessage ws) : Option (OlsrEventServer ws) := do
  let s ← s.eventListeners_.foldlM (notifyListener archive eventMessage) s
  return { s with msgQueue_ := s.msgQueue_.tail, log := s.log ++ [eventMessage] }

def notify : Option (OlsrEventServer ws) := s.msgQueue_.foldlM (notifyFront archive) s

/-- The end of an operation of a connection, and the call of its handler. -/
def completeWrite (i k : ℕ) (error : Option ℕ) : Option (OlsrEventServer ws) := do
  let c ← s.clients[i]?
  let op ← c.listener.tcpConnection_.outstanding[k]?
  let failed := TcpConnection.handlerError op error
  let l := { c.listener with tcpConnection_ := c.listener.tcpConnection_.finish k op error }
  let l ← l.handleWrite archive failed
  let s := { s with clients := s.clients.set i { c with listener := l, failed := c.failed || failed } }
  return if failed then s.unsubscribe i else s

/-- `EventListener::handleRead` with an error. -/
def loseConnection (i : ℕ) : Option (OlsrEventServer ws) := do
  let c ← s.clients[i]?
  return { s with clients := s.clients.set i { c with lost := true } }.unsubscribe i

end OlsrEventServer

/-- What can happen to the server. -/
inductive ServerEvent (ws : WordSize) where
  | addMessage (msg : OlsrEventMessage ws)
  | notify
  /-- a connection is accepted -/
  | start (pos : ℕ)
  /-- the operation at place `k` of a connection ends, after an error with the number of bytes sent -/
  | completeWrite (i k : ℕ) (error : Option ℕ)
  | loseConnection (i : ℕ)

namespace OlsrEventServer

variable (archive : OlsrEventMessage ws → List Char)

def step (s : OlsrEventServer ws) : ServerEvent ws → Option (OlsrEventServer ws)
  | .addMessage msg => some (s.addMessage msg)
  | .notify => s.notify archive
  | .start pos => some (s.start pos)
  | .completeWrite i k error => s.completeWrite archive i k error
  | .loseConnection i => s.loseConnection i

/-- The handlers are those of connections and of operations that were started. -/
def enabled (s : OlsrEventServer ws) : ServerEvent ws → Bool
  | .completeWrite i k _ => s.clients[i]?.any fun c => k < c.listener.tcpConnection_.outstanding.length
  | .loseConnection i => i < s.clients.length
  | _ => true

end OlsrEventServer

/-! ### One listener -/

variable {archive : OlsrEventMessage ws → List Char}

namespace TcpConnection

/-- The only operation of the connection is the one of a message. -/
def Sending (archive : OlsrEventMessage ws → List Char) (c : TcpConnection) (t : OlsrEventMessage ws) : Prop :=
  c.outstanding = [.post] ∨ c.outstanding = [.write] ∧ c.m_outbound_header ++ c.m_outbound_data = frame archive t

theorem Sending.length {c : TcpConnection} {t : OlsrEventMessage ws} (h : c.Sending archive t) :
    c.outstanding.length = 1 := by
  rcases h with h | h
  · rw [h]; rfl
  · rw [h.1]; rfl

theorem async_write_sending {c : TcpConnection} (hc : c.outstanding = []) (t : OlsrEventMessage ws) :
    (c.async_write archive t).Sending archive t := by
  unfold async_write
  dsimp only
  split
  · exact Or.inl (by simp [hc])
  · exact Or.inr ⟨by simp [hc], rfl⟩

@[simp] theorem async_write_sent (c : TcpConnection) (t : OlsrEventMessage ws) :
    (c.async_write archive t).sent = c.sent := by
  unfold async_write
  dsimp only
  split <;> rfl

/-- The only operation of a connection ends. -/
theorem Sending.finish {c : TcpConnection} {t : OlsrEventMessage ws} (h : c.Sending archive t) {k : ℕ}
    {op : Operation} (hop : c.outstanding[k]? = some op) (error : Option ℕ) :
    (c.finish k op error).outstanding = [] ∧
      (op = .write → error = none → (c.finish k op error).sent = c.sent ++ frame archive t) := by
  have hk : k < c.outstanding.length := (List.getElem?_eq_some_iff.1 hop).1
  obtain rfl : k = 0 := by
    rw [h.length] at hk
    omega
  rcases h with h | ⟨h, hframe⟩
  · rw [h] at hop
    cases hop
    exact ⟨by simp [TcpConnection.finish, h], nofun⟩
  · refine ⟨by simp [TcpConnection.finish, h], ?_⟩
    rintro rfl rfl
    simp [TcpConnection.finish, hframe]

end TcpConnection

namespace EventListener

/-- The listener has written a part of the messages it received and has the others on its queue; the front of the
queue is being written. -/
structure Orderly (archive : OlsrEventMessage ws → List Char) (l : EventListener ws)
    (received : List (OlsrEventMessage ws)) : Prop where
  written : ∃ done, received = done ++ l.writeMsgs_ ∧ l.handed = done ++ l.writeMsgs_.head?.toList ∧
    l.tcpConnection_.sent = done.flatMap (frame archive)
  sending : ∀ msg, l.writeMsgs_.head? = some msg → l.tcpConnection_.Sending archive msg
  idle : l.writeMsgs_ = [] → l.tcpConnection_.outstanding = []

variable {l : EventListener ws} {received : List (OlsrEventMessage ws)}

theorem orderly_init : (init : EventListener ws).Orderly archive [] where
  written := ⟨[], rfl, rfl, rfl⟩
  sending := nofun
  idle _ := rfl

theorem Orderly.outstanding_iff (h : l.Orderly archive received) :
    l.tcpConnection_.outstanding ≠ [] ↔ l.writeMsgs_ ≠ [] := by
  refine not_congr ⟨fun hout => ?_, h.idle⟩
  by_contra hq
  obtain ⟨msg, rest, hq⟩ := List.exists_cons_of_ne_nil hq
  have hlength := (h.sending msg (by simp [hq])).length
  simp [hout] at hlength

/-- The next message is written when the connection is idle. -/
theorem writeFront_spec {done rest : List (OlsrEventMessage ws)} {msg : OlsrEventMessage ws}
    (hq : l.writeMsgs_ = msg :: rest) (hhanded : l.handed = done)
    (hsent : l.tcpConnection_.sent = done.flatMap (frame archive)) (hidle : l.tcpConnection_.outstanding = []) :
    ∃ l', l.writeFront archive = some l' ∧ l'.Orderly archive (done ++ msg :: rest) := by
  refine ⟨_, by rw [writeFront, hq]; rfl, ?_, ?_, ?_⟩
  · exact ⟨done, by simp, by simp [hhanded], by simp [hsent]⟩
  · intro msg' hmsg'
    obtain rfl : msg = msg' := by simpa [hq] using hmsg'
    exact TcpConnection.async_write_sending hidle msg
  · intro hnil
    simp at hnil

theorem Orderly.notifyEvent (h : l.Orderly archive received) (eventMessage : OlsrEventMessage ws) :
    ∃ l', l.notifyEvent archive eventMessage = some l' ∧ l'.Orderly archive (received ++ [eventMessage]) := by
  obtain ⟨done, hreceived, hhanded, hsent⟩ := h.written
  by_cases hq : l.writeMsgs_ = []
  · rw [hq, List.append_nil] at hreceived
    subst hreceived
    have hnotify : l.notifyEvent archive eventMessage =
        writeFront archive { l with writeMsgs_ := [eventMessage] } := by
      simp [EventListener.notifyEvent, hq]
    rw [hnotify]
    exact writeFront_spec rfl (by simpa [hq] using hhanded) hsent (h.idle hq)
  · -- a write is in progress: the front of the queue stays
    have hfront : (l.writeMsgs_ ++ [eventMessage]).head? = l.writeMsgs_.head? := List.head?_append_of_ne_nil _ hq
    refine ⟨{ l with writeMsgs_ := l.writeMsgs_ ++ [eventMessage] }, ?_, ?_, ?_, ?_⟩
    · simp [EventListener.notifyEvent, hq]
    · exact ⟨done, by simp [hreceived], by rw [hfront, hhanded], hsent⟩
    · intro msg' hmsg'
      exact h.sending msg' (hfront ▸ hmsg')
    · intro hnil
      simp at hnil

theorem handleWrite_cons {msg : OlsrEventMessage ws} {rest : List (OlsrEventMessage ws)}
    (hq : l.writeMsgs_ = msg :: rest) : l.handleWrite archive false =
      if rest.isEmpty then some { l with writeMsgs_ := rest }
      else writeFront archive { l with writeMsgs_ := rest } := by
  simp only [EventListener.handleWrite, hq, Bool.false_eq_true, if_false]

/-- The operation ends without an error, and the next message is written. -/
theorem Orderly.handleWrite (h : l.Orderly archive received) {k : ℕ}
    (hop : l.tcpConnection_.outstanding[k]? = some .write) :
    ∃ l', EventListener.handleWrite archive
        { l with tcpConnection_ := l.tcpConnection_.finish k .write none } false = some l' ∧
      l'.Orderly archive received := by
  obtain ⟨done, hreceived, hhanded, hsent⟩ := h.written
  rcases hq : l.writeMsgs_ with _ | ⟨msg, rest⟩
  · simp [h.idle hq] at hop
  · obtain ⟨hidle, hframe⟩ := (h.sending msg (by simp [hq])).finish hop none
    have hsent' : (l.tcpConnection_.finish k .write none).sent = (done ++ [msg]).flatMap (frame archive) := by
      rw [hframe rfl rfl, hsent]
      simp
    have hhanded' : l.handed = done ++ [msg] := by simpa [hq] using hhanded
    have hreceived' : received = (done ++ [msg]) ++ rest := by simpa [hq] using hreceived
    rw [handleWrite_cons rfl]
    cases rest with
    | nil =>
      refine ⟨_, if_pos rfl, ⟨done ++ [msg], hreceived', ?_, hsent'⟩, nofun, fun _ => hidle⟩
      simp [hhanded']
    | cons msg' rest =>
      rw [hreceived']
      exact writeFront_spec rfl hhanded' hsent' hidle

end EventListener

/-! ### Every listener -/

namespace Client

/-- A listener received the first of the events notified since it subscribed, and all of them while it is subscribed.  A
listener with a failed write is out of the set and writes no more. -/
structure Served (archive : OlsrEventMessage ws → List Char) (log : List (OlsrEventMessage ws)) (subscribed : Prop)
    (c : Client ws) : Prop where
  since_le : c.since ≤ log.length
  orderly : c.failed = false → ∃ received, received <+: log.drop c.since ∧
    (subscribed → received = log.drop c.since) ∧ c.listener.Orderly archive received
  stays : c.failed = false → c.lost = false → subscribed
  stopped : c.failed = true → ¬ subscribed ∧ c.listener.tcpConnection_.outstanding = []

variable {log : List (OlsrEventMessage ws)} {subscribed : Prop} {c : Client ws}

theorem Served.congr {subscribed' : Prop} (h : c.Served archive log subscribed) (hsub : subscribed' ↔ subscribed) :
    c.Served archive log subscribed' := by
  rwa [propext hsub]

theorem Served.failed_eq_false (h : c.Served archive log subscribed) (hsub : subscribed) : c.failed = false := by
  cases hf : c.failed with
  | false => rfl
  | true => exact absurd hsub (h.stopped hf).1

/-- A subscribed listener receives the next event. -/
theorem Served.notified (h : c.Served archive log subscribed) (hsub : subscribed) (msg : OlsrEventMessage ws) :
    ∃ l, c.listener.notifyEvent archive msg = some l ∧
      { c with listener := l }.Served archive (log ++ [msg]) subscribed := by
  have hfailed := h.failed_eq_false hsub
  obtain ⟨received, -, hall, horderly⟩ := h.orderly hfailed
  obtain ⟨l, hl, horderly'⟩ := horderly.notifyEvent msg
  have hdrop : received ++ [msg] = (log ++ [msg]).drop c.since := by
    rw [List.drop_append_of_le_length h.since_le, hall hsub]
  refine ⟨l, hl, ?_, ?_, ?_, ?_⟩
  · have := h.since_le
    simp; omega
  · intro _
    exact ⟨received ++ [msg], by rw [hdrop], fun _ => hdrop, horderly'⟩
  · exact fun _ _ => hsub
  · intro hf
    exact absurd hf (by simp [hfailed])

/-- An event passes a listener that is not subscribed. -/
theorem Served.passed (h : c.Served archive log subscribed) (hsub : ¬ subscribed) (msg : OlsrEventMessage ws) :
    c.Served archive (log ++ [msg]) subscribed where
  since_le := by
    have := h.since_le
    simp; omega
  orderly hf := by
    obtain ⟨received, hreceived, -, horderly⟩ := h.orderly hf
    refine ⟨received, ?_, fun h' => absurd h' hsub, horderly⟩
    rw [List.drop_append_of_le_length h.since_le]
    exact hreceived.trans (List.prefix_append _ _)
  stays := h.stays
  stopped := h.stopped

/-- An operation of the connection ends. -/
theorem Served.completed (h : c.Served archive log subscribed) {k : ℕ} {op : Operation}
    (hop : c.listener.tcpConnection_.outstanding[k]? = some op) (error : Option ℕ) :
    ∃ l, EventListener.handleWrite archive
        { c.listener with tcpConnection_ := c.listener.tcpConnection_.finish k op error }
        (TcpConnection.handlerError op error) = some l ∧
      { c with listener := l, failed := c.failed || (TcpConnection.handlerError op error) }.Served archive log
        (subscribed ∧ (TcpConnection.handlerError op error) = false) := by
  have hfailed : c.failed = false := by
    by_contra hf
    rw [(h.stopped (by simpa using hf)).2] at hop
    simp at hop
  obtain ⟨received, hpre, hall, horderly⟩ := h.orderly hfailed
  cases hbad : TcpConnection.handlerError op error with
  | true =>
    obtain ⟨msg, hmsg⟩ : ∃ msg, c.listener.writeMsgs_.head? = some msg := by
      have hne : c.listener.tcpConnection_.outstanding ≠ [] := by
        intro hnil
        simp [hnil] at hop
      obtain ⟨msg, rest, hq⟩ := List.exists_cons_of_ne_nil (horderly.outstanding_iff.1 hne)
      exact ⟨msg, by simp [hq]⟩
    refine ⟨_, rfl, h.since_le, ?_, ?_, ?_⟩
    · intro hf
      simp at hf
    · intro hf
      simp at hf
    · intro _
      exact ⟨by simp, ((horderly.sending msg hmsg).finish hop error).1⟩
  | false =>
    obtain ⟨hwrite, hnone⟩ : op = .write ∧ error = none := by
      cases op <;> simp_all [TcpConnection.handlerError]
    subst hwrite hnone
    obtain ⟨l, hl, horderly'⟩ := horderly.handleWrite hop
    refine ⟨l, hl, h.since_le, ?_, ?_, ?_⟩
    · intro _
      exact ⟨received, hpre, fun hsub => hall hsub.1, horderly'⟩
    · exact fun _ hlost => ⟨h.stays hfailed hlost, rfl⟩
    · intro hf
      simp [hfailed] at hf

theorem Served.connectionLost (h : c.Served archive log subscribed) :
    { c with lost := true }.Served archive log False where
  since_le := h.since_le
  orderly hf := by
    obtain ⟨received, hpre, -, horderly⟩ := h.orderly hf
    exact ⟨received, hpre, False.elim, horderly⟩
  stays := nofun
  stopped hf := ⟨id, (h.stopped hf).2⟩

end Client

namespace OlsrEventServer

/-- Every listener is served. -/
structure Consistent (archive : OlsrEventMessage ws → List Char) (s : OlsrEventServer ws) : Prop where
  nodup : s.eventListeners_.Nodup
  mem_lt : ∀ i ∈ s.eventListeners_, i < s.clients.length
  served : ∀ (i : ℕ) (c : Client ws), s.clients[i]? = some c → c.Served archive s.log (i ∈ s.eventListeners_)

variable {s : OlsrEventServer ws}

theorem Consistent.addMessage (h : s.Consistent archive) (msg : OlsrEventMessage ws) :
    (s.addMessage msg).Consistent archive := ⟨h.nodup, h.mem_lt, h.served⟩

theorem Consistent.start (h : s.Consistent archive) (pos : ℕ) : (s.start pos).Consistent archive := by
  have hperm : (s.start pos).eventListeners_.Perm (s.clients.length :: s.eventListeners_) :=
    List.perm_insertIdx _ _ (min_le_right _ _)
  have hfresh : s.clients.length ∉ s.eventListeners_ := fun hmem => (h.mem_lt _ hmem).false
  refine ⟨hperm.nodup_iff.2 (List.nodup_cons.2 ⟨hfresh, h.nodup⟩), ?_, ?_⟩
  · intro i hi
    have hlength : (s.start pos).clients.length = s.clients.length + 1 := by simp [OlsrEventServer.start]
    rcases List.mem_cons.1 (hperm.mem_iff.1 hi) with rfl | hi
    · omega
    · have := h.mem_lt i hi
      omega
  · intro i c hc
    rcases lt_or_ge i s.clients.length with hi | hi
    · rw [OlsrEventServer.start, List.getElem?_append_left hi] at hc
      refine (h.served i c hc).congr ?_
      rw [hperm.mem_iff, List.mem_cons]
      exact or_iff_right hi.ne
    · rw [OlsrEventServer.start, List.getElem?_append_right hi] at hc
      obtain ⟨hzero, rfl⟩ : i - s.clients.length = 0 ∧ c = ⟨.init, s.log.length, false, false⟩ := by
        cases hzero : i - s.clients.length with
        | zero =>
          rw [hzero] at hc
          exact ⟨rfl, (Option.some.inj hc).symm⟩
        | succ n =>
          rw [hzero] at hc
          cases hc
      refine ⟨le_refl _, ?_, ?_, nofun⟩
      · intro _
        have hdrop : ([] : List (OlsrEventMessage ws)) = s.log.drop s.log.length := List.drop_length.symm
        exact ⟨[], List.nil_prefix, fun _ => hdrop, EventListener.orderly_init⟩
      · intro _ _
        have hi' : i = s.clients.length := by omega
        exact hperm.mem_iff.2 (List.mem_cons.2 (Or.inl hi'))

/-- A listener changes, and perhaps leaves the set. -/
theorem Consistent.set (h : s.Consistent archive) {i : ℕ} {c : Client ws} {subscribed : Prop}
    (hc : c.Served archive s.log subscribed) {l : List ℕ} (hl : l.Sublist s.eventListeners_)
    (hmem : ∀ j, j ≠ i → (j ∈ l ↔ j ∈ s.eventListeners_)) (hi : i ∈ l ↔ subscribed) :
    { s with clients := s.clients.set i c, eventListeners_ := l }.Consistent archive := by
  refine ⟨h.nodup.sublist hl, ?_, ?_⟩
  · intro j hj
    simpa using h.mem_lt j (hl.subset hj)
  · intro j c' hc'
    by_cases hji : i = j
    · subst hji
      rw [List.getElem?_set_self'] at hc'
      obtain ⟨-, -, rfl⟩ := Option.map_eq_some_iff.1 hc'
      exact hc.congr hi
    · rw [List.getElem?_set_ne hji] at hc'
      exact (h.served j c' hc').congr (hmem j (Ne.symm hji))

theorem Consistent.completeWrite (h : s.Consistent archive) {i k : ℕ} (error : Option ℕ)
    (hk : s.enabled (.completeWrite i k error) = true) :
    ∃ s', s.completeWrite archive i k error = some s' ∧ s'.Consistent archive := by
  obtain ⟨c, hc, hlt⟩ := (Option.any_eq_true ..).1 hk
  obtain ⟨op, hop⟩ : ∃ op, c.listener.tcpConnection_.outstanding[k]? = some op :=
    ⟨_, List.getElem?_eq_getElem (of_decide_eq_true hlt)⟩
  obtain ⟨l, hl, hserved⟩ := (h.served i c hc).completed hop error
  rw [OlsrEventServer.completeWrite, Fault.bind_of_some hc, Fault.bind_of_some hop]
  dsimp only
  rw [Fault.bind_of_some hl]
  refine ⟨_, rfl, ?_⟩
  cases hbad : TcpConnection.handlerError op error with
  | true =>
    rw [hbad] at hserved
    refine h.set hserved List.erase_sublist (fun j hj => List.mem_erase_of_ne hj) ?_
    simp [h.nodup.mem_erase_iff]
  | false =>
    rw [hbad] at hserved
    refine h.set hserved (List.Sublist.refl _) (fun j _ => Iff.rfl) ?_
    simp

theorem Consistent.loseConnection (h : s.Consistent archive) {i : ℕ} (hi : i < s.clients.length) :
    ∃ s', s.loseConnection i = some s' ∧ s'.Consistent archive := by
  have hc := List.getElem?_eq_getElem hi
  refine ⟨_, by rw [OlsrEventServer.loseConnection, Fault.bind_of_some hc]; rfl, ?_⟩
  refine h.set (h.served i _ hc).connectionLost List.erase_sublist (fun j hj => List.mem_erase_of_ne hj) ?_
  simp [h.nodup.mem_erase_iff]

/-- In the loop over the subscribed listeners: those visited have received the event, the others are as before. -/
structure Visited (archive : OlsrEventMessage ws → List Char) (s : OlsrEventServer ws) (msg : OlsrEventMessage ws)
    (visited : List ℕ) (s' : OlsrEventServer ws) : Prop where
  set : s'.eventListeners_ = s.eventListeners_
  log : s'.log = s.log
  length : s'.clients.length = s.clients.length
  rest : ∀ i, i ∉ visited → s'.clients[i]? = s.clients[i]?
  done : ∀ i ∈ visited, ∀ c', s'.clients[i]? = some c' →
    c'.Served archive (s.log ++ [msg]) (i ∈ s.eventListeners_)

theorem visited_nil {msg : OlsrEventMessage ws} : Visited archive s msg [] s where
  set := rfl
  log := rfl
  length := rfl
  rest _ _ := rfl
  done := nofun

theorem Visited.notifyListener {msg : OlsrEventMessage ws} {visited : List ℕ} {s₁ : OlsrEventServer ws}
    (h₁ : Visited archive s msg visited s₁) (h : s.Consistent archive) {i : ℕ} (hi : i ∈ s.eventListeners_)
    (hnew : i ∉ visited) :
    ∃ s', OlsrEventServer.notifyListener archive msg s₁ i = some s' ∧ Visited archive s msg (visited ++ [i]) s' := by
  obtain ⟨c, hc⟩ : ∃ c, s.clients[i]? = some c := ⟨_, List.getElem?_eq_getElem (h.mem_lt i hi)⟩
  have hc₁ : s₁.clients[i]? = some c := by rw [h₁.rest i hnew, hc]
  obtain ⟨l, hl, hserved⟩ := (h.served i c hc).notified hi msg
  refine ⟨{ s₁ with clients := s₁.clients.set i { c with listener := l } }, ?_, h₁.set, h₁.log, ?_, ?_, ?_⟩
  · rw [OlsrEventServer.notifyListener, Fault.bind_of_some hc₁, Fault.bind_of_some hl]
    rfl
  · simpa using h₁.length
  · intro j hj
    rw [List.mem_append, List.mem_singleton, not_or] at hj
    rw [List.getElem?_set_ne (Ne.symm hj.2)]
    exact h₁.rest j hj.1
  · intro j hj c' hc'
    by_cases hji : i = j
    · subst hji
      rw [List.getElem?_set_self', hc₁] at hc'
      obtain rfl : { c with listener := l } = c' := by simpa using hc'
      exact hserved
    · rw [List.mem_append, List.mem_singleton, or_iff_left (Ne.symm hji)] at hj
      rw [List.getElem?_set_ne hji] at hc'
      exact h₁.done j hj c' hc'

theorem Consistent.notifyListeners (h : s.Consistent archive) (msg : OlsrEventMessage ws) :
    ∃ s', s.eventListeners_.foldlM (notifyListener archive msg) s = some s' ∧
      s'.eventListeners_ = s.eventListeners_ ∧ s'.log = s.log ∧ s'.clients.length = s.clients.length ∧
      ∀ (i : ℕ) (c' : Client ws), s'.clients[i]? = some c' → c'.Served archive (s.log ++ [msg]) (i ∈ s.eventListeners_) := by
  have hloop : ∃ s', s.eventListeners_.foldlM (notifyListener archive msg) s = some s' ∧
      Visited archive s msg s.eventListeners_ s' := by
    refine Fault.foldlM_invariant (Visited archive s msg) visited_nil ?_
    intro done i rest s₁ hsplit hs₁
    refine hs₁.notifyListener h (by simp [hsplit]) ?_
    have hnodup := h.nodup
    rw [hsplit, List.nodup_append] at hnodup
    exact fun hmem => hnodup.2.2 i hmem i List.mem_cons_self rfl
  obtain ⟨s', hrun, hs'⟩ := hloop
  refine ⟨s', hrun, hs'.set, hs'.log, hs'.length, fun i c' hc' => ?_⟩
  by_cases hi : i ∈ s.eventListeners_
  · exact hs'.done i hi c' hc'
  · rw [hs'.rest i hi] at hc'
    exact (h.served i c' hc').passed hi msg

theorem Consistent.notifyFront (h : s.Consistent archive) (msg : OlsrEventMessage ws) :
    ∃ s', OlsrEventServer.notifyFront archive s msg = some s' ∧ s'.Consistent archive := by
  obtain ⟨s', hrun, hset, hlog, hlength, hserved⟩ := h.notifyListeners msg
  refine ⟨{ s' with msgQueue_ := s'.msgQueue_.tail, log := s'.log ++ [msg] }, ?_, ?_, ?_, ?_⟩
  · rw [OlsrEventServer.notifyFront, Fault.bind_of_some hrun]
    rfl
  · exact hset ▸ h.nodup
  · intro i hi
    rw [hset] at hi
    exact hlength ▸ h.mem_lt i hi
  · intro i c hc
    rw [hset, hlog]
    exact hserved i c hc

theorem Consistent.notify (h : s.Consistent archive) :
    ∃ s', s.notify archive = some s' ∧ s'.Consistent archive :=
  Fault.foldlM_invariant (fun _ s => Consistent archive s) h fun _ msg _ _ _ hs => hs.notifyFront msg

/-- Every event keeps the listeners served. -/
theorem Consistent.step (h : s.Consistent archive) (event : ServerEvent ws) (hevent : s.enabled event = true) :
    ∃ s', OlsrEventServer.step archive s event = some s' ∧ s'.Consistent archive := by
  cases event with
  | addMessage msg => exact ⟨_, rfl, h.addMessage msg⟩
  | notify => exact h.notify
  | start pos => exact ⟨_, rfl, h.start pos⟩
  | completeWrite i k error => exact h.completeWrite error hevent
  | loseConnection i => exact h.loseConnection (of_decide_eq_true hevent)

end OlsrEventServer

end MpOlsr
