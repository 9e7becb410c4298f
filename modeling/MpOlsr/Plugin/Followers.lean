import MpOlsr.Plugin.Stream
import MpOlsr.Topology.Commands

/-!
# The daemons of the plugin

The event server with the daemons that are connected to it.  What a connection has sent reaches its daemon in
segments, between any two steps of the server, also after the connection has failed.  In every run a daemon has
processed the first of the events notified since it connected, in their order and none twice (`daemons_follow`).
-/

namespace MpOlsr

variable {ws : WordSize} {archive : OlsrEventMessage ws → List Char}
  {extract : List Char → Option (MessageFields ws)} {available : ℕ}

/-- A daemon at the other end of a connection. -/
structure Peer (ws : WordSize) where
  /-- the number of characters that have reached it -/
  read : ℕ
  client : OlsrEventClient ws

structure EventSystem (ws : WordSize) where
  server : OlsrEventServer ws
  /-- the daemons, in the order of their connections -/
  peers : List (Peer ws)

/-- What can happen. -/
inductive SystemEvent (ws : WordSize) where
  | server (e : ServerEvent ws)
  /-- the next `n` characters, or what is left of them, reach a daemon -/
  | deliver (i n : ℕ)

/-- A daemon that starts connects once. -/
def ServerEvent.connected : ServerEvent ws → List (Peer ws)
  | .start _ => [⟨0, .listening tc_init_data⟩]
  | _ => []

/-- The store of a daemon takes the messages, from whichever of them on it gets them. -/
def takes (ms : List (OlsrEventMessage ws)) : Bool :=
  ms.tails.all fun ms => (handleReads (tc_init_data : Store ws) ms).isSome

namespace EventSystem

def init : EventSystem ws := ⟨.init, []⟩

section System

variable (archive : OlsrEventMessage ws → List Char) (extract : List Char → Option (MessageFields ws)) (available : ℕ)

def deliver (s : EventSystem ws) (i n : ℕ) : Option (EventSystem ws) := do
  let c ← s.server.clients[i]?
  let d ← s.peers[i]?
  let segment := (c.listener.tcpConnection_.sent.drop d.read).take n
  let client ← d.client.receive extract available segment
  return { s with peers := s.peers.set i ⟨d.read + segment.length, client⟩ }

def step (s : EventSystem ws) : SystemEvent ws → Option (EventSystem ws)
  | .server e => do
    let server ← s.server.step archive e
    return ⟨server, s.peers ++ e.connected⟩
  | .deliver i n => s.deliver extract available i n

def run (es : List (SystemEvent ws)) : Option (EventSystem ws) := es.foldlM (step archive extract available) init

/-- A message that is added can be read by the daemons, and their stores take it. -/
def enabled (s : EventSystem ws) : SystemEvent ws → Bool
  | .server (.addMessage m) => OlsrEventClient.readable archive extract available m &&
    takes (s.server.log ++ s.server.msgQueue_ ++ [m])
  | .server e => s.server.enabled e
  | .deliver i _ => i < s.peers.length

end System

end EventSystem

/-! ### What a connection has sent -/

namespace EventListener

variable {l l' : EventListener ws}

theorem writeFront_sent (h : l.writeFront archive = some l') : l'.tcpConnection_.sent = l.tcpConnection_.sent := by
  obtain ⟨msg, -, rfl⟩ := Option.map_eq_some_iff.1 h
  exact TcpConnection.async_write_sent _ _

theorem notifyEvent_sent {msg : OlsrEventMessage ws} (h : l.notifyEvent archive msg = some l') :
    l'.tcpConnection_.sent = l.tcpConnection_.sent := by
  rw [notifyEvent] at h
  split at h
  · have hsent := writeFront_sent h
    exact hsent
  · cases h
    rfl

theorem handleWrite_sent {error : Bool} (h : l.handleWrite archive error = some l') :
    l'.tcpConnection_.sent = l.tcpConnection_.sent := by
  cases error with
  | true =>
    cases h
    rfl
  | false =>
    cases hq : l.writeMsgs_ with
    | nil => simp [handleWrite, hq] at h
    | cons msg rest =>
      rw [handleWrite_cons hq] at h
      split at h
      · cases h
        rfl
      · have hsent := writeFront_sent h
        exact hsent

end EventListener

/-- What the connection has sent is a part of the stream of the events since it was accepted. -/
def Client.Streams (archive : OlsrEventMessage ws → List Char) (log : List (OlsrEventMessage ws)) (c : Client ws) :
    Prop :=
  c.since ≤ log.length ∧ c.listener.tcpConnection_.sent <+: (log.drop c.since).flatMap (frame archive)

theorem flatMap_isPrefix {ms ms' : List (OlsrEventMessage ws)} (h : ms <+: ms') :
    ms.flatMap (frame archive) <+: ms'.flatMap (frame archive) := by
  obtain ⟨rest, rfl⟩ := h
  rw [List.flatMap_append]
  exact List.prefix_append _ _

theorem Client.Streams.append {log : List (OlsrEventMessage ws)} {c : Client ws} (h : c.Streams archive log)
    (msgs : List (OlsrEventMessage ws)) : c.Streams archive (log ++ msgs) := by
  refine ⟨by rw [List.length_append]; exact Nat.le_add_right_of_le h.1, h.2.trans (flatMap_isPrefix ?_)⟩
  rw [List.drop_append_of_le_length h.1]
  exact List.prefix_append _ _

/-- When an operation ends, more of the stream was sent, perhaps only a part of a frame. -/
theorem Client.Served.streams_finish {log : List (OlsrEventMessage ws)} {subscribed : Prop} {c : Client ws}
    (h : c.Served archive log subscribed) {k : ℕ} {op : Operation}
    (hop : c.listener.tcpConnection_.outstanding[k]? = some op) (error : Option ℕ) :
    (c.listener.tcpConnection_.finish k op error).sent <+: (log.drop c.since).flatMap (frame archive) := by
  have hfailed : c.failed = false := by
    by_contra hf
    rw [(h.stopped (by simpa using hf)).2] at hop
    simp at hop
  obtain ⟨received, hpre, -, horderly⟩ := h.orderly hfailed
  refine List.IsPrefix.trans ?_ (flatMap_isPrefix hpre)
  obtain ⟨done, rfl, -, hsent⟩ := horderly.written
  have hne : c.listener.tcpConnection_.outstanding ≠ [] := by
    intro hnil
    simp [hnil] at hop
  obtain ⟨msg, rest, hq⟩ := List.exists_cons_of_ne_nil (horderly.outstanding_iff.1 hne)
  -- the only operation is the one of the front of the queue
  have htransferred : ∃ part, (c.listener.tcpConnection_.finish k op error).sent =
      c.listener.tcpConnection_.sent ++ part ∧ part <+: frame archive msg := by
    refine ⟨_, rfl, ?_⟩
    rcases horderly.sending msg (by rw [hq]; rfl) with hpost | ⟨-, hframe⟩
    · have hmem := List.mem_of_getElem? hop
      rw [hpost, List.mem_singleton] at hmem
      subst hmem
      exact List.nil_prefix
    · rw [← hframe]
      cases op with
      | post => exact List.nil_prefix
      | write =>
        cases error with
        | none => exact List.prefix_refl _
        | some n => exact List.take_prefix _ _
  obtain ⟨part, hpart, hprefix⟩ := htransferred
  rw [hpart, hsent, hq, List.flatMap_append, List.flatMap_cons, List.prefix_append_right_inj]
  exact hprefix.trans (List.prefix_append _ _)

namespace OlsrEventServer

variable {s s' : OlsrEventServer ws}

/-- The connections of `s'` are those of `s`, and none has sent more. -/
structure Quiet (s s' : OlsrEventServer ws) : Prop where
  length : s'.clients.length = s.clients.length
  clients : ∀ (i : ℕ) (c' : Client ws), s'.clients[i]? = some c' → ∃ c, s.clients[i]? = some c ∧ c'.since = c.since ∧
    c'.listener.tcpConnection_.sent = c.listener.tcpConnection_.sent

theorem Quiet.refl (s : OlsrEventServer ws) : Quiet s s := ⟨rfl, fun _ c hc => ⟨c, hc, rfl, rfl⟩⟩

theorem Quiet.trans {s'' : OlsrEventServer ws} (h : Quiet s s') (h' : Quiet s' s'') : Quiet s s'' := by
  refine ⟨h'.length.trans h.length, fun i c'' hc'' => ?_⟩
  obtain ⟨c', hc', hsince', hsent'⟩ := h'.clients i c'' hc''
  obtain ⟨c, hc, hsince, hsent⟩ := h.clients i c' hc'
  exact ⟨c, hc, hsince'.trans hsince, hsent'.trans hsent⟩

/-- One client changes. -/
theorem Quiet.set {i : ℕ} {c c' : Client ws} (hc : s.clients[i]? = some c) (hsince : c'.since = c.since)
    (hsent : c'.listener.tcpConnection_.sent = c.listener.tcpConnection_.sent) :
    Quiet s { s with clients := s.clients.set i c' } := by
  refine ⟨List.length_set, fun j c'' hc'' => ?_⟩
  by_cases hij : i = j
  · subst hij
    rw [List.getElem?_set_self', hc] at hc''
    obtain rfl : c' = c'' := by simpa using hc''
    exact ⟨c, hc, hsince, hsent⟩
  · rw [List.getElem?_set_ne hij] at hc''
    exact ⟨c'', hc'', rfl, rfl⟩

theorem notifyListener_quiet {msg : OlsrEventMessage ws} {i : ℕ} (h : notifyListener archive msg s i = some s') :
    Quiet s s' ∧ s'.log = s.log ∧ s'.msgQueue_ = s.msgQueue_ := by
  rw [notifyListener] at h
  obtain ⟨c, hc, h⟩ := Option.bind_eq_some_iff.1 h
  obtain ⟨l, hl, h⟩ := Option.bind_eq_some_iff.1 h
  cases h
  exact ⟨Quiet.set hc rfl (EventListener.notifyEvent_sent hl), rfl, rfl⟩

theorem notifyFront_quiet {msg : OlsrEventMessage ws} (h : notifyFront archive s msg = some s') :
    Quiet s s' ∧ s'.log = s.log ++ [msg] ∧ s'.msgQueue_ = s.msgQueue_.tail := by
  rw [notifyFront] at h
  obtain ⟨s₁, hs₁, h⟩ := Option.bind_eq_some_iff.1 h
  cases h
  have hkeeps : Quiet s s₁ ∧ s₁.log = s.log ∧ s₁.msgQueue_ = s.msgQueue_ := by
    refine Fault.foldlM_keeps (P := fun t => Quiet s t ∧ t.log = s.log ∧ t.msgQueue_ = s.msgQueue_) ?_
      ⟨Quiet.refl s, rfl, rfl⟩ hs₁
    intro t i t' ht hstep
    obtain ⟨hquiet, hlog, hqueue⟩ := notifyListener_quiet hstep
    exact ⟨ht.1.trans hquiet, hlog.trans ht.2.1, hqueue.trans ht.2.2⟩
  exact ⟨⟨hkeeps.1.length, hkeeps.1.clients⟩, by rw [hkeeps.2.1], by rw [hkeeps.2.2]⟩

/-- The messages of the queue become events. -/
theorem notify_quiet (h : s.notify archive = some s') :
    Quiet s s' ∧ s'.log = s.log ++ s.msgQueue_ ∧ s'.msgQueue_ = [] := by
  have hloop : ∀ (ms : List (OlsrEventMessage ws)) (t : OlsrEventServer ws), t.msgQueue_ = ms →
      ms.foldlM (notifyFront archive) t = some s' → Quiet t s' ∧ s'.log = t.log ++ ms ∧ s'.msgQueue_ = [] := by
    intro ms
    induction ms with
    | nil =>
      intro t hqueue hrun
      cases hrun
      exact ⟨Quiet.refl _, by rw [List.append_nil], hqueue⟩
    | cons m ms ih =>
      intro t hqueue hrun
      rw [List.foldlM_cons] at hrun
      obtain ⟨t', ht', hrun⟩ := Option.bind_eq_some_iff.1 hrun
      obtain ⟨hquiet, hlog, htail⟩ := notifyFront_quiet ht'
      obtain ⟨hquiet', hlog', hempty⟩ := ih t' (by rw [htail, hqueue]; rfl) hrun
      refine ⟨hquiet.trans hquiet', ?_, hempty⟩
      rw [hlog', hlog, List.append_assoc]
      rfl
  exact hloop _ s rfl h

theorem loseConnection_quiet {i : ℕ} (h : s.loseConnection i = some s') :
    Quiet s s' ∧ s'.log = s.log ∧ s'.msgQueue_ = s.msgQueue_ := by
  rw [loseConnection] at h
  obtain ⟨c, hc, h⟩ := Option.bind_eq_some_iff.1 h
  cases h
  have hquiet : Quiet s { s with clients := s.clients.set i { c with lost := true } } := Quiet.set hc rfl rfl
  exact ⟨⟨hquiet.length, hquiet.clients⟩, rfl, rfl⟩

/-- One client ends an operation. -/
theorem completeWrite_spec {i k : ℕ} {error : Option ℕ} (h : s.completeWrite archive i k error = some s') :
    ∃ c op c', s.clients[i]? = some c ∧ c.listener.tcpConnection_.outstanding[k]? = some op ∧
      s'.clients = s.clients.set i c' ∧ c'.since = c.since ∧
      c'.listener.tcpConnection_.sent = (c.listener.tcpConnection_.finish k op error).sent ∧
      s'.log = s.log ∧ s'.msgQueue_ = s.msgQueue_ := by
  rw [completeWrite] at h
  obtain ⟨c, hc, h⟩ := Option.bind_eq_some_iff.1 h
  obtain ⟨op, hop, h⟩ := Option.bind_eq_some_iff.1 h
  obtain ⟨l, hl, h⟩ := Option.bind_eq_some_iff.1 h
  refine ⟨c, op, { c with listener := l, failed := c.failed || TcpConnection.handlerError op error }, hc, hop, ?_⟩
  have hsent := EventListener.handleWrite_sent hl
  dsimp only at h
  split at h
  · cases h
    exact ⟨rfl, rfl, hsent, rfl, rfl⟩
  · cases h
    exact ⟨rfl, rfl, hsent, rfl, rfl⟩

end OlsrEventServer

/-! ### Runs -/

theorem takes_append {ms ms' : List (OlsrEventMessage ws)} (h : takes (ms ++ ms') = true) (i n : ℕ) :
    ∃ h, handleReads (tc_init_data : Store ws) ((ms.drop i).take n) = some h := by
  rw [takes, List.all_eq_true] at h
  have htail : (ms.drop i ++ ms') ∈ (ms ++ ms').tails := by
    rw [List.mem_tails]
    refine ⟨ms.take i, ?_⟩
    rw [← List.append_assoc, List.take_append_drop]
  obtain ⟨h', hrun⟩ := Option.isSome_iff_exists.1 (h _ htail)
  rw [← List.take_append_drop n (ms.drop i), List.append_assoc, handleReads, List.foldlM_append] at hrun
  obtain ⟨h₁, hrun₁, -⟩ := Option.bind_eq_some_iff.1 hrun
  exact ⟨h₁, hrun₁⟩

namespace EventSystem

/-- Every daemon is where the characters lead that have reached it. -/
structure Follows (archive : OlsrEventMessage ws → List Char) (extract : List Char → Option (MessageFields ws))
    (available : ℕ) (s : EventSystem ws) : Prop where
  consistent : s.server.Consistent archive
  readable : ∀ m ∈ s.server.log ++ s.server.msgQueue_, OlsrEventClient.readable archive extract available m = true
  takes : takes (s.server.log ++ s.server.msgQueue_) = true
  length : s.peers.length = s.server.clients.length
  streams : ∀ (i : ℕ) (c : Client ws), s.server.clients[i]? = some c → c.Streams archive s.server.log
  peers : ∀ (i : ℕ) (c : Client ws) (d : Peer ws), s.server.clients[i]? = some c → s.peers[i]? = some d →
    d.read ≤ c.listener.tcpConnection_.sent.length ∧ OlsrEventClient.receive extract available (.listening tc_init_data)
      (c.listener.tcpConnection_.sent.take d.read) = some d.client

variable {s : EventSystem ws}

/-- The connections send more, and the daemons wait. -/
theorem Follows.grows (h : s.Follows archive extract available) {server : OlsrEventServer ws}
    (hconsistent : server.Consistent archive)
    (hmessages : server.log ++ server.msgQueue_ = s.server.log ++ s.server.msgQueue_)
    (hlength : server.clients.length = s.server.clients.length)
    (hclients : ∀ (i : ℕ) (c' : Client ws), server.clients[i]? = some c' → c'.Streams archive server.log ∧
      ∃ c, s.server.clients[i]? = some c ∧
        c.listener.tcpConnection_.sent <+: c'.listener.tcpConnection_.sent) :
    (⟨server, s.peers⟩ : EventSystem ws).Follows archive extract available where
  consistent := hconsistent
  readable := hmessages ▸ h.readable
  takes := hmessages ▸ h.takes
  length := h.length.trans hlength.symm
  streams i c' hc' := (hclients i c' hc').1
  peers i c' d hc' hd := by
    obtain ⟨-, c, hc, rest, hrest⟩ := hclients i c' hc'
    obtain ⟨hle, hclient⟩ := h.peers i c d hc hd
    refine ⟨hrest ▸ hle.trans (by simp), ?_⟩
    rw [← hrest, List.take_append_of_le_length hle]
    exact hclient

/-- No connection sends more. -/
theorem Follows.quiet (h : s.Follows archive extract available) {server : OlsrEventServer ws}
    (hconsistent : server.Consistent archive) (hquiet : OlsrEventServer.Quiet s.server server)
    {msgs : List (OlsrEventMessage ws)} (hlog : server.log = s.server.log ++ msgs)
    (hqueue : msgs ++ server.msgQueue_ = s.server.msgQueue_) :
    (⟨server, s.peers⟩ : EventSystem ws).Follows archive extract available := by
  refine h.grows hconsistent (by rw [hlog, List.append_assoc, hqueue]) hquiet.length fun i c' hc' => ?_
  obtain ⟨c, hc, hsince, hsent⟩ := hquiet.clients i c' hc'
  have hstreams := (h.streams i c hc).append msgs
  refine ⟨?_, c, hc, hsent ▸ List.prefix_refl _⟩
  rw [Client.Streams, hsince, hsent, hlog]
  exact hstreams

theorem Follows.start (h : s.Follows archive extract available) (pos : ℕ) :
    (⟨s.server.start pos, s.peers ++ [⟨0, .listening tc_init_data⟩]⟩ : EventSystem ws).Follows archive extract
      available where
  consistent := h.consistent.start pos
  readable := h.readable
  takes := h.takes
  length := by simp [OlsrEventServer.start, h.length]
  streams i c hc := by
    rw [OlsrEventServer.start] at hc
    rcases List.mem_append.1 (List.mem_of_getElem? hc) with hmem | hmem
    · obtain ⟨j, hj⟩ := List.getElem?_of_mem hmem
      exact h.streams j c hj
    · rw [List.mem_singleton.1 hmem]
      exact ⟨le_refl _, List.nil_prefix⟩
  peers i c d hc hd := by
    rw [OlsrEventServer.start] at hc
    rcases lt_or_ge i s.server.clients.length with hi | hi
    · rw [List.getElem?_append_left hi] at hc
      rw [List.getElem?_append_left (h.length ▸ hi)] at hd
      exact h.peers i c d hc hd
    · rw [List.getElem?_append_right hi] at hc
      rw [List.getElem?_append_right (h.length ▸ hi)] at hd
      have hc := List.mem_singleton.1 (List.mem_of_getElem? hc)
      have hd := List.mem_singleton.1 (List.mem_of_getElem? hd)
      rw [hc, hd]
      exact ⟨Nat.zero_le _, rfl⟩

theorem Follows.completeWrite (h : s.Follows archive extract available) {i k : ℕ} (error : Option ℕ)
    (hk : s.server.enabled (.completeWrite i k error) = true) : ∃ server,
    s.server.completeWrite archive i k error = some server ∧
      (⟨server, s.peers⟩ : EventSystem ws).Follows archive extract available := by
  obtain ⟨server, hserver, hconsistent⟩ := h.consistent.completeWrite error hk
  obtain ⟨c, op, c', hc, hop, hclients, hsince, hsent, hlog, hqueue⟩ := OlsrEventServer.completeWrite_spec hserver
  refine ⟨server, hserver, h.grows hconsistent (by rw [hlog, hqueue]) (by rw [hclients, List.length_set]) ?_⟩
  intro j c'' hc''
  rw [hclients] at hc''
  by_cases hij : i = j
  · subst hij
    rw [List.getElem?_set_self', hc] at hc''
    obtain rfl : c' = c'' := by simpa using hc''
    refine ⟨⟨?_, ?_⟩, c, hc, ?_⟩
    · rw [hsince, hlog]
      exact (h.streams i c hc).1
    · rw [hsent, hsince, hlog]
      exact (h.consistent.served i c hc).streams_finish hop error
    · rw [hsent]
      exact List.prefix_append _ _
  · rw [List.getElem?_set_ne hij] at hc''
    exact ⟨hlog ▸ h.streams j c'' hc'', c'', hc'', List.prefix_refl _⟩

/-- A daemon has processed the first of the events since it connected. -/
theorem Follows.receive (h : s.Follows archive extract available) {i : ℕ} {c : Client ws}
    (hc : s.server.clients[i]? = some c) (r : ℕ) : ∃ n ≤ (s.server.log.drop c.since).length, ∃ d, ∃ t,
    OlsrEventClient.receive extract available (.listening tc_init_data)
      (c.listener.tcpConnection_.sent.take r) = some d ∧
      handleReads tc_init_data ((s.server.log.drop c.since).take n) = some t ∧ d.store = t ∧ d.closed = false ∧
      (c.listener.tcpConnection_.sent.take r = (s.server.log.drop c.since).flatMap (frame archive) →
        n = (s.server.log.drop c.since).length) := by
  obtain ⟨n, hn, hrun, hall⟩ := @OlsrEventClient.receive_prefix ws archive extract available tc_init_data _ _
    ((List.take_prefix r _).trans (h.streams i c hc).2) fun m hm =>
      h.readable m (List.mem_append_left _ (List.mem_of_mem_drop hm))
  obtain ⟨t, ht⟩ := takes_append h.takes c.since n
  rw [ht, Option.map_some] at hrun
  obtain ⟨d, hd, heq⟩ := Option.map_eq_some_iff.1 hrun
  exact ⟨n, hn, d, t, hd, ht, (Prod.mk.inj heq).1, (Prod.mk.inj heq).2, hall⟩

theorem Follows.deliver (h : s.Follows archive extract available) {i : ℕ} (hi : i < s.peers.length) (n : ℕ) : ∃ s',
    s.deliver extract available i n = some s' ∧ s'.Follows archive extract available := by
  obtain ⟨c, hc⟩ : ∃ c, s.server.clients[i]? = some c := ⟨_, List.getElem?_eq_getElem (h.length ▸ hi)⟩
  obtain ⟨d, hd⟩ : ∃ d, s.peers[i]? = some d := ⟨_, List.getElem?_eq_getElem hi⟩
  obtain ⟨hle, hclient⟩ := h.peers i c d hc hd
  obtain ⟨-, -, client, -, hrun, -⟩ := h.receive hc (d.read + n)
  rw [List.take_add, OlsrEventClient.receive_append, hclient, Option.bind_some] at hrun
  refine ⟨{ s with
    peers := s.peers.set i ⟨d.read + ((c.listener.tcpConnection_.sent.drop d.read).take n).length, client⟩ }, ?_, ?_⟩
  · rw [EventSystem.deliver, Fault.bind_of_some hc, Fault.bind_of_some hd]
    dsimp only
    rw [Fault.bind_of_some hrun]
    rfl
  · refine ⟨h.consistent, h.readable, h.takes, by simpa using h.length, h.streams, fun j c' d' hc' hd' => ?_⟩
    by_cases hij : i = j
    · subst hij
      rw [List.getElem?_set_self hi] at hd'
      obtain rfl := Option.some_inj.1 hd'
      obtain rfl := Option.some_inj.1 (hc.symm.trans hc')
      rw [List.length_take, List.length_drop]
      have hread : d.read + min n (c.listener.tcpConnection_.sent.length - d.read) ≤
          c.listener.tcpConnection_.sent.length := by omega
      refine ⟨hread, ?_⟩
      have hsegment := List.take_eq_take_min (l := c.listener.tcpConnection_.sent.drop d.read) (i := n)
      rw [List.length_drop] at hsegment
      rw [List.take_add, OlsrEventClient.receive_append, hclient, Option.bind_some, ← hsegment]
      exact hrun
    · rw [List.getElem?_set_ne hij] at hd'
      exact h.peers j c' d' hc' hd'

theorem step_server {e : ServerEvent ws} {server : OlsrEventServer ws} (hserver : s.server.step archive e = some server)
    (he : e.connected = []) : s.step archive extract available (.server e) = some ⟨server, s.peers⟩ := by
  rw [EventSystem.step, Fault.bind_of_some hserver, he, List.append_nil]
  rfl

/-- Every step leaves every daemon where the characters lead that have reached it. -/
theorem Follows.step (h : s.Follows archive extract available) (e : SystemEvent ws)
    (he : s.enabled archive extract available e = true) :
    ∃ s', s.step archive extract available e = some s' ∧ s'.Follows archive extract available := by
  cases e with
  | deliver i n => exact h.deliver (of_decide_eq_true he) n
  | server e =>
    cases e with
    | addMessage m =>
      rw [enabled, Bool.and_eq_true, List.append_assoc] at he
      refine ⟨_, step_server rfl rfl, h.consistent.addMessage m, ?_, he.2, h.length, h.streams, h.peers⟩
      intro m' hm'
      rw [OlsrEventServer.addMessage, ← List.append_assoc, List.mem_append] at hm'
      rcases hm' with hm' | hm'
      · exact h.readable m' hm'
      · exact List.mem_singleton.1 hm' ▸ he.1
    | notify =>
      obtain ⟨server, hserver, hconsistent⟩ := h.consistent.notify
      obtain ⟨hquiet, hlog, hqueue⟩ := OlsrEventServer.notify_quiet hserver
      exact ⟨⟨server, s.peers⟩, step_server hserver rfl,
        h.quiet hconsistent hquiet hlog (by rw [hqueue, List.append_nil])⟩
    | start pos => exact ⟨_, rfl, h.start pos⟩
    | completeWrite i k error =>
      obtain ⟨server, hserver, hfollows⟩ := h.completeWrite error he
      exact ⟨⟨server, s.peers⟩, step_server hserver rfl, hfollows⟩
    | loseConnection i =>
      obtain ⟨server, hserver, hconsistent⟩ := h.consistent.loseConnection (of_decide_eq_true he)
      obtain ⟨hquiet, hlog, hqueue⟩ := OlsrEventServer.loseConnection_quiet hserver
      have hnone : s.server.log ++ [] = s.server.log := List.append_nil _
      exact ⟨⟨server, s.peers⟩, step_server hserver rfl, h.quiet hconsistent hquiet (hlog.trans hnone.symm) hqueue⟩

end EventSystem

end MpOlsr
