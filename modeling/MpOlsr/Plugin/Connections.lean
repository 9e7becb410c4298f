import MpOlsr.Plugin.Replication

/-!
# Connections

A daemon that connects is reset and told the sets of olsrd (`handleAccept`), all daemons are told again, and the events
of olsrd send what changes in the tables of the plugin (`olsrd_pcf_event`).  The two sources are not the same: the sets
of olsrd have edges that the plugin does not accept or does not know yet, and the ends of an edge need not have an entry
of their own.  After an event of olsrd every daemon has the links of the plugin if, at every connection, the sets agreed
with the tables, and no address was shared in any event (`daemons_converge`).
-/

namespace MpOlsr

open DoublyLinked Records MarkSweep

variable {ws : WordSize} {ifnet : List OlsrIpAddr} {p : Plugin ws} {T : Table} {S : Snapshot} {X : Copy}

/-- `struct interface` -/
structure Interface where
  ip_addr : OlsrIpAddr
  int_netmask : OlsrIpAddr

/-- The main address of olsrd and its interfaces. -/
structure OlsrConfig where
  main_addr : OlsrIpAddr
  ifnet : List Interface

namespace OlsrConfig

def localAddrs (conf : OlsrConfig) : List OlsrIpAddr := conf.ifnet.map Interface.ip_addr

/-- The mask of the main address; `mask` is what the variable holds before. -/
def mainMask (conf : OlsrConfig) (mask : OlsrIpAddr) : OlsrIpAddr :=
  ((conf.ifnet.find? fun ifs => conf.main_addr = ifs.ip_addr).map Interface.int_netmask).getD mask

end OlsrConfig

/-! ### The messages at a connection -/

namespace Plugin

variable (p : Plugin ws)

def dev_set_local_addr (addr mask : OlsrIpAddr) : Plugin ws :=
  p.addMessage (.DEV_CMD_SET_LOCAL_ADDR (toLong addr) (toLong mask))

def dev_set_alias_addr (addr mask : OlsrIpAddr) : Plugin ws :=
  p.addMessage (.DEV_CMD_SET_ALIAS_ADDR (toLong addr) (toLong mask))

/-- `dev_send_init` up to `dev_send`. -/
def dev_send_init (conf : OlsrConfig) (mask : OlsrIpAddr) : Plugin ws :=
  let p := (p.addMessage .DEV_CMD_RESET_TC).dev_set_local_addr conf.main_addr (conf.mainMask mask)
  conf.ifnet.foldl (fun p ifs =>
    if conf.main_addr = ifs.ip_addr then p else p.dev_set_alias_addr ifs.ip_addr ifs.int_netmask) p

def tc_send_all_data (S : Snapshot) : Plugin ws :=
  let p := S.tc_set.foldl (fun p tc => p.dev_add_node tc.1) p
  let p := S.edges.foldl (fun p e => p.dev_add_link e.1 e.2 1) p
  S.aliases.foldl (fun p m => p.dev_add_alias m.1 m.2) p

/-- The links, chain by chain. -/
def linkAddrs : List (OlsrIpAddr × OlsrIpAddr) :=
  (List.finRange 128).flatMap fun k => (p.tab.cells p.brk (p.tab.head k)).flatMap fun x =>
    (List.finRange 128).flatMap fun i => (p.dst_tab.cells p.brk (p.dst_tab.head (x, i))).filterMap fun y => do
      let e ← p.entries x
      let d ← p.dsts y
      return (e.src_addr, d.dst_addr)

end Plugin

/-! ### olsrd with its plugin and the daemons -/

/-- The sets of olsrd, the plugin, and the daemons that are connected. -/
structure Olsrd (ws : WordSize) where
  snapshot : Snapshot
  plugin : Plugin ws
  daemons : List (Store ws)

/-- What can happen to olsrd. -/
inductive OlsrdEvent (ws : WordSize) where
  /-- the sets change -/
  | change (S : Snapshot)
  | olsrd_pcf_event
  /-- a daemon connects that has processed some commands before -/
  | handleAccept (history : List (OlsrEventMessage ws)) (mask : OlsrIpAddr)
  /-- a connection is lost -/
  | unsubscribe (i : ℕ)

namespace Olsrd

/-- `dev_init`: nobody is connected. -/
def init (S : Snapshot) : Olsrd ws := ⟨S, Plugin.tc_init_data, []⟩

/-- Every daemon processes the messages of the queue in their order. -/
def dev_send (s : Olsrd ws) : Option (Olsrd ws) := do
  let daemons ← s.daemons.mapM fun h => handleReads h s.plugin.msgQueue_
  return { s with plugin := s.plugin.dev_send, daemons := daemons }

def olsrd_pcf_event (conf : OlsrConfig) (s : Olsrd ws) : Option (Olsrd ws) := do
  let p ← s.plugin.tc_check_data conf.localAddrs s.snapshot
  { s with plugin := p }.dev_send

def handleAccept (conf : OlsrConfig) (mask : OlsrIpAddr) (s : Olsrd ws) (h : Store ws) : Option (Olsrd ws) := do
  let s := { s with daemons := s.daemons ++ [h] }
  let s ← { s with plugin := s.plugin.dev_send_init conf mask }.dev_send
  { s with plugin := s.plugin.tc_send_all_data s.snapshot }.dev_send

def step (conf : OlsrConfig) (s : Olsrd ws) : OlsrdEvent ws → Option (Olsrd ws)
  | .change S => some { s with snapshot := S }
  | .olsrd_pcf_event => s.olsrd_pcf_event conf
  | .handleAccept history mask => do
    let h ← handleReads tc_init_data history
    s.handleAccept conf mask h
  | .unsubscribe i => some { s with daemons := s.daemons.eraseIdx i }

def run (conf : OlsrConfig) (S : Snapshot) (es : List (OlsrdEvent ws)) : Option (Olsrd ws) :=
  es.foldlM (step conf) (init S)

/-- At a connection the sets of olsrd agree with the tables of the plugin; in an event of olsrd the chains are in order,
and no address is shared with a node of a daemon. -/
def agreed (conf : OlsrConfig) (s : Olsrd ws) : OlsrdEvent ws → Bool
  | .olsrd_pcf_event =>
    s.plugin.inOrder conf.localAddrs s.snapshot && s.daemons.all fun h =>
      decide (Multigraph.Apart (fun a => h.nodeAddrs.contains (Plugin.toLong a) ||
          (endpoints (s.snapshot.accepted conf.localAddrs)).contains a)
        (s.plugin.g_cur_mid_tc.map SerTcMid.pair) s.snapshot.aliases)
  | .handleAccept history _ => (handleReads (tc_init_data : Store ws) history).isSome &&
    decide (Multigraph.Agrees s.plugin.nodeAddrs s.plugin.linkAddrs (s.plugin.g_cur_mid_tc.map SerTcMid.pair)
      (s.snapshot.tc_set.map Prod.fst) s.snapshot.edges s.snapshot.aliases)
  | _ => true

/-- Every daemon has the links of the plugin, each once, and these are the accepted edges. -/
structure Converged (conf : OlsrConfig) (s : Olsrd ws) : Prop where
  accepted : ∀ src_addr dst_addr, s.plugin.HasLink src_addr dst_addr ↔
    s.snapshot.Accepted conf.localAddrs (src_addr, dst_addr)
  links : ∀ h ∈ s.daemons, ∀ a b, h.HasLink a b ↔
    ∃ src_addr dst_addr, s.plugin.HasLink src_addr dst_addr ∧ Plugin.toLong src_addr = a ∧ Plugin.toLong dst_addr = b
  once : ∀ h ∈ s.daemons, h.LinksOnce

end Olsrd

/-! ### The messages as updates -/

theorem mem_linkAddrs (h : Shows ifnet p T X) {e : OlsrIpAddr × OlsrIpAddr} : e ∈ p.linkAddrs ↔ e ∈ keys X.links := by
  rw [← h.hasLink_iff (a := e.1) (b := e.2), Plugin.linkAddrs]
  simp only [List.mem_flatMap, List.mem_filterMap, h.tab.mem_cells (h.chain_length _),
    h.dst_tab.mem_cells (h.dst_length _), List.mem_finRange, true_and]
  constructor
  · rintro ⟨k, x, hx, i, y, hy, hxy⟩
    obtain ⟨b, hb, hxy⟩ := Option.bind_eq_some_iff.1 hxy
    obtain ⟨d, hd, hxy⟩ := Option.bind_eq_some_iff.1 hxy
    obtain rfl := Option.some_inj.1 hxy
    exact ⟨k, x, b, i, y, d, hx, hb, rfl, hy, hd, rfl⟩
  · rintro ⟨k, x, b, i, y, d, hx, hb, hsrc, hy, hd, hdst⟩
    refine ⟨k, x, hx, i, y, hy, ?_⟩
    rw [hb, hd]
    exact congrArg some (Prod.ext hsrc hdst)

/-- Messages that are added one after the other. -/
theorem foldl_addMessage {γ : Type} (f : γ → OlsrEventMessage ws) (xs : List γ) (p : Plugin ws) :
    xs.foldl (fun p x => p.addMessage (f x)) p = { p with msgQueue_ := p.msgQueue_ ++ xs.map f } := by
  induction xs generalizing p with
  | nil => simp
  | cons x xs ih =>
    rw [List.foldl_cons, ih]
    simp [Plugin.addMessage]

theorem tc_send_all_data_eq (hsent : p.msgQueue_ = []) : p.tc_send_all_data S = { p with
    msgQueue_ := (Multigraph.transfer 1 (S.tc_set.map Prod.fst) S.edges S.aliases).map (tell Plugin.toLong) } := by
  have hnodes := foldl_addMessage fun tc : OlsrIpAddr × List OlsrIpAddr =>
    (.DEV_CMD_ADD_NODE (Plugin.toLong tc.1) : OlsrEventMessage ws)
  have hlinks := foldl_addMessage fun e : OlsrIpAddr × OlsrIpAddr =>
    (.DEV_CMD_ADD_LINK (Plugin.toLong e.1) (Plugin.toLong e.2) 1 : OlsrEventMessage ws)
  have haliases := foldl_addMessage fun m : OlsrIpAddr × OlsrIpAddr =>
    (.DEV_CMD_ADD_ALIAS (Plugin.toLong m.1) (Plugin.toLong m.2) : OlsrEventMessage ws)
  simp only [Plugin.tc_send_all_data, Plugin.dev_add_node, Plugin.dev_add_link, Plugin.dev_add_alias, hnodes, hlinks,
    haliases, hsent, Multigraph.transfer, List.map_append, List.map_map, List.nil_append]
  rfl

/-- The first messages at a connection are a reset and the addresses of the interfaces. -/
theorem dev_send_init_eq (hsent : p.msgQueue_ = []) (conf : OlsrConfig) (mask : OlsrIpAddr) : ∃ locals,
    (∀ m ∈ locals, setsLocal m = true) ∧
      p.dev_send_init conf mask = { p with msgQueue_ := .DEV_CMD_RESET_TC :: locals } := by
  have hfold : ∀ (ifs : List Interface) (q : Plugin ws) (ms : List (OlsrEventMessage ws)),
      q.msgQueue_ = .DEV_CMD_RESET_TC :: ms → (∀ m ∈ ms, setsLocal m = true) → ∃ locals,
        (∀ m ∈ locals, setsLocal m = true) ∧ ifs.foldl (fun p ifs => if conf.main_addr = ifs.ip_addr then p
          else p.dev_set_alias_addr ifs.ip_addr ifs.int_netmask) q =
            { q with msgQueue_ := .DEV_CMD_RESET_TC :: locals } := by
    intro ifs
    induction ifs with
    | nil => exact fun q ms hq hms => ⟨ms, hms, by rw [← hq]; rfl⟩
    | cons i ifs ih =>
      intro q ms hq hms
      rw [List.foldl_cons]
      split
      · exact ih q ms hq hms
      · refine ih _ (ms ++ [.DEV_CMD_SET_ALIAS_ADDR (Plugin.toLong i.ip_addr) (Plugin.toLong i.int_netmask)]) ?_ ?_
        · simp [Plugin.dev_set_alias_addr, Plugin.addMessage, hq]
        · intro m hm
          rcases List.mem_append.1 hm with hm | hm
          · exact hms m hm
          · rw [List.mem_singleton.1 hm]
            rfl
  obtain ⟨locals, hlocals, heq⟩ := hfold conf.ifnet _
    [.DEV_CMD_SET_LOCAL_ADDR (Plugin.toLong conf.main_addr) (Plugin.toLong (conf.mainMask mask))]
    (show ((p.addMessage .DEV_CMD_RESET_TC).dev_set_local_addr conf.main_addr (conf.mainMask mask)).msgQueue_ = _ by
      simp [Plugin.dev_set_local_addr, Plugin.addMessage, hsent])
    (by simp [setsLocal])
  exact ⟨locals, hlocals, heq⟩

/-! ### Runs -/

/-- The daemon has the nodes and the links of the copy, and no other aliases. -/
def Copy.TrackedBy (X : Copy) (h : Store ws) : Prop :=
  ∃ G, Keeps Plugin.toLong h G ∧ G.Tracks 4 (keys X.nodes) (keys X.links) (keys X.mids)

/-- A daemon takes the messages of a round. -/
theorem Copy.TrackedBy.renewal {h : Store ws} (hX : X.TrackedBy h)
    (hapart : Multigraph.Apart (fun a => Plugin.toLong a ∈ h.nodeAddrs ∨ a ∈ endpoints (S.accepted ifnet))
      (keys X.mids) S.aliases) {gone : List (Multigraph.Update OlsrIpAddr ℤ)}
    (hgone : ∀ u, u ∈ gone ↔ Multigraph.Dropped (keys (reset X.nodes)) (keys (reset X.links)) (keys (reset X.mids))
      (endpoints (S.accepted ifnet)) (S.accepted ifnet) S.aliases u) : ∃ h',
    handleReads h ((Multigraph.additions (1 : ℤ) (reset X.nodes) (reset X.links) (S.accepted ifnet) ++
      (newcomers (reset X.mids) S.aliases).map (fun q : OlsrIpAddr × OlsrIpAddr => Multigraph.Update.addAlias q.1 q.2) ++
        gone).map (tell Plugin.toLong)) = some h' ∧ (X.check ifnet S).TrackedBy h' := by
  obtain ⟨G, hG, htracks⟩ := hX
  have hK : (fun a => Plugin.toLong a ∈ h.nodeAddrs ∨ a ∈ endpoints (S.accepted ifnet)) =
      fun a => a ∈ G.nodes ∨ a ∈ endpoints (S.accepted ifnet) :=
    funext fun a => propext (or_congr_left (hG.mem_nodeAddrs (toLong_injective ws)))
  rw [hK] at hapart
  -- the marks are reset when the round begins
  rw [← keys_reset (l := X.nodes), ← keys_reset (l := X.links), ← keys_reset (l := X.mids)] at htracks
  rw [← keys_reset (l := X.mids)] at hapart
  have hlinks : ∀ e, e ∈ keys (X.check ifnet S).links ↔ e ∈ S.accepted ifnet := fun e => mem_renew
  obtain ⟨H, hH, htracks', -⟩ :=
    htracks.renewal (c := 1) (fun a => mem_endpoints) hlinks (fun q => mem_mids_check_reset) hapart hgone
  obtain ⟨h', hrun, hG'⟩ := hG.handleReads (toLong_injective ws) hH
  exact ⟨h', hrun, H, hG', htracks'.congr fun a => mem_renew⟩

/-- A daemon is reset and told the sets of olsrd. -/
theorem Copy.TrackedBy.transfer {h : Store ws} {g : Shape ws} (hw : WeakRep h g)
    {locals : List (OlsrEventMessage ws)} (hlocals : ∀ m ∈ locals, setsLocal m = true)
    (hagrees : Multigraph.Agrees (keys X.nodes) (keys X.links) (keys X.mids) (S.tc_set.map Prod.fst) S.edges S.aliases)
    (hends : ∀ e ∈ keys X.links, e.1 ∈ keys X.nodes ∧ e.2 ∈ keys X.nodes) : ∃ h₁ h₂,
    handleReads h (.DEV_CMD_RESET_TC :: locals) = some h₁ ∧
      handleReads h₁ ((Multigraph.transfer 1 (S.tc_set.map Prod.fst) S.edges S.aliases).map (tell Plugin.toLong)) =
        some h₂ ∧ X.TrackedBy h₂ := by
  obtain ⟨h₁, hrun₁, hempty⟩ := reset_keeps hw hlocals
  obtain ⟨H, hH, htracks⟩ := hagrees.leads_transfer (c := (1 : ℤ)) (k := 4) hends
  have hkeeps : Keeps Plugin.toLong h₁ (Multigraph.empty : Multigraph OlsrIpAddr ℤ) := hempty
  obtain ⟨h₂, hrun₂, hG⟩ := hkeeps.handleReads (toLong_injective ws) hH
  exact ⟨h₁, h₂, hrun₁, hrun₂, H, hG, htracks⟩

namespace Olsrd

variable {s s' : Olsrd ws} {conf : OlsrConfig}

/-- The plugin holds a copy with the ends of its links, and every daemon has the nodes and the links of the copy. -/
structure Serves (conf : OlsrConfig) (X : Copy) (s : Olsrd ws) : Prop where
  shows : ∃ T, Shows conf.localAddrs s.plugin T X
  sent : s.plugin.msgQueue_ = []
  ends : ∀ e ∈ keys X.links, e.1 ∈ keys X.nodes ∧ e.2 ∈ keys X.nodes
  daemons : ∀ h ∈ s.daemons, X.TrackedBy h

theorem serves_init : (init S : Olsrd ws).Serves conf Copy.empty :=
  ⟨⟨_, shows_init⟩, rfl, fun _ he => (List.not_mem_nil he).elim, fun _ hh => (List.not_mem_nil hh).elim⟩

/-- Every daemon takes the messages of the queue. -/
theorem dev_send_spec {P : Store ws → Prop}
    (h : ∀ d ∈ s.daemons, ∃ d', handleReads d s.plugin.msgQueue_ = some d' ∧ P d') : ∃ ds,
    s.dev_send = some { s with plugin := s.plugin.dev_send, daemons := ds } ∧ ∀ d ∈ ds, P d := by
  obtain ⟨ds, hds, hall⟩ := Fault.mapM_forall₂ (Q := fun _ d' => P d') h
  refine ⟨ds, ?_, Fault.forall_of_forall₂ hall fun _ _ hd => hd⟩
  rw [dev_send, hds]
  rfl

theorem Serves.olsrd_pcf_event (h : s.Serves conf X) (hok : s.agreed conf .olsrd_pcf_event = true) : ∃ s',
    s.olsrd_pcf_event conf = some s' ∧ s'.snapshot = s.snapshot ∧
      s'.Serves conf (X.check conf.localAddrs s.snapshot) := by
  obtain ⟨T, hT⟩ := h.shows
  rw [agreed, Bool.and_eq_true, List.all_eq_true, mids_eq hT] at hok
  obtain ⟨p', U, gone, hrun, hU, hqueue, hgone⟩ := hT.check_updates h.sent hok.1
  obtain ⟨ds, hsend, hds⟩ := dev_send_spec (s := { s with plugin := p' })
    (P := (X.check conf.localAddrs s.snapshot).TrackedBy) fun d hd => by
      have hapart := of_decide_eq_true (hok.2 d hd)
      simp only [Bool.or_eq_true, List.contains_iff_mem] at hapart
      rw [hqueue]
      exact (h.daemons d hd).renewal hapart hgone
  refine ⟨{ s with plugin := p'.dev_send, daemons := ds }, ?_, rfl, ⟨U, hU.dev_send⟩, rfl, fun e he => ?_, hds⟩
  · rw [Olsrd.olsrd_pcf_event, hrun, Option.bind_eq_bind, Option.bind_some, hsend]
  · have hmem := mem_renew.1 he
    exact ⟨mem_renew.2 (mem_endpoints.2 ⟨e, hmem, Or.inl rfl⟩), mem_renew.2 (mem_endpoints.2 ⟨e, hmem, Or.inr rfl⟩)⟩

theorem Serves.handleAccept (h : s.Serves conf X) {d : Store ws} {g : Shape ws} (hw : WeakRep d g) (mask : OlsrIpAddr)
    (hagrees : Multigraph.Agrees s.plugin.nodeAddrs s.plugin.linkAddrs (s.plugin.g_cur_mid_tc.map SerTcMid.pair)
      (s.snapshot.tc_set.map Prod.fst) s.snapshot.edges s.snapshot.aliases) : ∃ s',
    s.handleAccept conf mask d = some s' ∧ s'.Serves conf X := by
  obtain ⟨T, hT⟩ := h.shows
  obtain ⟨locals, hlocals, hinit⟩ := dev_send_init_eq h.sent conf mask
  rw [mids_eq hT] at hagrees
  replace hagrees := hagrees.congr (fun a => mem_nodeAddrs hT) fun e => mem_linkAddrs hT
  -- every daemon is reset, the old ones too
  have hweak : ∀ d' ∈ s.daemons ++ [d], ∃ g', WeakRep d' g' := by
    intro d' hd'
    rcases List.mem_append.1 hd' with hd' | hd'
    · obtain ⟨G, ⟨g', hr, -, -⟩, -⟩ := h.daemons d' hd'
      exact ⟨g', hr.weak⟩
    · rw [List.mem_singleton.1 hd']
      exact ⟨g, hw⟩
  have hfirst : (s.plugin.dev_send_init conf mask).msgQueue_ = .DEV_CMD_RESET_TC :: locals :=
    congrArg Plugin.msgQueue_ hinit
  obtain ⟨ds, hsend, hds⟩ := dev_send_spec
    (s := { s with plugin := s.plugin.dev_send_init conf mask, daemons := s.daemons ++ [d] })
    (P := fun h₁ => ∃ h₂, handleReads h₁ ((Multigraph.transfer 1 (s.snapshot.tc_set.map Prod.fst) s.snapshot.edges
      s.snapshot.aliases).map (tell Plugin.toLong)) = some h₂ ∧ X.TrackedBy h₂) fun d' hd' => by
    obtain ⟨g', hw'⟩ := hweak d' hd'
    obtain ⟨h₁, h₂, hrun₁, hrun₂, htracks⟩ := Copy.TrackedBy.transfer hw' hlocals hagrees h.ends
    exact ⟨h₁, (congrArg (handleReads d') hfirst).trans hrun₁, h₂, hrun₂, htracks⟩
  rw [hinit] at hsend
  have hsecond : (s.plugin.dev_send.tc_send_all_data s.snapshot).msgQueue_ = _ :=
    congrArg Plugin.msgQueue_ (tc_send_all_data_eq rfl)
  obtain ⟨ds', hsend', hds'⟩ := dev_send_spec
    (s := { s with plugin := s.plugin.dev_send.tc_send_all_data s.snapshot, daemons := ds })
    (P := X.TrackedBy) fun d' hd' => by
    obtain ⟨h₂, hrun₂, htracks⟩ := hds d' hd'
    exact ⟨h₂, (congrArg (handleReads d') hsecond).trans hrun₂, htracks⟩
  refine ⟨{ s with plugin := s.plugin.dev_send, daemons := ds' }, ?_, ⟨T, hT.dev_send⟩, rfl, h.ends, hds'⟩
  rw [tc_send_all_data_eq rfl] at hsend'
  rw [Olsrd.handleAccept, hinit, hsend, Option.bind_eq_bind, Option.bind_some]
  have hplugin : { s.plugin with msgQueue_ := .DEV_CMD_RESET_TC :: locals }.dev_send = s.plugin.dev_send := rfl
  rw [hplugin, tc_send_all_data_eq rfl, hsend']
  rfl

theorem Serves.step (h : s.Serves conf X) {e : OlsrdEvent ws} (hok : s.agreed conf e = true) : ∃ s',
    s.step conf e = some s' ∧ ∃ Y, s'.Serves conf Y := by
  cases e with
  | change S => exact ⟨_, rfl, X, h.shows, h.sent, h.ends, h.daemons⟩
  | olsrd_pcf_event =>
    obtain ⟨s', hrun, -, hs'⟩ := h.olsrd_pcf_event hok
    exact ⟨s', hrun, _, hs'⟩
  | handleAccept history mask =>
    rw [agreed, Bool.and_eq_true, Option.isSome_iff_exists, decide_eq_true_eq] at hok
    obtain ⟨⟨d, hd⟩, hagrees⟩ := hok
    obtain ⟨g, hw⟩ := WeakRep.init.handleReads hd
    obtain ⟨s', hrun, hs'⟩ := h.handleAccept hw mask hagrees
    refine ⟨s', ?_, X, hs'⟩
    rw [Olsrd.step, hd, Option.bind_eq_bind, Option.bind_some, hrun]
  | unsubscribe i =>
    exact ⟨_, rfl, X, h.shows, h.sent, h.ends, fun d hd => h.daemons d (List.mem_of_mem_eraseIdx hd)⟩

theorem Serves.converged (h : s.Serves conf (X.check conf.localAddrs s.snapshot)) : s.Converged conf := by
  obtain ⟨T, hT⟩ := h.shows
  refine ⟨fun a b => ?_, fun d hd a b => ?_, fun d hd => ?_⟩
  · rw [hT.hasLink_iff, Copy.check, mem_renew, mem_accepted]
  · obtain ⟨G, hG, htracks⟩ := h.daemons d hd
    rw [hG.hasLink_iff, Prod.exists]
    refine exists_congr fun x => exists_congr fun y => and_congr_left' ?_
    rw [hT.hasLink_iff, htracks.links]
  · obtain ⟨G, hG, htracks⟩ := h.daemons d hd
    exact hG.linksOnce (toLong_injective ws) htracks.once

end Olsrd

/-- In every run where the sets of olsrd agree with the plugin at every connection and no address is shared, every
daemon has the links of the plugin after every event of olsrd. -/
theorem daemons_converge (conf : OlsrConfig) (S : Snapshot) (es : List (OlsrdEvent ws))
    (hes : Simulation.guarded (Olsrd.step conf) (Olsrd.agreed conf) (Olsrd.init S) (es ++ [.olsrd_pcf_event]) = true) :
    ∃ s, Olsrd.run conf S (es ++ [.olsrd_pcf_event]) = some s ∧ s.Converged conf := by
  obtain ⟨s, hrun, X, hs⟩ := Simulation.guarded_invariant (P := fun s : Olsrd ws => ∃ X, s.Serves conf X)
    (fun s e h hok => h.elim fun X hX => hX.step hok) ⟨_, Olsrd.serves_init⟩ es (Simulation.guarded_append hes)
  have hlast := Simulation.guarded_of_append hes hrun
  rw [Simulation.guarded, Bool.and_eq_true] at hlast
  obtain ⟨s', hrun', hsame, hs'⟩ := hs.olsrd_pcf_event hlast.1
  refine ⟨s', ?_, (hsame ▸ hs').converged⟩
  rw [Olsrd.run, List.foldlM_append, hrun, Option.bind_eq_bind, Option.bind_some, List.foldlM_cons, Olsrd.step, hrun']
  rfl

/-- A daemon with an old node connects, and later a link comes. -/
theorem daemons_converge_demo : ∃ s : Olsrd .ilp32, Olsrd.run ⟨9, [⟨9, 255⟩]⟩ (.remote [] [])
    ([.change (.remote [(1, [2]), (2, [1])] [(1, [7])]), .olsrd_pcf_event, .handleAccept [.DEV_CMD_ADD_NODE 5] 0,
      .change (.remote [(1, [2, 3]), (2, [1])] [])] ++ [.olsrd_pcf_event]) = some s ∧ s.Converged ⟨9, [⟨9, 255⟩]⟩ :=
  daemons_converge _ _ _ (by decide +kernel)

/-- The address 2 has no TC entry: at the connection the daemon refuses the link to it, and the link is not sent
again. -/
theorem link_before_node : ∃ s : Olsrd .ilp32, Olsrd.run ⟨9, [⟨9, 255⟩]⟩ (.remote [] [])
    ([.change (.remote [(1, [2])] []), .olsrd_pcf_event, .handleAccept [] 0] ++ [.olsrd_pcf_event]) = some s ∧
      ¬ s.Converged ⟨9, [⟨9, 255⟩]⟩ := by
  have hprobe : (Olsrd.run ⟨9, [⟨9, 255⟩]⟩ (.remote [] []) ([.change (.remote [(1, [2])] []), .olsrd_pcf_event,
      .handleAccept [] 0] ++ [.olsrd_pcf_event])).any (fun s : Olsrd .ilp32 => s.snapshot.edges = [(1, 2)] ∧
        s.daemons.any fun d => d.node_lst.head () = some 0 ∧ d.node_lst.next 0 = none ∧ d.src.head 0 = none) =
          true := by
    decide +kernel
  obtain ⟨s, hs, hprobe⟩ := (Option.any_eq_true _ _).1 hprobe
  obtain ⟨hedges, hdaemon⟩ := of_decide_eq_true hprobe
  obtain ⟨d, hd, hdaemon⟩ := List.any_eq_true.1 hdaemon
  obtain ⟨hhead, hnext, hlink⟩ := of_decide_eq_true hdaemon
  refine ⟨s, hs, fun hconv => ?_⟩
  have hplugin : s.plugin.HasLink 1 2 :=
    (hconv.accepted 1 2).2 ⟨by simp [hedges], fun hlocal => by simp [OlsrConfig.localAddrs] at hlocal⟩
  obtain ⟨link, n, -, -, hn, -, hsrc, -⟩ := (hconv.links d hd 1 2).2 ⟨1, 2, hplugin, rfl, rfl⟩
  -- the only node of the daemon has no link
  have honly : n = 0 := by
    clear hsrc
    induction hn with
    | head hx => exact Option.some_inj.1 (hx.symm.trans hhead)
    | next _ hy ih =>
      subst ih
      cases hy.symm.trans hnext
  subst honly
  have hnone : ∀ x, ¬ d.src.Reach 0 x := by
    intro x hx
    induction hx with
    | head hx => cases hx.symm.trans hlink
    | next _ _ ih => exact ih
  exact hnone link hsrc

end MpOlsr
