import MpOlsr.Olsr.Node

/-!
# Flooding

A network of olsrd nodes.  A packet that a node has sent may reach any node any number of times, in any order and as
late as it likes, or never.  Whatever is sent consists of messages that some node originated, unchanged but for the time
to live and the hop count, which add up to the time to live at the origin (`messages_authentic`).  A node forwards a
message at most twice, and twice only if it is the first one of its originator that it has heard
(`forwarded_at_most_twice`).
-/

namespace MpOlsr

open Buffer Bytes

structure OlsrNet (σ : Type) where
  nodes : List (OlsrCnf × OlsrRouter σ)
  /-- the messages originated so far -/
  originated : List OlsrMsg

/-- What can happen. -/
inductive FloodEvent (σ : Type) where
  /-- the packet `k` that the node `j` has sent reaches the node `i`, with these bytes behind it in the input buffer -/
  | receive (i j k : ℕ) (now : ℤ) (stale : List Byte)
  /-- the buffer of the interface `a` is sent -/
  | output (i a : ℕ)
  /-- a node puts a message of its own in the buffer of an interface -/
  | originate (i a : ℕ) (m : OlsrMsg)
  /-- the tables of a node change -/
  | tables (i : ℕ) (t : σ)
  | cleanup (i : ℕ) (now : ℤ)

namespace OlsrRouter

variable {σ : Type}

/-- The interface `a` is sent. -/
def output (node : OlsrRouter σ) (a : ℕ) : Option (OlsrRouter σ) := do
  let ifp ← node.interfaces[a]?
  let (ifp', packets) := ifp.net_output
  return { node with
    interfaces := node.interfaces.set a ifp'
    sent := node.sent ++ packets.map fun p => (ifp.ip_addr, p) }

def originate (node : OlsrRouter σ) (a : ℕ) (m : OlsrMsg) : Option (OlsrRouter σ) := do
  let ifp ← node.interfaces[a]?
  return { node with interfaces := node.interfaces.set a (ifp.net_outbuffer_push m.bytes).1 }

def cleanup (vtime : ℤ) (node : OlsrRouter σ) (now : ℤ) : OlsrRouter σ :=
  { node with dup := node.dup.step vtime (.cleanup now), heard := node.heard ++ [.cleanup now] }

end OlsrRouter

namespace OlsrNet

variable {σ : Type}

/-- One node changes. -/
def update (s : OlsrNet σ) (i : ℕ) (f : OlsrCnf → OlsrRouter σ → Option (OlsrRouter σ)) : Option (OlsrNet σ) := do
  let (cnf, node) ← s.nodes[i]?
  let node ← f cnf node
  return { s with nodes := s.nodes.set i (cnf, node) }

def step (T : OlsrTables σ) (s : OlsrNet σ) : FloodEvent σ → Option (OlsrNet σ)
  | .receive i j k now stale => do
    let (_, sender) ← s.nodes[j]?
    let (from_addr, packet) ← sender.sent[k]?
    s.update i fun cnf node => node.olsr_input T cnf now from_addr packet stale
  | .output i a => s.update i fun _ node => node.output a
  | .originate i a m => do
    let (cnf, _) ← s.nodes[i]?
    let m := { m with originator := cnf.main_addr, hopcnt := 0 }
    let s := { s with originated := s.originated ++ [m] }
    s.update i fun _ node => node.originate a m
  | .tables i t => s.update i fun _ node => some { node with tables := t }
  | .cleanup i now => s.update i fun cnf node => some (node.cleanup cnf.vtime now)

/-- The nodes, the interfaces and the packets exist, and the size of a message that is originated is a 16-bit
number. -/
def enabled (s : OlsrNet σ) : FloodEvent σ → Bool
  | .receive i j k _ _ => i < s.nodes.length && s.nodes[j]?.any fun n => k < n.2.sent.length
  | .output i a => s.nodes[i]?.any fun n => a < n.2.interfaces.length
  | .originate i a m => (s.nodes[i]?.any fun n => a < n.2.interfaces.length) && m.olsr_msgsize < 65536
  | .tables i _ => i < s.nodes.length
  | .cleanup i _ => i < s.nodes.length

def run (T : OlsrTables σ) (s : OlsrNet σ) (es : List (FloodEvent σ)) : Option (OlsrNet σ) := es.foldlM (step T) s

end OlsrNet

/-- A node with empty buffers that has heard nothing; the packets of its interfaces have a 16-bit length. -/
structure OlsrRouter.Fresh {σ : Type} (node : OlsrRouter σ) : Prop where
  dup : node.dup = Duplicates.init
  heard : node.heard = []
  forwarded : node.forwarded = []
  sent : node.sent = []
  buffers : ∀ ifp ∈ node.interfaces, ifp.pending = [] ∧ ifp.maxsize < 65532

/-- `m` is the message `m₀` after `k` hops. -/
structure OlsrMsg.HopsFrom (m₀ : OlsrMsg) (k : ℕ) (m : OlsrMsg) : Prop where
  same : m = { m₀ with ttl := m.ttl, hopcnt := m.hopcnt }
  ttl : m.ttl.toNat + k = m₀.ttl.toNat
  hopcnt : m.hopcnt.toNat = k
  alive : k = 0 ∨ 1 ≤ m.ttl.toNat

/-- The message goes back to one of the messages originated. -/
def OlsrMsg.Authentic (originated : List OlsrMsg) (m : OlsrMsg) : Prop :=
  m.Fits ∧ ∃ m₀ ∈ originated, ∃ k, m₀.HopsFrom k m

namespace OlsrMsg

variable {originated originated' : List OlsrMsg} {m m₀ : OlsrMsg} {k : ℕ}

theorem HopsFrom.hop (h : m₀.HopsFrom k m) (halive : m.Alive) : m₀.HopsFrom (k + 1) m.hop := by
  obtain ⟨hlow, hsum⟩ := halive
  have hone : (1 : Byte).toNat = 1 := rfl
  have httl : m.hop.ttl.toNat = m.ttl.toNat - 1 := by
    rw [OlsrMsg.hop, BitVec.toNat_sub_of_le (by rw [BitVec.le_def, hone]; omega), hone]
  have hhopcnt : m.hop.hopcnt.toNat = m.hopcnt.toNat + 1 := by
    rw [OlsrMsg.hop, BitVec.toNat_add, hone]
    exact Nat.mod_eq_of_lt (by omega)
  have hold := h.ttl
  refine ⟨?_, by omega, by rw [hhopcnt, h.hopcnt], Or.inr (by omega)⟩
  rw [OlsrMsg.hop, h.same]

theorem Authentic.hop (h : m.Authentic originated) (halive : m.Alive) : m.hop.Authentic originated := by
  obtain ⟨hfits, m₀, hm₀, k, hk⟩ := h
  exact ⟨hfits, m₀, hm₀, k + 1, hk.hop halive⟩

theorem Authentic.mono (h : m.Authentic originated) (hsub : originated ⊆ originated') : m.Authentic originated' := by
  obtain ⟨hfits, m₀, hm₀, hk⟩ := h
  exact ⟨hfits, m₀, hsub hm₀, hk⟩

end OlsrMsg

namespace OlsrRouter

variable {σ : Type} {originated originated' : List OlsrMsg} {cnf : OlsrCnf} {node node' : OlsrRouter σ} {m : OlsrMsg}

/-- What holds of a node in every run. -/
structure Good (originated : List OlsrMsg) (cnf : OlsrCnf) (node : OlsrRouter σ) : Prop where
  dup : node.dup = Duplicates.run cnf.vtime node.heard
  forwarded : node.forwarded.Sublist node.dup.processed
  buffers : ∀ ifp ∈ node.interfaces, ifp.maxsize < 65532 ∧
    ∃ group, ifp.Filled group ∧ ∀ m ∈ group, m.Authentic originated
  sent : ∀ p ∈ node.sent, ∃ seqnum ms, p.2 = packetOf seqnum ms ∧ p.2.length < 65536 ∧
    ∀ m ∈ ms, m.Authentic originated

theorem Fresh.good (h : node.Fresh) : node.Good originated cnf where
  dup := by rw [h.dup, h.heard]; rfl
  forwarded := by rw [h.forwarded]; exact List.nil_sublist _
  buffers ifp hifp := ⟨(h.buffers ifp hifp).2, [], ⟨(h.buffers ifp hifp).1, Or.inl rfl⟩,
    fun _ hm => absurd hm List.not_mem_nil⟩
  sent p hp := by
    rw [h.sent] at hp
    exact absurd hp List.not_mem_nil

theorem Good.mono (h : node.Good originated cnf) (hsub : originated ⊆ originated') : node.Good originated' cnf where
  dup := h.dup
  forwarded := h.forwarded
  buffers ifp hifp := by
    obtain ⟨hmax, group, hfilled, hgroup⟩ := h.buffers ifp hifp
    exact ⟨hmax, group, hfilled, fun m hm => (hgroup m hm).mono hsub⟩
  sent p hp := by
    obtain ⟨seqnum, ms, hpacket, hlength, hms⟩ := h.sent p hp
    exact ⟨seqnum, ms, hpacket, hlength, fun m hm => (hms m hm).mono hsub⟩

/-- A buffer changes; what it sends and what it keeps are messages that were there. -/
theorem good_sends {ifp ifp' : OlsrInterface} {packets : List (List Byte)} {group group' : List OlsrMsg}
    {groups : List (BitVec 16 × List OlsrMsg)} (h : OlsrInterface.Sends ifp ifp' packets group groups group')
    (hmax : ifp.maxsize < 65532) (hgroup : ∀ m ∈ group, m.Authentic originated) :
    (ifp'.maxsize < 65532 ∧ ∃ group, ifp'.Filled group ∧ ∀ m ∈ group, m.Authentic originated) ∧
      ∀ p ∈ packets, ∃ seqnum ms, p = packetOf seqnum ms ∧ p.length < 65536 ∧ ∀ m ∈ ms, m.Authentic originated := by
  rw [← h.messages] at hgroup
  refine ⟨⟨h.maxsize ▸ hmax, group', h.filled, fun m hm => hgroup m (List.mem_append_right _ hm)⟩, fun p hp => ?_⟩
  rw [h.packets] at hp
  obtain ⟨g, hg, rfl⟩ := List.mem_map.1 hp
  refine ⟨g.1, g.2, rfl, ?_, fun m hm => hgroup m (List.mem_append_left _ (List.mem_flatMap.2 ⟨g, hg, hm⟩))⟩
  have hroom := h.room g hg
  rw [length_packetOf, OLSR_HEADERSIZE]
  omega

/-- A message is put in all buffers. -/
theorem Good.bufferAll (h : node.Good originated cnf) (hm : m.Authentic originated) :
    (∀ ifp ∈ (node.bufferAll m.bytes).interfaces, ifp.maxsize < 65532 ∧
      ∃ group, ifp.Filled group ∧ ∀ m ∈ group, m.Authentic originated) ∧
    ∀ p ∈ (node.bufferAll m.bytes).sent, ∃ seqnum ms, p.2 = packetOf seqnum ms ∧ p.2.length < 65536 ∧
      ∀ m ∈ ms, m.Authentic originated := by
  have hone : ∀ ifp ∈ node.interfaces, ∃ group groups group',
      OlsrInterface.Sends ifp (ifp.buffer m.bytes).1 (ifp.buffer m.bytes).2 group groups group' ∧
        ifp.maxsize < 65532 ∧ ∀ m ∈ group, m.Authentic originated := by
    intro ifp hifp
    obtain ⟨hmax, group, hfilled, hgroup⟩ := h.buffers ifp hifp
    obtain ⟨groups, group', hsends⟩ := hfilled.buffer m
    refine ⟨_, groups, group', hsends, hmax, fun m' hm' => ?_⟩
    rcases List.mem_append.1 hm' with hm' | hm'
    · exact hgroup m' hm'
    · split at hm'
      · exact List.mem_singleton.1 hm' ▸ hm
      · exact absurd hm' List.not_mem_nil
  constructor
  · intro ifp' hifp'
    obtain ⟨ifp, hifp, rfl⟩ := List.mem_map.1 hifp'
    obtain ⟨group, groups, group', hsends, hmax, hgroup⟩ := hone ifp hifp
    exact (good_sends hsends hmax hgroup).1
  · intro p hp
    rcases List.mem_append.1 hp with hp | hp
    · exact h.sent p hp
    · obtain ⟨ifp, hifp, hp⟩ := List.mem_flatMap.1 hp
      obtain ⟨packet, hpacket, rfl⟩ := List.mem_map.1 hp
      obtain ⟨group, groups, group', hsends, hmax, hgroup⟩ := hone ifp hifp
      exact (good_sends hsends hmax hgroup).2 packet hpacket

theorem processed_subset (vtime : ℤ) (d : Duplicates) (e : DupEvent) :
    d.processed.Sublist (d.step vtime e).processed := by
  cases e with
  | message now ip seqnr =>
    rw [Duplicates.step]
    dsimp only
    split
    · exact List.sublist_append_left _ _
    · exact List.Sublist.refl _
  | cleanup now => exact List.Sublist.refl _

/-- A message is handled. -/
theorem Good.handles (h : node.Good originated cnf) (hm : m.Authentic originated) {now : ℤ} {m' : OlsrMsg}
    (hhandles : Handles cnf.vtime now m node node' m') : node'.Good originated cnf := by
  cases hhandles with
  | ignored hnode => exact hnode ▸ h
  | heard hdup hheard hcases =>
    have hrun : node'.dup = Duplicates.run cnf.vtime node'.heard := by
      rw [hdup, hheard, Duplicates.run, List.foldl_append, h.dup]
      rfl
    have hsublist := h.forwarded.trans (processed_subset cnf.vtime node.dup (.message now m.originator m.seqno))
    rcases hcases with ⟨-, hinterfaces, hsent, hforwarded⟩ | ⟨-, halive, hinterfaces, hsent, hforwarded, hprocessed⟩
    · exact ⟨hrun, by rw [hforwarded, hdup]; exact hsublist, hinterfaces ▸ h.buffers, hsent ▸ h.sent⟩
    · obtain ⟨hbuffers, hpackets⟩ := h.bufferAll (hm.hop halive)
      refine ⟨hrun, ?_, hinterfaces ▸ hbuffers, hsent ▸ hpackets⟩
      rw [hforwarded, hprocessed]
      exact h.forwarded.append (List.Sublist.refl _)

/-- A packet that is longer than the input buffer is cut, and ignored. -/
theorem parse_packet_cut {τ : Type} (handle : τ → List Byte → Option (τ × List Byte × Bool)) {fuel : ℕ} {s : τ}
    {seqnum : BitVec 16} {ms : List OlsrMsg} (hlength : (packetOf seqnum ms).length < 65536)
    (hlong : 1501 < (packetOf seqnum ms).length) (stale : List Byte) :
    parse_packet handle fuel s ((packetOf seqnum ms).take 1501 ++ stale) 1501 = some s := by
  have hpacklen : loadBe16 ((packetOf seqnum ms).take 1501 ++ stale) 0 = some (packetOf seqnum ms).length := by
    refine loadBe16_eq (a := []) (c := (be16 seqnum.toNat ++ ms.flatMap OlsrMsg.bytes).take 1499 ++ stale) ?_ rfl hlength
    rw [length_packetOf]
    rfl
  rw [parse_packet, if_neg (by decide), Fault.bind_of_some hpacklen, if_pos hlong.ne']
  rfl

theorem Good.olsr_input {T : OlsrTables σ} (h : node.Good originated cnf) (now : ℤ) (from_addr : OlsrIpAddr)
    {seqnum : BitVec 16} {ms : List OlsrMsg} (hlength : (packetOf seqnum ms).length < 65536)
    (hms : ∀ m ∈ ms, m.Authentic originated) (stale : List Byte) : ∃ node',
    node.olsr_input T cnf now from_addr (packetOf seqnum ms) stale = some node' ∧ node'.Good originated cnf := by
  rw [OlsrRouter.olsr_input]
  split
  · exact ⟨node, rfl, h⟩
  · dsimp only
    rcases Nat.lt_or_ge 1501 (packetOf seqnum ms).length with hlong | hshort
    · have htake : ((packetOf seqnum ms).take 1501).length = 1501 := by
        rw [List.length_take]
        omega
      rw [htake]
      exact ⟨node, parse_packet_cut _ hlength hlong stale, h⟩
    · rw [List.take_of_length_le hshort]
      obtain ⟨done, node', hrun, -, hgood, -⟩ := parse_packet_spec
        (fun node m => OlsrRouter.parseMessage T cnf node now from_addr m)
        (fun _ node => node.Good originated cnf) (fun _ => True) (fun m hm => (hms m hm).1)
        (fun done m later node rest hsplit hnode => by
          have hm := hms m (hsplit ▸ List.mem_append_right _ List.mem_cons_self)
          obtain ⟨node', m', stop, hrun, hsize, hhandles⟩ := parseMessage_spec T cnf node from_addr hm.1 now rest
          exact ⟨node', m', stop, hrun, hsize, fun _ => trivial, hnode.handles hm hhandles⟩)
        h seqnum hlength (Nat.lt_succ_self _) stale
      exact ⟨node', hrun, hgood⟩

theorem Good.output (h : node.Good originated cnf) {a : ℕ} (ha : a < node.interfaces.length) : ∃ node',
    node.output a = some node' ∧ node'.Good originated cnf := by
  have hifp := List.getElem?_eq_getElem ha
  obtain ⟨hmax, group, hfilled, hgroup⟩ := h.buffers _ (List.getElem_mem ha)
  obtain ⟨hbuffer, hpackets⟩ := good_sends hfilled.net_output hmax hgroup
  have hrun : node.output a = some { node with
      interfaces := node.interfaces.set a node.interfaces[a].net_output.1
      sent := node.sent ++ node.interfaces[a].net_output.2.map fun p => (node.interfaces[a].ip_addr, p) } := by
    rw [OlsrRouter.output, Fault.bind_of_some hifp]
    rfl
  refine ⟨_, hrun, h.dup, h.forwarded, fun ifp' hifp' => ?_, fun p hp => ?_⟩
  · rcases List.mem_or_eq_of_mem_set hifp' with hmem | rfl
    · exact h.buffers ifp' hmem
    · exact hbuffer
  · rcases List.mem_append.1 hp with hp | hp
    · exact h.sent p hp
    · obtain ⟨packet, hpacket, rfl⟩ := List.mem_map.1 hp
      exact hpackets packet hpacket

theorem Good.originate (h : node.Good originated cnf) {a : ℕ} (ha : a < node.interfaces.length)
    (hm : m.Authentic originated) : ∃ node', node.originate a m = some node' ∧ node'.Good originated cnf := by
  have hifp := List.getElem?_eq_getElem ha
  obtain ⟨hmax, group, hfilled, hgroup⟩ := h.buffers _ (List.getElem_mem ha)
  have hrun : node.originate a m = some { node with
      interfaces := node.interfaces.set a (node.interfaces[a].net_outbuffer_push m.bytes).1 } := by
    rw [OlsrRouter.originate, Fault.bind_of_some hifp]
    rfl
  refine ⟨_, hrun, h.dup, h.forwarded, fun ifp' hifp' => ?_, h.sent⟩
  rcases List.mem_or_eq_of_mem_set hifp' with hmem | rfl
  · exact h.buffers ifp' hmem
  · rcases hfilled.push m with ⟨-, hpush, hfilled'⟩ | ⟨-, hpush, -⟩
    · rw [hpush] at hfilled' ⊢
      refine ⟨hmax, group ++ [m], hfilled', fun m' hm' => ?_⟩
      rcases List.mem_append.1 hm' with hm' | hm'
      · exact hgroup m' hm'
      · exact List.mem_singleton.1 hm' ▸ hm
    · rw [hpush]
      exact ⟨hmax, group, hfilled, hgroup⟩

theorem Good.cleanup (h : node.Good originated cnf) (now : ℤ) : (node.cleanup cnf.vtime now).Good originated cnf := by
  refine ⟨?_, h.forwarded, h.buffers, h.sent⟩
  rw [OlsrRouter.cleanup, Duplicates.run, List.foldl_append, h.dup]
  rfl

end OlsrRouter

namespace OlsrNet

variable {σ : Type} {T : OlsrTables σ} {s : OlsrNet σ}

/-- All nodes are good. -/
def Good (s : OlsrNet σ) : Prop := ∀ n ∈ s.nodes, n.2.Good s.originated n.1

/-- One node changes, and stays good. -/
theorem Good.update (h : s.Good) {i : ℕ} (hi : i < s.nodes.length)
    {f : OlsrCnf → OlsrRouter σ → Option (OlsrRouter σ)}
    (hf : ∀ cnf node, s.nodes[i]? = some (cnf, node) → node.Good s.originated cnf → ∃ node', f cnf node = some node' ∧
      node'.Good s.originated cnf) : ∃ s', s.update i f = some s' ∧ s'.Good := by
  obtain ⟨cnf, node, hn⟩ : ∃ cnf node, s.nodes[i]? = some (cnf, node) := ⟨_, _, List.getElem?_eq_getElem hi⟩
  obtain ⟨node', hrun, hgood⟩ := hf cnf node hn (h _ (List.mem_of_getElem? hn))
  have hupdate : s.update i f = some { s with nodes := s.nodes.set i (cnf, node') } := by
    rw [OlsrNet.update, Fault.bind_of_some hn]
    dsimp only
    rw [Fault.bind_of_some hrun]
    rfl
  refine ⟨_, hupdate, fun n hn => ?_⟩
  rcases List.mem_or_eq_of_mem_set hn with hmem | rfl
  · exact h n hmem
  · exact hgood

theorem Good.step (h : s.Good) (e : FloodEvent σ) (he : s.enabled e = true) :
    ∃ s', s.step T e = some s' ∧ s'.Good := by
  cases e with
  | receive i j k now stale =>
    rw [enabled, Bool.and_eq_true, decide_eq_true_eq] at he
    obtain ⟨hi, hj⟩ := he
    obtain ⟨⟨cnf, sender⟩, hsender, hk⟩ := (Option.any_eq_true _ _).1 hj
    have hpacket := List.getElem?_eq_getElem (of_decide_eq_true hk)
    obtain ⟨seqnum, ms, heq, hlength, hms⟩ :=
      (h _ (List.mem_of_getElem? hsender)).sent _ (List.getElem_mem (of_decide_eq_true hk))
    rw [OlsrNet.step, Fault.bind_of_some hsender]
    dsimp only
    rw [Fault.bind_of_some hpacket]
    refine h.update hi fun cnf node _ hgood => ?_
    dsimp only
    rw [heq] at hlength ⊢
    exact hgood.olsr_input now _ hlength hms stale
  | output i a =>
    obtain ⟨⟨cnf, node⟩, hn, ha⟩ := (Option.any_eq_true _ _).1 he
    rw [OlsrNet.step]
    refine h.update (List.getElem?_eq_some_iff.1 hn).1 fun cnf' node' hn' hgood => ?_
    obtain rfl := (Prod.mk.inj (Option.some_inj.1 (hn.symm.trans hn'))).2
    exact hgood.output (of_decide_eq_true ha)
  | originate i a m =>
    rw [enabled, Bool.and_eq_true, decide_eq_true_eq] at he
    obtain ⟨⟨cnf, node⟩, hn, ha⟩ := (Option.any_eq_true _ _).1 he.1
    rw [OlsrNet.step, Fault.bind_of_some hn]
    dsimp only
    have hgrown : OlsrNet.Good { s with
        originated := s.originated ++ [{ m with originator := cnf.main_addr, hopcnt := 0 }] } :=
      fun n hn => (h n hn).mono (List.subset_append_left _ _)
    refine hgrown.update (List.getElem?_eq_some_iff.1 hn).1 fun cnf' node' hn' hgood => ?_
    obtain rfl := (Prod.mk.inj (Option.some_inj.1 (hn.symm.trans hn'))).2
    refine hgood.originate (of_decide_eq_true ha) ⟨he.2, _, List.mem_append_right _ (List.mem_singleton_self _), 0, ?_⟩
    exact ⟨rfl, rfl, rfl, Or.inl rfl⟩
  | tables i t =>
    rw [OlsrNet.step]
    exact h.update (of_decide_eq_true he) fun cnf node _ hgood =>
      ⟨{ node with tables := t }, rfl, hgood.dup, hgood.forwarded, hgood.buffers, hgood.sent⟩
  | cleanup i now =>
    exact h.update (of_decide_eq_true he) fun cnf node _ hgood => ⟨_, rfl, hgood.cleanup now⟩

theorem Good.run (T : OlsrTables σ) (nodes : List (OlsrCnf × OlsrRouter σ)) (hnodes : ∀ n ∈ nodes, n.2.Fresh)
    (es : List (FloodEvent σ)) (hes : Simulation.guarded (OlsrNet.step T) enabled ⟨nodes, []⟩ es = true) :
    ∃ s, OlsrNet.run T ⟨nodes, []⟩ es = some s ∧ s.Good :=
  Simulation.guarded_invariant (P := OlsrNet.Good) (fun _ e h he => h.step e he)
    (fun n hn => (hnodes n hn).good) es hes

/-- In every run a node forwards a message at most twice, as long as its entry for the originator neither times out nor
starts again and the numbers of the originator stay in one half of their range; it forwards a message twice only if it
is the first one of the originator that it has heard. -/
theorem forwarded_at_most_twice (T : OlsrTables σ) (nodes : List (OlsrCnf × OlsrRouter σ))
    (hnodes : ∀ n ∈ nodes, n.2.Fresh) (es : List (FloodEvent σ))
    (hes : Simulation.guarded (step T) enabled ⟨nodes, []⟩ es = true) :
    ∃ s, run T ⟨nodes, []⟩ es = some s ∧ ∀ (n : OlsrCnf × OlsrRouter σ) (originator : OlsrIpAddr) (base : ℕ),
      n ∈ s.nodes →
      Simulation.guarded (fun d e => some (Duplicates.step n.1.vtime d e)) (Duplicates.calm originator base)
        Duplicates.init n.2.heard = true →
      ∀ seqno, n.2.forwarded.count (originator, seqno) ≤
        if (n.2.dup.numbers originator).head? = some seqno then 2 else 1 := by
  obtain ⟨s, hrun, hgood⟩ := Good.run T nodes hnodes es hes
  refine ⟨s, hrun, fun n originator base hn hcalm seqno => ?_⟩
  have hknows := Duplicates.knows_run hcalm
  rw [← (hgood n hn).dup] at hknows
  exact ((hgood n hn).forwarded.count_le _).trans (hknows.count_le seqno)

/-! ### Two nodes -/

/-- Tables in which every neighbour is symmetric and has chosen the node as a relay. -/
def meshTables : OlsrTables Unit where
  mid_lookup_main_addr _ _ := none
  olsr_lookup_neighbor_table _ _ := some .SYM
  olsr_lookup_mprs_set _ _ := true
  olsr_input_hello _ _ _ := ()
  olsr_input_tc _ _ _ := ((), true)
  olsr_process_received_mid _ _ _ := ((), true)
  olsr_process_received_hna _ _ _ := ((), true)

def twoNodes : List (OlsrCnf × OlsrRouter Unit) :=
  [1, 2].map fun addr => (⟨addr, 0, [], 300, 255⟩, ⟨[⟨addr, 0, [], 1400⟩], .init, (), [], [], []⟩)

/-- The first node originates two messages, and its packet reaches the second one twice. -/
def twoNodesRun : List (FloodEvent Unit) :=
  [.originate 0 0 ⟨TC_MESSAGE, 0, 0, 255, 0, 1, [7, 0, 0, 0]⟩, .originate 0 0 ⟨MID_MESSAGE, 0, 0, 255, 0, 2, []⟩,
    .output 0 0, .receive 1 0 0 0 [], .receive 1 0 0 1 [], .output 1 0, .cleanup 1 2, .receive 0 1 0 3 []]

theorem fresh_twoNodes : ∀ n ∈ twoNodes, n.2.Fresh := by
  intro n hn
  obtain ⟨addr, -, rfl⟩ := List.mem_map.1 hn
  refine ⟨rfl, rfl, rfl, rfl, fun ifp hifp => ?_⟩
  rw [List.mem_singleton.1 hifp]
  exact ⟨rfl, by dsimp only; omega⟩

/-- The second node forwards the first message of the first one twice, and the second one once. -/
theorem forwarded_at_most_twice_demo :
    ((run meshTables ⟨twoNodes, []⟩ twoNodesRun).map fun s => s.nodes.map fun n => n.2.forwarded) =
      some [[], [(1, 1), (1, 2), (1, 1)]] ∧
    ∃ s, run meshTables ⟨twoNodes, []⟩ twoNodesRun = some s ∧
      ∀ (n : OlsrCnf × OlsrRouter Unit) (originator : OlsrIpAddr) (base : ℕ), n ∈ s.nodes →
        Simulation.guarded (fun d e => some (Duplicates.step n.1.vtime d e)) (Duplicates.calm originator base)
          Duplicates.init n.2.heard = true →
        ∀ seqno, n.2.forwarded.count (originator, seqno) ≤
          if (n.2.dup.numbers originator).head? = some seqno then 2 else 1 :=
  ⟨by decide +kernel, forwarded_at_most_twice meshTables twoNodes fresh_twoNodes twoNodesRun (by decide +kernel)⟩

end OlsrNet

end MpOlsr
