import MpOlsr.Plugin.Reset
import MpOlsr.Plugin.Sweeping

/-!
# A round of the plugin

A copy of the topology is a set of nodes, a set of links and a set of MID entries, with marks (`Copy`).  On the copies
`tc_check_data` is a round of mark and sweep, and the MID entries of a node that goes are removed (`Copy.check`).  The
tables follow the copy as long as in every chain the nodes that go are behind no other node (`tc_check_data_spec`).
-/

namespace MpOlsr

open DoublyLinked Records MarkSweep

variable {ws : WordSize} {ifnet : List OlsrIpAddr} {p p' : Plugin ws} {T U : Table} {S : Snapshot}

/-! ### MID entries -/

def SerTcMid.pair (m : SerTcMid) : OlsrIpAddr × OlsrIpAddr := (m.main_addr, m.alias_addr)

/-- The MID entries with their marks. -/
def midMarks (mids : List SerTcMid) : List ((OlsrIpAddr × OlsrIpAddr) × Bool) := mids.map fun m => (m.pair, m.is_active)

/-- The messages for new MID entries. -/
def aliasMessages (ws : WordSize) (ms : List (OlsrIpAddr × OlsrIpAddr)) : List (OlsrEventMessage ws) :=
  ms.map fun m => .DEV_CMD_ADD_ALIAS (Plugin.toLong m.1) (Plugin.toLong m.2)

/-- Other MID entries, and messages. -/
def Plugin.withMids (p : Plugin ws) (mids : List SerTcMid) (msgs : List (OlsrEventMessage ws)) : Plugin ws :=
  { p with g_cur_mid_tc := mids, msgQueue_ := p.msgQueue_ ++ msgs }

@[simp]
theorem Plugin.withMids_mids (mids : List SerTcMid) (msgs : List (OlsrEventMessage ws)) :
    (p.withMids mids msgs).g_cur_mid_tc = mids := rfl

@[simp]
theorem Plugin.withMids_withMids (mids mids' : List SerTcMid) (msgs msgs' : List (OlsrEventMessage ws)) :
    (p.withMids mids msgs).withMids mids' msgs' = p.withMids mids' (msgs ++ msgs') := by
  simp [withMids]

theorem aliasMessages_append (ms ms' : List (OlsrIpAddr × OlsrIpAddr)) :
    aliasMessages ws (ms ++ ms') = aliasMessages ws ms ++ aliasMessages ws ms' := List.map_append

theorem midMarks_cons (m : SerTcMid) (mids : List SerTcMid) :
    midMarks (m :: mids) = (m.pair, m.is_active) :: midMarks mids := rfl

theorem keys_midMarks {mids : List SerTcMid} : keys (midMarks mids) = mids.map SerTcMid.pair := by
  simp [keys, midMarks, Function.comp_def]

theorem midMarks_injective : Function.Injective midMarks := by
  refine List.map_injective_iff.2 fun m m' h => ?_
  cases m
  cases m'
  simp only [SerTcMid.pair, Prod.mk.injEq] at h
  simp [h]

theorem markMid_none {main alias_ : OlsrIpAddr} {mids : List SerTcMid} :
    Plugin.markMid main alias_ mids = none ↔ (main, alias_) ∉ mids.map SerTcMid.pair := by
  induction mids with
  | nil => simp [Plugin.markMid]
  | cons m mids ih =>
    rw [Plugin.markMid]
    split
    · next h => simp [SerTcMid.pair, h]
    · next h =>
      rw [Option.map_eq_none_iff, ih, List.map_cons, List.mem_cons, not_or, and_iff_right]
      intro heq
      exact h (Prod.mk.inj heq)

theorem markMid_some {main alias_ : OlsrIpAddr} {mids mids' : List SerTcMid} (hmids : (mids.map SerTcMid.pair).Nodup)
    (h : Plugin.markMid main alias_ mids = some mids') : midMarks mids' = touch (midMarks mids) (main, alias_) := by
  induction mids generalizing mids' with
  | nil => cases h
  | cons m mids ih =>
    rw [List.map_cons, List.nodup_cons] at hmids
    rw [Plugin.markMid] at h
    by_cases hm : main = m.main_addr ∧ alias_ = m.alias_addr
    · rw [if_pos hm] at h
      cases h
      have hpair : m.pair = (main, alias_) := by rw [SerTcMid.pair, hm.1, hm.2]
      rw [hpair] at hmids
      have hkeys : (main, alias_) ∈ keys (midMarks (m :: mids)) := by
        rw [keys_midMarks, List.map_cons, hpair]
        exact List.mem_cons_self
      rw [touch, if_pos hkeys, midMarks_cons, midMarks_cons, List.map_cons, if_pos hpair]
      congr 1
      · exact congrArg (·, true) hpair
      · exact (map_mark_of_notMem (keys_midMarks ▸ hmids.1)).symm
    · rw [if_neg hm] at h
      obtain ⟨mids'', hmids'', rfl⟩ := Option.map_eq_some_iff.1 h
      have hpair : m.pair ≠ (main, alias_) := fun heq =>
        hm ⟨(congrArg Prod.fst heq).symm, (congrArg Prod.snd heq).symm⟩
      have htail := ih hmids.2 hmids''
      have hmem : (main, alias_) ∈ keys (midMarks mids) := by
        rw [keys_midMarks]
        by_contra hnot
        rw [markMid_none.2 hnot] at hmids''
        cases hmids''
      have hmem' : (main, alias_) ∈ keys (midMarks (m :: mids)) := List.mem_cons_of_mem _ hmem
      rw [touch, if_pos hmem] at htail
      rw [touch, if_pos hmem']
      rw [midMarks_cons, midMarks_cons, htail, List.map_cons, if_neg hpair]

/-- A MID entry is touched. -/
theorem tc_addMid_spec (hmids : (p.g_cur_mid_tc.map SerTcMid.pair).Nodup) (main alias_ : OlsrIpAddr) : ∃ mids,
    p.tc_addMid main alias_ =
      p.withMids mids (aliasMessages ws (newcomers (midMarks p.g_cur_mid_tc) [(main, alias_)])) ∧
    midMarks mids = touch (midMarks p.g_cur_mid_tc) (main, alias_) := by
  cases hmark : Plugin.markMid main alias_ p.g_cur_mid_tc with
  | some mids =>
    refine ⟨mids, ?_, markMid_some hmids hmark⟩
    have hmem : (main, alias_) ∈ keys (midMarks p.g_cur_mid_tc) := by
      rw [keys_midMarks]
      by_contra hnot
      rw [markMid_none.2 hnot] at hmark
      cases hmark
    rw [Plugin.tc_addMid, hmark, newcomers, if_pos hmem]
    simp [newcomers, aliasMessages, Plugin.withMids]
  | none =>
    have hnot : (main, alias_) ∉ keys (midMarks p.g_cur_mid_tc) := keys_midMarks ▸ markMid_none.1 hmark
    refine ⟨⟨main, alias_, true⟩ :: p.g_cur_mid_tc, ?_, ?_⟩
    · rw [Plugin.tc_addMid, hmark, newcomers, if_neg hnot]
      rfl
    · rw [touch, if_neg hnot]
      rfl

theorem tc_addMids_spec (hmids : (p.g_cur_mid_tc.map SerTcMid.pair).Nodup) (ms : List (OlsrIpAddr × OlsrIpAddr)) :
    ∃ mids, ms.foldl (fun p m => p.tc_addMid m.1 m.2) p =
        p.withMids mids (aliasMessages ws (newcomers (midMarks p.g_cur_mid_tc) ms)) ∧
      midMarks mids = ms.foldl touch (midMarks p.g_cur_mid_tc) := by
  induction ms generalizing p with
  | nil => exact ⟨p.g_cur_mid_tc, by simp [newcomers, aliasMessages, Plugin.withMids], rfl⟩
  | cons m ms ih =>
    obtain ⟨mids, hadd, hmarks⟩ := tc_addMid_spec hmids m.1 m.2
    have hnodup : (mids.map SerTcMid.pair).Nodup := by
      rw [← keys_midMarks, hmarks]
      exact nodup_touch (keys_midMarks ▸ hmids) _
    obtain ⟨mids', hrun, hmarks'⟩ := ih (p := p.tc_addMid m.1 m.2) (by rw [hadd]; exact hnodup)
    refine ⟨mids', ?_, ?_⟩
    · have harr : newcomers (midMarks p.g_cur_mid_tc) (m :: ms) = newcomers (midMarks p.g_cur_mid_tc) [m] ++
          newcomers ([m].foldl touch (midMarks p.g_cur_mid_tc)) ms := by
        rw [← newcomers_append, List.singleton_append]
      rw [List.foldl_cons, hrun, hadd, harr, aliasMessages_append, Plugin.withMids_withMids, Plugin.withMids_mids, hmarks]
      rfl
    · rw [hmarks', hadd, Plugin.withMids_mids, hmarks]
      rfl

/-! ### Copies -/

def Snapshot.accepted (ifnet : List OlsrIpAddr) (S : Snapshot) : List (OlsrIpAddr × OlsrIpAddr) :=
  S.edges.filter (S.accepts ifnet)

/-- The nodes, the links and the MID entries, with their marks. -/
structure Copy where
  nodes : List (OlsrIpAddr × Bool)
  links : List ((OlsrIpAddr × OlsrIpAddr) × Bool)
  mids : List ((OlsrIpAddr × OlsrIpAddr) × Bool)

namespace Copy

def empty : Copy := ⟨[], [], []⟩

/-- A round: the MID entries of a node that goes are removed too. -/
def check (ifnet : List OlsrIpAddr) (S : Snapshot) (X : Copy) : Copy where
  nodes := renew X.nodes (endpoints (S.accepted ifnet))
  links := renew X.links (S.accepted ifnet)
  mids := (renew X.mids S.aliases).filter fun m =>
    m.1.1 ∈ keys X.nodes → m.1.1 ∈ endpoints (S.accepted ifnet)

/-- The messages for what goes in a round. -/
inductive Drops (ifnet : List OlsrIpAddr) (S : Snapshot) (X : Copy) : OlsrEventMessage ws → Prop
  | link {e : OlsrIpAddr × OlsrIpAddr} (h : e ∈ keys X.links) (he : e ∉ S.accepted ifnet) :
    Drops ifnet S X (.DEV_CMD_REMOVE_LINK (Plugin.toLong e.1) (Plugin.toLong e.2))
  | node {a : OlsrIpAddr} (h : a ∈ keys X.nodes) (ha : a ∉ endpoints (S.accepted ifnet)) :
    Drops ifnet S X (.DEV_CMD_REMOVE_NODE (Plugin.toLong a))
  | mid {m : OlsrIpAddr × OlsrIpAddr} (h : m ∈ keys X.mids) (hm : m ∉ S.aliases) :
    Drops ifnet S X (.DEV_CMD_REMOVE_ALIAS (Plugin.toLong m.1) (Plugin.toLong m.2))
  | main {m : OlsrIpAddr × OlsrIpAddr} (h : m ∈ S.aliases) (hn : m.1 ∈ keys X.nodes)
    (ha : m.1 ∉ endpoints (S.accepted ifnet)) :
    Drops ifnet S X (.DEV_CMD_REMOVE_ALIAS (Plugin.toLong m.1) (Plugin.toLong m.2))

/-- The messages of a round: what is new, in the order of the loops, and then what goes. -/
def Sends (ifnet : List OlsrIpAddr) (S : Snapshot) (X : Copy) (msgs : List (OlsrEventMessage ws)) : Prop :=
  ∃ gone, msgs = announce ws (reset X.nodes) (reset X.links) (S.accepted ifnet) ++
      aliasMessages ws (newcomers (reset X.mids) S.aliases) ++ gone ∧
    ∀ msg, msg ∈ gone ↔ X.Drops ifnet S msg

end Copy

/-- The tables hold a copy. -/
structure Shows (ifnet : List OlsrIpAddr) (p : Plugin ws) (T : Table) (X : Copy) : Prop
    extends Threaded ifnet p T where
  nodeMarks : T.nodeMarks = X.nodes
  linkMarks : T.linkMarks = X.links
  mids : midMarks p.g_cur_mid_tc = X.mids
  midPairs : (keys X.mids).Nodup

/-! ### The marking -/

namespace Plugin

/-- `tc_check_data` up to the removal. -/
def markAll (ifnet : List OlsrIpAddr) (S : Snapshot) (p : Plugin ws) : Option (Plugin ws) := do
  let p ← p.tc_reset_active_flag
  let p ← S.edges.foldlM (fun p e => p.tc_addLink ifnet S e.1 e.2) p
  return S.aliases.foldl (fun p m => p.tc_addMid m.1 m.2) p

theorem tc_check_data_eq (ifnet : List OlsrIpAddr) (S : Snapshot) (p : Plugin ws) : p.tc_check_data ifnet S =
    (p.markAll ifnet S >>= fun p => p.tc_remove_useless_mid.tc_remove_useless_link) := by
  simp only [tc_check_data, markAll, Option.bind_eq_bind, Option.bind_assoc, Option.pure_def, Option.bind_some]

end Plugin

/-- What the marking leads to. -/
structure Marked (ifnet : List OlsrIpAddr) (S : Snapshot) (p q : Plugin ws) (T U : Table) (X : Copy) : Prop
    extends Threaded ifnet q U where
  nodeMarks : U.nodeMarks = (endpoints (S.accepted ifnet)).foldl touch (reset X.nodes)
  linkMarks : U.linkMarks = (S.accepted ifnet).foldl touch (reset X.links)
  mids : midMarks q.g_cur_mid_tc = S.aliases.foldl touch (reset X.mids)
  queue : q.msgQueue_ = p.msgQueue_ ++ (announce ws (reset X.nodes) (reset X.links) (S.accepted ifnet) ++
    aliasMessages ws (newcomers (reset X.mids) S.aliases))
  quiet : (∀ a ∈ endpoints (S.accepted ifnet), a ∈ keys X.nodes) → (∀ e ∈ S.accepted ifnet, e ∈ keys X.links) →
    (∀ m ∈ S.aliases, m ∈ keys X.mids) → q = (p.withTable U).withMids q.g_cur_mid_tc [] ∧ U.unmarked = T.unmarked

theorem Table.nodeMarks_unmarked : T.unmarked.nodeMarks = reset T.nodeMarks := by
  rw [nodeMarks, unmarked, List.map_map, nodeMarks, reset, List.map_map]
  rfl

theorem Table.linkMarks_unmarked : T.unmarked.linkMarks = reset T.linkMarks := by
  rw [linkMarks, unmarked, List.map_map, linkMarks, reset, List.map_map]
  rfl

theorem Stored.withMids (ht : Stored ifnet p T) (mids : List SerTcMid) (msgs : List (OlsrEventMessage ws)) :
    Stored ifnet (p.withMids mids msgs) T :=
  ⟨ht.dst_tab, ht.entries, ht.dsts, ht.names, ht.linkNames, ht.bound, ht.linkBound, ht.addrs, ht.pairs, ht.sources,
    ht.isLocal⟩

theorem Threaded.withMids (ht : Threaded ifnet p T) (mids : List SerTcMid) (msgs : List (OlsrEventMessage ws)) :
    Threaded ifnet (p.withMids mids msgs) T := ⟨ht.toStored.withMids mids msgs, ht.tab⟩

theorem midMarks_reset (mids : List SerTcMid) :
    midMarks (mids.map fun m => { m with is_active := false }) = reset (midMarks mids) := by
  rw [midMarks, midMarks, reset, List.map_map, List.map_map]
  rfl

theorem Shows.markAll_spec {X : Copy} (h : Shows ifnet p T X) (S : Snapshot) : ∃ q U,
    p.markAll ifnet S = some q ∧ Marked ifnet S p q T U X := by
  let mids₁ : List SerTcMid := p.g_cur_mid_tc.map fun m => { m with is_active := false }
  let p₁ : Plugin ws := (p.withTable T.unmarked).withMids mids₁ []
  have hreset : p.tc_reset_active_flag = some p₁ := by
    rw [h.tc_reset_active_flag_spec]
    simp [p₁, mids₁, Plugin.withMids, Plugin.withTable]
  have h₁ : Threaded ifnet p₁ T.unmarked := (h.reframe Table.frame_unmarked).withMids _ _
  obtain ⟨p₂, U, hadd, hU⟩ := h₁.tc_addLinks_spec S S.edges
  have hmarks₁ : midMarks p₂.g_cur_mid_tc = reset X.mids := by
    rw [hU.mids, ← h.mids]
    exact midMarks_reset p.g_cur_mid_tc
  have hnodup : (p₂.g_cur_mid_tc.map SerTcMid.pair).Nodup := by
    rw [← keys_midMarks, hmarks₁, keys_reset]
    exact h.midPairs
  obtain ⟨mids₂, hmid, hmarks₂⟩ := tc_addMids_spec hnodup S.aliases
  rw [hmarks₁] at hmid hmarks₂
  have hnodes : T.unmarked.nodeMarks = reset X.nodes := by rw [Table.nodeMarks_unmarked, h.nodeMarks]
  have hlinks : T.unmarked.linkMarks = reset X.links := by rw [Table.linkMarks_unmarked, h.linkMarks]
  refine ⟨p₂.withMids mids₂ (aliasMessages ws (newcomers (reset X.mids) S.aliases)), U, ?_,
    ⟨hU.threaded.withMids _ _, ?_, ?_, hmarks₂, ?_, ?_⟩⟩
  · rw [Plugin.markAll, Fault.bind_of_some hreset, Fault.bind_of_some hadd, hmid]
    rfl
  · rw [hU.nodes, hnodes]
    rfl
  · rw [hU.links, hlinks]
    rfl
  · show p₂.msgQueue_ ++ _ = _
    rw [hU.queue, hnodes, hlinks, List.append_assoc]
    simp [p₁, Plugin.withMids, Plugin.withTable, Snapshot.accepted]
  · intro hn hl hm
    obtain ⟨hp₂, hunmarked⟩ := hU.quiet
      (fun a ha => by
        rw [hnodes, keys_reset]
        exact hn a ha)
      fun e he => by
        rw [hlinks, keys_reset]
        exact hl e he
    have hold : newcomers (reset X.mids) S.aliases = [] := by
      rw [List.eq_nil_iff_forall_not_mem]
      intro m hmem
      obtain ⟨hmem, hnot⟩ := mem_newcomers.1 hmem
      exact hnot (keys_reset (l := X.mids) ▸ hm m hmem)
    refine ⟨?_, hunmarked.trans ?_⟩
    · rw [hp₂, hold]
      simp [p₁, Plugin.withMids, Plugin.withTable, aliasMessages]
    · simp [Table.unmarked, Function.comp_def, Table.unmarkNode, Table.unmarkLink]

/-! ### The removal -/

theorem Plugin.unlinkMids_eq {test : SerTcMid → Bool} (h : ∀ m ∈ p.g_cur_mid_tc, test m = false) :
    p.unlinkMids test = p := by
  have hkeep : (p.g_cur_mid_tc.filter fun m => !test m) = p.g_cur_mid_tc :=
    List.filter_eq_self.2 fun m hm => by rw [h m hm]; rfl
  have hgone : p.g_cur_mid_tc.filter test = [] :=
    List.filter_eq_nil_iff.2 fun m hm => by rw [h m hm]; exact Bool.false_ne_true
  rw [Plugin.unlinkMids, hkeep, hgone, List.map_nil, List.append_nil]

namespace Marked

variable {q : Plugin ws} {V : Table} {X : Copy}

/-- An end of a link that is marked is marked. -/
theorem ends_marked (h : Marked ifnet S p q T V X) (hX : (keys X.nodes).Nodup) :
    ∀ l ∈ V.links, l.block.is_active = true → ∀ n ∈ V.marks, n.1 = l.src → n.2.2 = true := by
  intro l hl hact n hn hname
  have hlink : (l.pair, true) ∈ V.linkMarks := List.mem_map.2 ⟨l, hl, by rw [hact]⟩
  rw [h.linkMarks, marked_foldl] at hlink
  have hacc : l.pair ∈ S.accepted ifnet := hlink.resolve_right (by simp [reset])
  have hend : l.src_addr ∈ endpoints (S.accepted ifnet) := List.mem_flatMap.2 ⟨_, hacc, List.mem_cons_self⟩
  obtain ⟨m, hm, hname', haddr⟩ := h.source hl
  have hsame : n = m.mark :=
    List.inj_on_of_nodup_map h.nodup_marks hn (List.mem_map_of_mem hm) (hname.trans hname'.symm)
  have hmark : (m.addr, m.block.is_active) ∈ V.nodeMarks := List.mem_map_of_mem hm
  rw [h.nodeMarks] at hmark
  rw [hsame]
  exact (mark_iff hX hmark).2 (haddr.symm ▸ hend)

end Marked

/-- What a round leads to.  The `hash_next` fields are those after the marking. -/
structure Swept (ifnet : List OlsrIpAddr) (S : Snapshot) (p q p' : Plugin ws) (V U : Table) (X : Copy) : Prop
    extends Stored ifnet p' U where
  stale : Stale q.tab.next p' U
  marks : U.marks = V.marks.filter fun n => n.2.2
  nodeMarks : U.nodeMarks = (X.check ifnet S).nodes
  linkMarks : U.linkMarks = (X.check ifnet S).links
  mids : midMarks p'.g_cur_mid_tc = (X.check ifnet S).mids
  queue : ∃ msgs, p'.msgQueue_ = p.msgQueue_ ++ msgs ∧ X.Sends ifnet S msgs
  quiet : (∀ l ∈ V.links, l.block.is_active = true) → (∀ n ∈ V.marks, n.2.2 = true) →
    (∀ m ∈ q.g_cur_mid_tc, m.is_active = true) → p' = q

/-- The messages of the removal. -/
theorem drops_iff {q p' : Plugin ws} {V U : Table} {X : Copy} (hV : Marked ifnet S p q T V X)
    (hnodes : (keys X.nodes).Nodup) (hlinks : (keys X.links).Nodup) (hpairs : (keys X.mids).Nodup)
    (hlinksU : U.links = V.links.filter fun l => l.block.is_active) (hmarks : U.marks = V.marks.filter fun n => n.2.2)
    (hmids : p'.g_cur_mid_tc =
      q.tc_remove_useless_mid.g_cur_mid_tc.filter fun m => (m.main_addr, false) ∉ V.nodeMarks)
    {msgs : List (OlsrEventMessage ws)}
    (hmsgs : ∀ msg, msg ∈ msgs ↔ Removed V U q.tc_remove_useless_mid.g_cur_mid_tc p'.g_cur_mid_tc msg)
    {msg : OlsrEventMessage ws} : X.Drops ifnet S msg ↔
      msg ∈ ((q.g_cur_mid_tc.filter fun m => !m.is_active).map fun m =>
        .DEV_CMD_REMOVE_ALIAS (Plugin.toLong m.main_addr) (Plugin.toLong m.alias_addr)) ++ msgs := by
  have hmid : ∀ m ∈ q.g_cur_mid_tc, m.is_active = true ↔ m.pair ∈ S.aliases := by
    intro m hm
    have hmem : (m.pair, m.is_active) ∈ midMarks q.g_cur_mid_tc := List.mem_map_of_mem hm
    rw [hV.mids] at hmem
    exact mark_iff hpairs hmem
  have hactive : ∀ m, m ∈ q.tc_remove_useless_mid.g_cur_mid_tc ↔ m ∈ q.g_cur_mid_tc ∧ m.is_active = true := by
    intro m
    rw [Plugin.tc_remove_useless_mid, Plugin.unlinkMids, List.mem_filter, Bool.not_not]
  rw [List.mem_append, List.mem_map, hmsgs]
  constructor
  · intro h
    cases h with
    | @link e h he =>
      have hmem := (unmarked_foldl hlinks).2 ⟨h, he⟩
      rw [← hV.linkMarks] at hmem
      obtain ⟨l, hl, heq⟩ := List.mem_map.1 hmem
      obtain ⟨rfl, hact⟩ := Prod.mk.inj heq
      refine Or.inr (.link hl fun hU => ?_)
      rw [hlinksU] at hU
      exact Bool.false_ne_true (hact.symm.trans (List.mem_filter.1 hU).2)
    | @node a h ha =>
      have hmem := (unmarked_foldl hnodes).2 ⟨h, ha⟩
      rw [← hV.nodeMarks, Table.nodeMarks_marks] at hmem
      obtain ⟨n, hn, heq⟩ := List.mem_map.1 hmem
      obtain ⟨rfl, hact⟩ := Prod.mk.inj heq
      refine Or.inr (.node hn fun hU => ?_)
      rw [hmarks] at hU
      exact Bool.false_ne_true (hact.symm.trans (List.mem_filter.1 hU).2)
    | @mid m h hm =>
      have hmem := (unmarked_foldl hpairs).2 ⟨h, hm⟩
      rw [← hV.mids] at hmem
      obtain ⟨m', hm', heq⟩ := List.mem_map.1 hmem
      obtain ⟨rfl, hact⟩ := Prod.mk.inj heq
      exact Or.inl ⟨m', List.mem_filter.2 ⟨hm', by rw [hact]; rfl⟩, rfl⟩
    | @main m h hn ha =>
      have hmem : m ∈ keys (midMarks q.g_cur_mid_tc) := by
        rw [hV.mids]
        exact mem_keys_foldl.2 (Or.inl h)
      rw [keys_midMarks] at hmem
      obtain ⟨m', hm', rfl⟩ := List.mem_map.1 hmem
      have hact : m'.is_active = true := (hmid m' hm').2 h
      refine Or.inr (.mid ((hactive m').2 ⟨hm', hact⟩) fun hU => ?_)
      rw [hmids] at hU
      refine of_decide_eq_true (List.mem_filter.1 hU).2 ?_
      rw [hV.nodeMarks]
      exact (unmarked_foldl hnodes).2 ⟨hn, ha⟩
  · rintro (⟨m, hm, rfl⟩ | h)
    · obtain ⟨hm, hact⟩ := List.mem_filter.1 hm
      have hmem : (m.pair, false) ∈ midMarks q.g_cur_mid_tc :=
        List.mem_map.2 ⟨m, hm, Prod.ext rfl (by simpa using hact)⟩
      rw [hV.mids, unmarked_foldl hpairs] at hmem
      exact .mid hmem.1 hmem.2
    · cases h with
      | @link l hl hU =>
        have hact : l.block.is_active = false := by
          by_contra hact
          exact hU (hlinksU ▸ List.mem_filter.2 ⟨hl, Bool.not_eq_false _ ▸ hact⟩)
        have hmem : (l.pair, false) ∈ V.linkMarks := List.mem_map.2 ⟨l, hl, by rw [hact]⟩
        rw [hV.linkMarks, unmarked_foldl hlinks] at hmem
        exact .link hmem.1 hmem.2
      | @node n hn hU =>
        have hact : n.2.2 = false := by
          by_contra hact
          exact hU (hmarks ▸ List.mem_filter.2 ⟨hn, Bool.not_eq_false _ ▸ hact⟩)
        have hmem : (n.2.1, false) ∈ V.nodeMarks := by
          rw [Table.nodeMarks_marks]
          exact List.mem_map.2 ⟨n, hn, Prod.ext rfl hact⟩
        rw [hV.nodeMarks, unmarked_foldl hnodes] at hmem
        exact .node hmem.1 hmem.2
      | @mid m hm hU =>
        obtain ⟨hmem, hact⟩ := (hactive m).1 hm
        have halias : m.pair ∈ S.aliases := (hmid m hmem).1 hact
        have hexp : (m.main_addr, false) ∈ V.nodeMarks := by
          by_contra hnot
          exact hU (hmids ▸ List.mem_filter.2 ⟨hm, decide_eq_true hnot⟩)
        rw [hV.nodeMarks, unmarked_foldl hnodes] at hexp
        exact .main halias hexp.1 hexp.2

theorem Shows.swept {X : Copy} (h : Shows ifnet p T X) (S : Snapshot) : ∃ q V p' U,
    p.tc_check_data ifnet S = some p' ∧ Marked ifnet S p q T V X ∧ Swept ifnet S p q p' V U X := by
  obtain ⟨q, V, hmark, hV⟩ := h.markAll_spec S
  have hnodes : (keys X.nodes).Nodup := by
    rw [← h.nodeMarks, Table.keys_nodeMarks]
    exact h.addrs
  have hlinks : (keys X.links).Nodup := by
    rw [← h.linkMarks, Table.keys_linkMarks]
    exact h.pairs
  have ht : Threaded ifnet q.tc_remove_useless_mid V := ⟨hV.toStored.unlinkMids _, hV.tab⟩
  obtain ⟨p', U, hrun, hU, hstale, hmarks, hlinksU, hmids⟩ :=
    ht.tc_remove_useless_link_spec (hV.ends_marked hnodes)
  have hactive : q.tc_remove_useless_mid.g_cur_mid_tc = q.g_cur_mid_tc.filter fun m => m.is_active :=
    List.filter_congr fun m _ => Bool.not_not _
  have hexpired : ∀ a, (a, false) ∈ V.nodeMarks ↔ a ∈ keys X.nodes ∧ a ∉ endpoints (S.accepted ifnet) := by
    intro a
    rw [hV.nodeMarks, unmarked_foldl hnodes]
  refine ⟨q, V, p', U, ?_, hV, hU.stored, hstale, hmarks, ?_, ?_, ?_, ?_, ?_⟩
  · rw [Plugin.tc_check_data_eq, Fault.bind_of_some hmark]
    exact hrun
  · show _ = renew X.nodes _
    rw [Table.nodeMarks_marks, hmarks, renew, ← hV.nodeMarks, Table.nodeMarks_marks, sweep, List.filter_map]
    rfl
  · show _ = renew X.links _
    rw [Table.linkMarks, hlinksU, renew, ← hV.linkMarks, Table.linkMarks, sweep, List.filter_map]
    rfl
  · show _ = (renew X.mids S.aliases).filter _
    rw [renew, ← hV.mids, hmids, hactive, sweep, midMarks, midMarks, List.filter_map, List.filter_map]
    congr 1
    refine List.filter_congr fun m _ => ?_
    simp only [hexpired, Function.comp_apply, not_and, not_not, SerTcMid.pair]
  · obtain ⟨msgs, hmsgs, hremoved⟩ := hU.queue
    refine ⟨_, ?_, _, rfl, fun msg => (drops_iff hV hnodes hlinks h.midPairs hlinksU hmarks hmids hremoved).symm⟩
    rw [hmsgs, Plugin.tc_remove_useless_mid, Plugin.unlinkMids, hV.queue, List.append_assoc, List.append_assoc,
      List.append_assoc]
  · intro hl hn hm
    rw [hU.quiet hl hn]
    exact Plugin.unlinkMids_eq fun m hmem => by rw [hm m hmem]; rfl

end MpOlsr
