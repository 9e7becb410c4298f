import MpOlsr.Plugin.Shadow

/-!
# A quiet network

A second round with the same snapshot should send nothing and change nothing.  It does if and only if the chains were
in order so far, and no node that goes in the first round is the main address of an alias of the snapshot
(`quiet_iff`): such an alias is dropped at the end of every round, and sent again in the next one.
-/

namespace MpOlsr

open DoublyLinked Records MarkSweep

variable {ws : WordSize} {ifnet : List OlsrIpAddr} {p : Plugin ws} {T U : Table} {S : Snapshot} {X : Copy}

/-- No node that goes is the main address of an alias. -/
def Plugin.aliasesStay (ifnet : List OlsrIpAddr) (p : Plugin ws) (S : Snapshot) : Bool :=
  S.aliases.all fun m =>
    (endpoints (S.accepted ifnet)).contains m.1 || !(p.chainAddrs (olsr_ip_hashing m.1)).contains m.1

/-! ### Tables with the same marks -/

theorem Table.nodes_eq (T : Table) : T.nodes =
    List.zipWith (fun n e => { n with block := { n.block with is_active := e.2 } }) T.unmarked.nodes T.nodeMarks := by
  rw [unmarked, nodeMarks, List.zipWith_map, List.zipWith_self]
  exact (List.map_id _).symm

theorem Table.links_eq (T : Table) : T.links =
    List.zipWith (fun l e => { l with block := { l.block with is_active := e.2 } }) T.unmarked.links T.linkMarks := by
  rw [unmarked, linkMarks, List.zipWith_map, List.zipWith_self]
  exact (List.map_id _).symm

theorem Table.eq_of_unmarked (h : U.unmarked = T.unmarked) (hn : U.nodeMarks = T.nodeMarks)
    (hl : U.linkMarks = T.linkMarks) : U = T := by
  have hnodes : U.nodes = T.nodes := by rw [U.nodes_eq, T.nodes_eq, h, hn]
  have hlinks : U.links = T.links := by rw [U.links_eq, T.links_eq, h, hl]
  cases U
  cases T
  rw [Table.mk.injEq]
  exact ⟨hnodes, hlinks⟩

/-! ### The second round -/

theorem chainAddrs_iff (h : Shows ifnet p T X) {a : OlsrIpAddr} :
    a ∈ p.chainAddrs (olsr_ip_hashing a) ↔ a ∈ keys X.nodes := by
  rw [chainAddrs_eq h.toThreaded, ← h.nodeMarks, Table.keys_nodeMarks, List.mem_map, List.mem_map]
  constructor
  · rintro ⟨n, hn, rfl⟩
    exact ⟨n, (List.mem_filter.1 hn).1, rfl⟩
  · rintro ⟨n, hn, rfl⟩
    exact ⟨n, List.mem_filter.2 ⟨hn, decide_eq_true rfl⟩, rfl⟩

theorem aliasesStay_iff (h : Shows ifnet p T X) : p.aliasesStay ifnet S = true ↔
    ∀ m ∈ S.aliases, m.1 ∈ keys X.nodes → m.1 ∈ endpoints (S.accepted ifnet) := by
  rw [Plugin.aliasesStay, List.all_eq_true]
  refine forall₂_congr fun m _ => ?_
  rw [Bool.or_eq_true, Bool.not_eq_true', ← Bool.not_eq_true, List.contains_iff_mem, List.contains_iff_mem,
    chainAddrs_iff h]
  tauto

/-- The aliases of a round are there after it if no node that goes is the main address of one. -/
theorem mem_mids_check {m : OlsrIpAddr × OlsrIpAddr} : m ∈ keys (X.check ifnet S).mids ↔
    m ∈ S.aliases ∧ (m.1 ∈ keys X.nodes → m.1 ∈ endpoints (S.accepted ifnet)) := by
  have hrenew : m ∈ keys (renew X.mids S.aliases) ↔ m ∈ S.aliases := mem_renew
  rw [← hrenew, keys, keys, List.mem_map, List.mem_map]
  constructor
  · rintro ⟨e, he, rfl⟩
    obtain ⟨he, hstay⟩ := List.mem_filter.1 he
    exact ⟨⟨e, he, rfl⟩, of_decide_eq_true hstay⟩
  · rintro ⟨⟨e, he, rfl⟩, hstay⟩
    exact ⟨e, List.mem_filter.2 ⟨he, decide_eq_true hstay⟩, rfl⟩

/-- After a round, a second round with the same snapshot only puts the marks back. -/
theorem Marked.eq_self {q : Plugin ws} {V : Table} (h : Shows ifnet p T (X.check ifnet S))
    (hV : Marked ifnet S p q T V (X.check ifnet S))
    (hstay : ∀ m ∈ S.aliases, m.1 ∈ keys X.nodes → m.1 ∈ endpoints (S.accepted ifnet)) : q = p ∧ V = T := by
  let Y := X.check ifnet S
  have hmids : ∀ m, m ∈ S.aliases ↔ m ∈ keys Y.mids := by
    intro m
    rw [mem_mids_check]
    exact ⟨fun hm => ⟨hm, hstay m hm⟩, And.left⟩
  have hnodes : ∀ a, a ∈ endpoints (S.accepted ifnet) ↔ a ∈ keys Y.nodes := fun a => mem_renew.symm
  have hlinks : ∀ e, e ∈ S.accepted ifnet ↔ e ∈ keys Y.links := fun e => mem_renew.symm
  obtain ⟨hq, hunmarked⟩ := hV.quiet (fun a ha => (hnodes a).1 ha) (fun e he => (hlinks e).1 he)
    fun m hm => (hmids m).1 hm
  have hVn : V.nodeMarks = T.nodeMarks := by
    rw [hV.nodeMarks, h.nodeMarks]
    exact remark (fun _ he => marked_of_mem_sweep he) hnodes
  have hVl : V.linkMarks = T.linkMarks := by
    rw [hV.linkMarks, h.linkMarks]
    exact remark (fun _ he => marked_of_mem_sweep he) hlinks
  have hVT : V = T := Table.eq_of_unmarked hunmarked hVn hVl
  have hqm : q.g_cur_mid_tc = p.g_cur_mid_tc := by
    apply midMarks_injective
    rw [hV.mids, h.mids]
    refine remark (fun e he => ?_) hmids
    exact marked_of_mem_sweep (List.mem_filter.1 he).1
  refine ⟨?_, hVT⟩
  rw [hq, hVT, hqm, h.withTable_self]
  simp [Plugin.withMids]

/-- After a round, a second round with the same snapshot does nothing if and only if all aliases stay. -/
theorem check_eq_self_iff (h : Shows ifnet p T (X.check ifnet S)) : p.tc_check_data ifnet S = some p ↔
    ∀ m ∈ S.aliases, m.1 ∈ keys X.nodes → m.1 ∈ endpoints (S.accepted ifnet) := by
  obtain ⟨q, V, p', U, hrun, hV, hU⟩ := h.swept S
  constructor
  · intro hself m hm hmain
    obtain rfl := Option.some.inj (hself.symm.trans hrun)
    obtain ⟨msgs, hqueue, gone, rfl, -⟩ := hU.queue
    rw [List.self_eq_append_right, List.append_eq_nil_iff, List.append_eq_nil_iff] at hqueue
    by_contra hend
    have hmem : m ∈ newcomers (reset (X.check ifnet S).mids) S.aliases := by
      rw [mem_newcomers, keys_reset, mem_mids_check]
      exact ⟨hm, fun h => hend (h.2 hmain)⟩
    rw [List.map_eq_nil_iff.1 hqueue.1.2] at hmem
    exact List.not_mem_nil hmem
  · intro hstay
    obtain ⟨rfl, rfl⟩ := Marked.eq_self h hV hstay
    have hself : p' = q := by
      refine hU.quiet (fun l hl => ?_) (fun n hn => ?_) fun m hm => ?_
      · have hmem : (l.pair, l.block.is_active) ∈ V.linkMarks := List.mem_map_of_mem hl
        rw [h.linkMarks] at hmem
        exact marked_of_mem_sweep hmem
      · have hmem : n.2 ∈ V.nodeMarks := by
          rw [Table.nodeMarks_marks]
          exact List.mem_map_of_mem hn
        rw [h.nodeMarks] at hmem
        exact marked_of_mem_sweep hmem
      · have hmem : (m.pair, m.is_active) ∈ midMarks q.g_cur_mid_tc := List.mem_map_of_mem hm
        rw [h.mids] at hmem
        exact marked_of_mem_sweep (List.mem_filter.1 hmem).1
    rw [hrun, hself]

/-- The second of two rounds with the same snapshot sends nothing and changes nothing. -/
def Plugin.Quiet (ifnet : List OlsrIpAddr) (S : Snapshot) (p : Plugin ws) : Prop :=
  ∃ p', p.tc_check_data ifnet S = some p' ∧ p'.tc_check_data ifnet S = some p'

theorem run_append (Ss : List Snapshot) (S : Snapshot) : Plugin.run ws ifnet (Ss ++ [S]) =
    (Plugin.run ws ifnet Ss >>= fun p => p.tc_check_data ifnet S) := by
  rw [Plugin.run, List.foldlM_append, Plugin.run]
  refine bind_congr fun p => ?_
  simp only [List.foldlM_cons, List.foldlM_nil, bind_pure]

/-- A state that is reached is quiet if and only if the chains were in order in every round, also in the first of the
two, and no node that goes is the main address of an alias. -/
theorem quiet_iff (ws : WordSize) (ifnet : List OlsrIpAddr) (Ss : List Snapshot) (S : Snapshot) :
    (∃ p, Plugin.run ws ifnet Ss = some p ∧ p.Quiet ifnet S) ↔ Plugin.runInOrder ws ifnet (Ss ++ [S]) = true ∧
      ∃ p, Plugin.run ws ifnet Ss = some p ∧ p.aliasesStay ifnet S = true := by
  -- the second round returns if and only if the chains were in order
  have horder : (∃ p, Plugin.run ws ifnet (Ss ++ [S]) = some p ∧ p.tc_check_data ifnet S ≠ none) ↔
      Plugin.runInOrder ws ifnet (Ss ++ [S]) = true := by
    refine run_inOrder_iff (Q := fun S p => p.tc_check_data ifnet S ≠ none) (fun S p T X h => ?_)
      (fun S p k x hx hfree hp => hp (tc_check_data_none hx hfree)) Ss S
    obtain ⟨_, _, _, _, hrun, _⟩ := h.swept S
    rw [hrun]
    exact Option.some_ne_none _
  have hquiet : ∀ p, Plugin.run ws ifnet Ss = some p → Plugin.runInOrder ws ifnet (Ss ++ [S]) = true →
      (p.Quiet ifnet S ↔ p.aliasesStay ifnet S = true) := by
    intro p hp hord
    obtain ⟨p₀, T, hrun, hT⟩ := shows_run (Simulation.guarded_append hord)
    obtain rfl := Option.some.inj (hp.symm.trans hrun)
    obtain ⟨p', U, hrun', hU⟩ := shows_run hord
    rw [List.foldl_append] at hU
    rw [run_append, Fault.bind_of_some hp] at hrun'
    rw [aliasesStay_iff hT, ← check_eq_self_iff hU, Plugin.Quiet, hrun']
    constructor
    · rintro ⟨p'', hp'', hself⟩
      rwa [Option.some.inj hp'']
    · exact fun hself => ⟨p', rfl, hself⟩
  constructor
  · rintro ⟨p, hp, hq⟩
    obtain ⟨p', hcheck, hself⟩ := hq
    have hrun : Plugin.run ws ifnet (Ss ++ [S]) = some p' := by
      rw [run_append, Fault.bind_of_some hp, hcheck]
    have hreturns : p'.tc_check_data ifnet S ≠ none := by
      rw [hself]
      exact Option.some_ne_none _
    have hord := horder.1 ⟨p', hrun, hreturns⟩
    exact ⟨hord, p, hp, (hquiet p hp hord).1 ⟨p', hcheck, hself⟩⟩
  · rintro ⟨hord, p, hp, hstay⟩
    exact ⟨p, hp, (hquiet p hp hord).2 hstay⟩

/-- The node 1 goes while 7 is an alias of it: the alias is sent again. -/
theorem alias_returns : ¬ ∃ p, Plugin.run .ilp32 [] [.remote [(1, [2]), (2, [3])] [(1, [7])]] = some p ∧
    p.Quiet [] (.remote [(2, [3])] [(1, [7])]) := by
  rintro ⟨p, hp, p', hcheck, hself⟩
  have hrun : Plugin.run .ilp32 [] ([.remote [(1, [2]), (2, [3])] [(1, [7])]] ++ [.remote [(2, [3])] [(1, [7])]]) =
      some p' := by
    rw [run_append, Fault.bind_of_some hp, hcheck]
  have hrun' : Plugin.run .ilp32 [] (([.remote [(1, [2]), (2, [3])] [(1, [7])]] ++ [.remote [(2, [3])] [(1, [7])]]) ++
      [.remote [(2, [3])] [(1, [7])]]) = some p' := by
    rw [run_append, Fault.bind_of_some hrun, hself]
  have hsent : (Plugin.run .ilp32 [] ([.remote [(1, [2]), (2, [3])] [(1, [7])]] ++
      [.remote [(2, [3])] [(1, [7])]])).map (fun p => p.msgQueue_.length) = some 9 := by decide +kernel
  have hsent' : (Plugin.run .ilp32 [] (([.remote [(1, [2]), (2, [3])] [(1, [7])]] ++ [.remote [(2, [3])] [(1, [7])]]) ++
      [.remote [(2, [3])] [(1, [7])]])).map (fun p => p.msgQueue_.length) = some 10 := by decide +kernel
  rw [hrun] at hsent
  rw [hrun', hsent] at hsent'
  cases hsent'

end MpOlsr
