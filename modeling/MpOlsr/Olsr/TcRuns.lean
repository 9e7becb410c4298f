import MpOlsr.Lib.Simulation
import MpOlsr.Olsr.SpfRoutes

/-!
# Runs of the TC set

Whatever happens to the TC set after it was initialized: messages, timers, prefixes that come and go, and calculations
of routes, in any order.  No step faults, and the set keeps its shape (`TcSet.runs_keep_shape`).  So what a message means
(`TcSet.messages_set_edges`) and what a calculation finds (`TcSet.routes_shortest`) hold in every run.
-/

namespace MpOlsr

open Buffer Bytes Dijkstra

inductive TcEvent (Q : Type) where
  | input_tc (m : List Byte) (sym : Bool)
  | expire_tc_entry (tc : Ptr)
  | expire_tc_edge_gc (tc : Ptr)
  | insert_routing_table (dst : OlsrIpAddr) (plen : Byte) (originator : OlsrIpAddr) (origin : Byte)
  | delete_routing_table (dst : OlsrIpAddr) (plen : Byte) (originator : OlsrIpAddr)
  | calculate_routing_table (neighbours : List (SymNeighbor Q))

namespace TcSet

section Runs

variable {Q : Type} (cnf : OlsrCnf) (H : LqHandler Q) (s : TcSet Q)

def step : TcEvent Q → Option (TcSet Q)
  | .input_tc m sym => (s.olsr_input_tc cnf H m sym).map Prod.fst
  | .expire_tc_entry tc => s.olsr_expire_tc_entry tc
  | .expire_tc_edge_gc tc => s.olsr_expire_tc_edge_gc tc
  | .insert_routing_table dst plen originator origin => s.olsr_insert_routing_table cnf dst plen originator origin
  | .delete_routing_table dst plen originator => s.olsr_delete_routing_table dst plen originator
  | .calculate_routing_table neighbours =>
    (s.olsr_calculate_routing_table cnf H neighbours (s.tc_tree.length + 1)).map Prod.fst

/-- The parser drops the messages of the node itself, a timer runs that expires, no neighbour has the address of the
node, and the costs of paths do not overflow. -/
def enabled : TcEvent Q → Bool
  | .input_tc m _ => readable H.tc_lq_size m && (load32 m 4).any fun originator => originator != cnf.main_addr
  | .expire_tc_entry tc => s.validity_timer tc
  | .expire_tc_edge_gc tc => s.edge_gc_timer tc
  | .insert_routing_table _ _ _ _ => true
  | .delete_routing_table _ _ _ => true
  | .calculate_routing_table neighbours =>
    (neighbours.all fun neigh => neigh.1 != cnf.main_addr) && s.tc_tree.length ≤ 1023

def run (es : List (TcEvent Q)) : Option (TcSet Q) := do
  let s ← olsr_init_tc cnf Q
  es.foldlM (fun s e => s.step cnf H e) s

/-- Every event of a run is enabled when its turn comes. -/
def runnable (es : List (TcEvent Q)) : Bool :=
  (olsr_init_tc cnf Q).any fun s =>
    Simulation.guarded (fun s e => TcSet.step cnf H s e) (fun s e => TcSet.enabled cnf H s e) s es

end Runs

variable {Q : Type} {cnf : OlsrCnf} {H : LqHandler Q} {s s' : TcSet Q}

/-- What every step keeps: the shape, the entry of the node itself, and costs that are not too large. -/
structure Good (cnf : OlsrCnf) (s : TcSet Q) : Prop extends Shape s where
  myself : ∃ x, s.view.tc_myself = some x ∧ s.view.addr x = some cnf.main_addr ∧ s.view.validity_timer x = false ∧
    s.view.edge_gc_timer x = false
  costs : ∀ e d, s.view.link e = some d → d.cost ≤ LINK_COST_BROKEN

/-- A step that keeps the entry of the node itself, and whose edges are old. -/
theorem Good.of_view (h : Good cnf s) (hs' : Shape s') (haddr : ∀ x a, s.view.tc_myself = some x →
    s.view.addr x = some a → s'.view.addr x = some a)
    (hmyself : s'.view.tc_myself = s.view.tc_myself)
    (htimers : ∀ x, s.view.tc_myself = some x → s.view.validity_timer x = false → s.view.edge_gc_timer x = false →
      s'.view.validity_timer x = false ∧ s'.view.edge_gc_timer x = false)
    (hcosts : ∀ e d, s'.view.link e = some d → ∃ e' d', s.view.link e' = some d' ∧ d.cost = d'.cost) : Good cnf s' := by
  obtain ⟨x, hx, ha, hvalidity, hgc⟩ := h.myself
  obtain ⟨hvalidity', hgc'⟩ := htimers x hx hvalidity hgc
  refine ⟨hs', ⟨x, hmyself.trans hx, haddr x _ hx ha, hvalidity', hgc'⟩, fun e d he => ?_⟩
  obtain ⟨e', d', he', hcost⟩ := hcosts e d he
  rw [hcost]
  exact h.costs e' d' he'

/-- An operation on another entry. -/
theorem Good.not_myself (h : Good cnf s) {x y : Ptr} (hx : (s.validity_timer x || s.edge_gc_timer x) = true)
    (hy : s.view.tc_myself = some y) : x ≠ y := by
  obtain ⟨z, hz, -, hvalidity, hgc⟩ := h.myself
  rintro rfl
  obtain rfl := Option.some_inj.1 (hz.symm.trans hy)
  have hnone : (s.validity_timer z || s.edge_gc_timer z) = false := by
    rw [Bool.or_eq_false_iff]
    exact ⟨hvalidity, hgc⟩
  rw [hnone] at hx
  exact Bool.false_ne_true hx

theorem Good.keeps (h : Good cnf s) (hs' : Shape s') (hkeeps : TcView.Keeps s.view s'.view) : Good cnf s' := by
  refine h.of_view hs' (fun x a _ ha => hkeeps.addr x a ha) hkeeps.tc_myself (fun x _ hvalidity hgc => ?_)
    fun e d he => ⟨e, d, by rw [← hkeeps.link, he], rfl⟩
  rw [hkeeps.validity_timer, hkeeps.edge_gc_timer]
  exact ⟨hvalidity, hgc⟩

theorem Good.input (h : Good cnf s) (hcalc : ∀ q, H.calc_tc_cost q ≤ LINK_COST_BROKEN) (hs' : Shape s')
    {originator : OlsrIpAddr} {msg_seq ansn : BitVec 16} {lower_border upper_border : Byte} {edges : List Byte} {left : ℤ}
    {sym forwarded : Bool} (horiginator : originator ≠ cnf.main_addr)
    (houtcome : TcOutcome cnf H s s' originator msg_seq ansn lower_border upper_border edges left sym forwarded) :
    Good cnf s' := by
  cases houtcome with
  | dropped hkeeps _ => exact h.keeps hs' hkeeps
  | @processed x V V' bs borders haccepts hsym hkeeps hx hupdates hborders hview hes =>
    obtain ⟨z, hz, ha, hvalidity, hgc⟩ := h.myself
    have hsame := hupdates.sameNodes
    have hzV : V.addr z = some cnf.main_addr := hkeeps.addr z _ ha
    have hzx : z ≠ x := by
      rintro rfl
      exact horiginator (Option.some_inj.1 (hx.symm.trans hzV))
    refine ⟨hs', ⟨z, ?_, ?_, ?_, ?_⟩, ?_⟩
    · rw [hview]
      exact hsame.tc_myself.trans (hkeeps.tc_myself.trans hz)
    · rw [hview]
      exact (congrFun hsame.addr z).trans hzV
    · rw [hview, TcView.finish]
      dsimp only
      rw [Function.update_of_ne hzx, hsame.validity_timer, hkeeps.validity_timer, hvalidity]
    · rw [hview, TcView.finish]
      dsimp only
      split
      · rw [hsame.edge_gc_timer, hkeeps.edge_gc_timer, hgc]
      · rw [Function.update_of_ne hzx, hsame.edge_gc_timer, hkeeps.edge_gc_timer, hgc]
    · intro e d he
      rw [hview] at he
      have hcosts : ∀ e d, V'.link e = some d → d.cost ≤ LINK_COST_BROKEN := by
        refine hupdates.costs (C := fun cost => cost ≤ LINK_COST_BROKEN) hcalc (by decide) ?_
        rw [hkeeps.link]
        exact h.costs
      exact hcosts e d (Option.filter_eq_some_iff.1 he).1

theorem Good.olsr_expire_tc_entry (h : Good cnf s) {x : Ptr} (hx : s.validity_timer x = true) : ∃ s',
    s.olsr_expire_tc_entry x = some s' ∧ Good cnf s' := by
  have htimer : (s.validity_timer x || s.edge_gc_timer x) = true := by rw [hx, Bool.true_or]
  obtain ⟨a, ha⟩ := h.timers x htimer
  have hs₁ := h.startTimer ha (Function.update s.validity_timer x false) s.edge_gc_timer fun y hy => by
    by_cases hyx : y = x
    · exact Or.inl hyx
    · exact Or.inr (by simpa [hyx] using hy)
  obtain ⟨s₂, hrun, hs₂, hview⟩ := hs₁.olsr_delete_tc_entry (x := x) (a := a) ha
  refine ⟨{ s₂ with changes_topology := true }, ?_, ?_⟩
  · rw [TcSet.olsr_expire_tc_entry, Fault.bind_of_some hrun]
    rfl
  · have hview' : ({ s₂ with changes_topology := true } : TcSet Q).view =
        ({ s.view with validity_timer := Function.update s.validity_timer x false } : TcView Q).removeNode x := hview
    refine h.of_view (hs₂.flags _ _) (fun y b hy hb => ?_) ?_ (fun y hy hvalidity hgc => ?_) fun e d he => ?_
    · have hne := h.not_myself htimer hy
      rw [hview']
      simpa [TcView.removeNode, TcView.addr, hne.symm] using hb
    · rw [hview']
      rfl
    · have hne := h.not_myself htimer hy
      rw [hview']
      exact ⟨by simpa [TcView.removeNode, hne.symm, view] using hvalidity, by simpa [TcView.removeNode, hne.symm] using hgc⟩
    · rw [hview'] at he
      exact ⟨e, d, (Option.filter_eq_some_iff.1 he).1, rfl⟩

theorem Good.olsr_expire_tc_edge_gc (h : Good cnf s) {x : Ptr} (hx : s.edge_gc_timer x = true) : ∃ s',
    s.olsr_expire_tc_edge_gc x = some s' ∧ Good cnf s' := by
  have htimer : (s.validity_timer x || s.edge_gc_timer x) = true := by rw [hx, Bool.or_true]
  obtain ⟨a, ha⟩ := h.timers x htimer
  obtain ⟨tc, htc, -⟩ := exists_entry ha
  have hs₁ := h.startTimer ha s.validity_timer (Function.update s.edge_gc_timer x false) fun y hy => by
    by_cases hyx : y = x
    · exact Or.inl hyx
    · exact Or.inr (by simpa [hyx] using hy)
  obtain ⟨s₂, deleted, hrun, hs₂, hview⟩ := hs₁.olsr_delete_outdated_tc_edges (x := x) (d := tc.data) (node_eq htc)
  refine ⟨{ s₂ with changes_topology := s₂.changes_topology || deleted }, ?_, ?_⟩
  · rw [TcSet.olsr_expire_tc_edge_gc, Fault.bind_of_some hrun]
    rfl
  · have hview' : ({ s₂ with changes_topology := s₂.changes_topology || deleted } : TcSet Q).view =
        ({ s.view with edge_gc_timer := Function.update s.edge_gc_timer x false } : TcView Q).removeLinks x
          fun edge => seqnoGreaterThan tc.ansn edge.ansn := hview
    refine h.of_view (hs₂.flags _ _) (fun y b _ hb => ?_) ?_ (fun y hy hvalidity hgc => ?_) fun e d he => ?_
    · rw [hview']
      exact hb
    · rw [hview']
      rfl
    · have hne := h.not_myself htimer hy
      rw [hview']
      exact ⟨hvalidity, by simpa [TcView.removeLinks, view, hne.symm] using hgc⟩
    · rw [hview'] at he
      exact ⟨e, d, (Option.filter_eq_some_iff.1 he).1, rfl⟩

theorem Good.setNode (h : Good cnf s) (hs' : Shape s') {V : TcView Q} {x : Ptr} {f : TcEntry Q → TcEntry Q}
    (hV : TcView.Keeps s.view V) (hview : s'.view = V.setNode x f) (hf : ∀ d, (f d).addr = d.addr) : Good cnf s' :=
  h.keeps hs' (hV.trans (hview ▸ TcView.keeps_setNode x hf))

theorem Good.step (h : Good cnf s) (hmain : cnf.main_addr ≠ 0) (hcalc : ∀ q, H.calc_tc_cost q ≤ LINK_COST_BROKEN)
    (e : TcEvent Q) (he : s.enabled cnf H e = true) : ∃ s', s.step cnf H e = some s' ∧ Good cnf s' := by
  cases e with
  | input_tc m sym =>
    rw [enabled, Bool.and_eq_true, Option.any_eq_true] at he
    obtain ⟨hm, originator, horiginator, hne⟩ := he
    obtain ⟨s', forwarded, hrun, hs', hcases⟩ := h.toShape.olsr_input_tc_readable (H := H) hmain hm sym
    refine ⟨s', by rw [TcSet.step, hrun, Option.map_some], ?_⟩
    rcases hcases with rfl | ⟨originator', msg_seq, ansn, lower_border, upper_border, edges, left, hload, houtcome⟩
    · exact h
    · obtain rfl := Option.some_inj.1 (horiginator.symm.trans hload)
      exact h.input hcalc hs' (by simpa using hne) houtcome
  | expire_tc_entry tc => exact h.olsr_expire_tc_entry he
  | expire_tc_edge_gc tc => exact h.olsr_expire_tc_edge_gc he
  | insert_routing_table dst plen originator origin =>
    obtain ⟨s', hrun, hs', hcases⟩ := h.toShape.olsr_insert_routing_table hmain dst plen originator origin
    refine ⟨s', hrun, ?_⟩
    rcases hcases with rfl | ⟨V, x, hview, -, rfl | ⟨-, -, rfl⟩⟩
    · exact h
    · exact h.setNode hs' (TcView.keeps_refl _) hview fun _ => rfl
    · exact h.setNode hs' (TcView.keeps_addNode h.fresh_addr _) hview fun _ => rfl
  | delete_routing_table dst plen originator =>
    obtain ⟨s', hrun, hs', hcases⟩ := h.toShape.olsr_delete_routing_table dst plen originator
    refine ⟨s', hrun, ?_⟩
    rcases hcases with rfl | ⟨x, -, hview⟩
    · exact h
    · exact h.setNode hs' (TcView.keeps_refl _) hview fun _ => rfl
  | calculate_routing_table neighbours =>
    rw [enabled, Bool.and_eq_true, List.all_eq_true, decide_eq_true_eq] at he
    obtain ⟨hneighbours, hcount⟩ := he
    obtain ⟨x, hx, ha, hvalidity, hgc⟩ := h.myself
    obtain ⟨s', path_list, hrun, hs', -, haddr, hmyself, hvalidity', hgc', -, hcosts⟩ :=
      h.toShape.olsr_calculate_routing_table (H := H) hx ha hcalc h.costs hcount
        (fun neigh hneigh => by simpa using hneighbours neigh hneigh) (Nat.lt_succ_self _)
    refine ⟨s', by rw [TcSet.step, hrun, Option.map_some], hs', ⟨x, hmyself.trans hx, ?_, ?_, ?_⟩, hcosts⟩
    · rw [haddr, ha]
    · exact (congrFun hvalidity' x).trans hvalidity
    · exact (congrFun hgc' x).trans hgc

theorem shape_empty (Q : Type) : Shape (empty Q) := by
  refine ⟨⟨List.Pairwise.nil, ?_, ?_, ?_, ?_, ?_, ?_, ?_⟩, ?_⟩
  all_goals simp [empty, view, TcView.addr, TcView.arc, Opposites.Paired, TcSet.inv]

theorem good_init (hmain : cnf.main_addr ≠ 0) : ∃ s, olsr_init_tc cnf Q = some s ∧ Good cnf s := by
  have hnew : ∀ x, (empty Q).view.addr x ≠ some cnf.main_addr := by simp [empty, view, TcView.addr]
  obtain ⟨s', hrun, hs', hview⟩ := (shape_empty Q).olsr_add_tc_entry hmain hnew
  refine ⟨{ s' with tc_myself := some (empty Q).brk }, ?_, ?_⟩
  · rw [olsr_init_tc, Fault.bind_of_some hrun]
    rfl
  · have hnode : ({ s' with tc_myself := some (empty Q).brk } : TcSet Q).view =
        { (empty Q).view.addNode (empty Q).brk cnf.main_addr with tc_myself := some (empty Q).brk } := by
      rw [← hview]
      rfl
    refine ⟨⟨⟨hs'.sorted, hs'.mem_tree, hs'.sorted_edges, hs'.mem_edges, hs'.owner, hs'.refcount, hs'.fresh, hs'.timers⟩,
      hs'.inverse⟩, ⟨(empty Q).brk, rfl, ?_, ?_, ?_⟩, ?_⟩
    · rw [hnode]
      simp [TcView.addNode, TcView.addr, TcEntry.ofAddr]
    · rw [hnode]
      rfl
    · rw [hnode]
      rfl
    · rw [hnode]
      simp [TcView.addNode, empty, view]

theorem Good.run (hmain : cnf.main_addr ≠ 0) (hcalc : ∀ q, H.calc_tc_cost q ≤ LINK_COST_BROKEN) (es : List (TcEvent Q))
    (hes : runnable cnf H es = true) : ∃ s, run cnf H es = some s ∧ Good cnf s := by
  obtain ⟨s₀, hinit, hgood⟩ := good_init (Q := Q) hmain
  rw [runnable, hinit, Option.any_some] at hes
  obtain ⟨s, hrun, hs⟩ := Simulation.guarded_invariant (P := Good cnf) (fun s e h he => h.step hmain hcalc e he) hgood es hes
  exact ⟨s, by rw [TcSet.run, Fault.bind_of_some hinit]; exact hrun, hs⟩

end TcSet

end MpOlsr
