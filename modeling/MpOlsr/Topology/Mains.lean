import MpOlsr.Lib.Simulation
import MpOlsr.Topology.Refine

/-!
# Main addresses

A well-formed topology is a shape whose nodes have different main addresses.  Careful events keep it, also when an
address is registered as an alias of several nodes (`handleRead_wellFormed`).
-/

namespace MpOlsr

variable {ws : WordSize} {h : Store ws} {g : Shape ws}

/-- A store with a shape, where no two nodes have the same main address. -/
structure WellFormed (h : Store ws) (g : Shape ws) : Prop extends Rep h g where
  mains : ∀ n ∈ g.nodes, ∀ m ∈ g.nodes, g.mainOf n = g.mainOf m → n = m

theorem WellFormed.of_distinct (hr : Rep h g) (hd : Distinct g.addrs) : WellFormed h g :=
  ⟨hr, fun _ hn _ hm => hr.mainOf_inj hd hn hm⟩

/-- A node after an event was there before, with the same main address, or it is new, like its main address. -/
theorem Rep.act_node (hr : Rep h g) {m : OlsrEventMessage ws} (hm : careful h m = true) {n : Ptr}
    (hn : n ∈ (g.act h.brk m).nodes) : (n ∈ g.nodes ∧ (g.act h.brk m).mainOf n = g.mainOf n) ∨
      n = h.brk ∧ ∀ n' ∈ g.nodes, g.mainOf n' ≠ (g.act h.brk m).mainOf n := by
  cases m with
  | DEV_CMD_RESET_TC => exact (List.not_mem_nil hn).elim
  | DEV_CMD_ADD_NODE a =>
    rw [Shape.act] at hn ⊢
    cases ha : resolve g.addrs a with
    | some e =>
      simp only [ha] at hn
      exact Or.inl ⟨hn, rfl⟩
    | none =>
      simp only [ha] at hn
      rcases List.mem_cons.1 hn with rfl | hn
      · refine Or.inr ⟨rfl, fun n' hn' heq => ?_⟩
        obtain ⟨e, he, -, -, haddr⟩ := hr.mainEntry hn'
        exact resolve_eq_none.1 ha e he (haddr.trans (heq.trans (g.mainOf_addNode_self _ _ a)))
      · have hne : h.brk ≠ n := fun hb => hr.fresh_node (hb ▸ hn)
        exact Or.inl ⟨hn, g.mainOf_addNode _ a hne⟩
  | DEV_CMD_REMOVE_NODE a =>
    rw [Shape.act] at hn ⊢
    cases ha : resolve g.addrs a with
    | none =>
      simp only [ha] at hn
      exact Or.inl ⟨hn, rfl⟩
    | some e =>
      simp only [ha] at hn
      obtain ⟨hn, hne⟩ := List.mem_filter.1 hn
      exact Or.inl ⟨hn, g.mainOf_dropNode (of_decide_eq_true hne)⟩
  | DEV_CMD_ADD_LINK s d c =>
    rw [Shape.act] at hn ⊢
    split at hn
    · exact Or.inl ⟨hn, rfl⟩
    · exact Or.inl ⟨hn, rfl⟩
  | DEV_CMD_REMOVE_LINK s d =>
    rw [Shape.act] at hn ⊢
    split at hn
    · exact Or.inl ⟨hn, rfl⟩
    · exact Or.inl ⟨hn, rfl⟩
  | DEV_CMD_ADD_ALIAS a b =>
    rw [Shape.act] at hn ⊢
    cases ha : resolve g.addrs a with
    | none =>
      simp only [ha] at hn
      exact Or.inl ⟨hn, rfl⟩
    | some e =>
      cases hi : freeSlot g.addrs e.node with
      | none =>
        simp only [ha, hi] at hn
        simp only [hi]
        exact Or.inl ⟨hn, trivial⟩
      | some i =>
        simp only [ha, hi] at hn ⊢
        exact Or.inl ⟨hn, g.mainOf_addEntry (freeSlot_spec hi).2 n⟩
  | DEV_CMD_REMOVE_ALIAS a b =>
    rw [Shape.act] at hn ⊢
    cases ha : resolve g.addrs a with
    | none =>
      simp only [ha] at hn
      exact Or.inl ⟨hn, rfl⟩
    | some e =>
      cases hb : resolve g.addrs b with
      | none =>
        simp only [ha, hb] at hn
        exact Or.inl ⟨hn, rfl⟩
      | some e' =>
        simp only [ha, hb] at hn
        have he' := (resolve_mem hb).1
        have hpos : e'.pos ≠ 0 := by
          rw [careful, hr.get_node, ha, tc_find_addr_spec hr.addrsRep, hb] at hm
          have hblock := hr.addrsRep.blocks e' he'
          simpa [hblock, AddrInfo.block] using hm
        exact Or.inl ⟨hn, hr.mainOf_dropEntry he' hpos n⟩
  | DEV_CMD_SET_LOCAL_ADDR a k => exact Or.inl ⟨hn, rfl⟩
  | DEV_CMD_SET_ALIAS_ADDR a k => exact Or.inl ⟨hn, rfl⟩

/-- After an event the main addresses still differ. -/
theorem WellFormed.act (hw : WellFormed h g) {m : OlsrEventMessage ws} (hm : careful h m = true) :
    ∀ n ∈ (g.act h.brk m).nodes, ∀ n' ∈ (g.act h.brk m).nodes,
      (g.act h.brk m).mainOf n = (g.act h.brk m).mainOf n' → n = n' := by
  have hr := hw.toRep
  intro n hn n' hn' heq
  rcases hr.act_node hm hn with ⟨hold, hmain⟩ | ⟨hnew, hfresh⟩
  · rcases hr.act_node hm hn' with ⟨hold', hmain'⟩ | ⟨-, hfresh'⟩
    · exact hw.mains n hold n' hold' (hmain.symm.trans (heq.trans hmain'))
    · exact (hfresh' n hold (hmain.symm.trans heq)).elim
  · rcases hr.act_node hm hn' with ⟨hold', hmain'⟩ | ⟨hnew', -⟩
    · exact (hfresh n' hold' (hmain'.symm.trans heq.symm)).elim
    · exact hnew.trans hnew'.symm

theorem handleRead_wellFormed (hw : WellFormed h g) {m : OlsrEventMessage ws} (hm : careful h m = true) :
    ∃ h', handleRead h m = some h' ∧ WellFormed h' (g.act h.brk m) := by
  obtain ⟨h', hrun, hr'⟩ := handleRead_spec hw.toRep hm
  exact ⟨h', hrun, hr', hw.act hm⟩

/-- The shape after events. -/
def Shape.acts (g : Shape ws) (h : Store ws) : List (OlsrEventMessage ws) → Shape ws
  | [] => g
  | m :: ms =>
    match handleRead h m with
    | none => g
    | some h' => (g.act h.brk m).acts h' ms

theorem handleReads_wellFormed (hw : WellFormed h g) (ms : List (OlsrEventMessage ws))
    (hms : Simulation.guarded handleRead careful h ms = true) :
    ∃ h', handleReads h ms = some h' ∧ WellFormed h' (g.acts h ms) := by
  induction ms generalizing h g with
  | nil => exact ⟨h, rfl, hw⟩
  | cons m ms ih =>
    rw [Simulation.guarded, Bool.and_eq_true] at hms
    obtain ⟨h', hrun, hw'⟩ := handleRead_wellFormed hw hms.1
    have hms' := hms.2
    rw [hrun] at hms'
    obtain ⟨h'', hrun', hw''⟩ := ih hw' hms'
    refine ⟨h'', ?_, ?_⟩
    · rw [handleReads, List.foldlM_cons, hrun]
      exact hrun'
    · rw [Shape.acts, hrun]
      exact hw''

theorem WellFormed.init : WellFormed (tc_init_data : Store ws) ⟨[], [], []⟩ :=
  ⟨Rep.init, fun _ hn => (List.not_mem_nil hn).elim⟩

end MpOlsr
