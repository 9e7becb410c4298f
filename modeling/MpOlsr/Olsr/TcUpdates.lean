import MpOlsr.Olsr.TcMessages

/-!
# What a TC message does

A message keeps the shape of the TC set, whatever its bytes are, as long as the buffer goes on behind the message and
its borders are within an address (`Shape.olsr_input_tc`).
-/

namespace MpOlsr

open Buffer Bytes

/-! ### Windows of numbers -/

/-- The border is within an address. -/
def validBorder (border : Byte) : Bool := border == 0xff || (1 ≤ border.toNat && border.toNat ≤ 32)

theorem foldlM_store_zero {n : ℕ} (hn : n ≤ 4) (bytes : List Byte) (hbytes : bytes.length = 4) : ∃ bytes',
    (List.range n).foldlM (fun bytes (i : ℕ) => store bytes (4 - i - 1) 0) bytes = some bytes' ∧ bytes'.length = 4 := by
  refine Fault.foldlM_invariant (fun _ (bytes : List Byte) => bytes.length = 4) hbytes fun done i rest bytes hsplit hlength => ?_
  have hi : i < n := by
    rw [← List.mem_range, hsplit]
    exact List.mem_append_right _ List.mem_cons_self
  refine ⟨bytes.set (4 - (i : ℤ) - 1).toNat 0, if_pos ⟨by omega, by omega⟩, ?_⟩
  rw [List.length_set, hlength]

theorem calculateBorder_isSome {border : Byte} (h : validBorder border = true) (ip : OlsrIpAddr) :
    ∃ ip', calculateBorder border ip = some ip' := by
  rw [calculateBorder]
  split
  · exact ⟨ip, rfl⟩
  · rename_i hff
    have hrange : 1 ≤ border.toNat ∧ border.toNat ≤ 32 := by
      rw [validBorder, Bool.or_eq_true, beq_iff_eq, Bool.and_eq_true, decide_eq_true_eq, decide_eq_true_eq] at h
      exact h.resolve_left hff
    have hsub : (border - 1).toNat = border.toNat - 1 := by
      have hone : (1 : Byte).toNat = 1 := rfl
      rw [BitVec.toNat_sub_of_le (by rw [BitVec.le_def, hone]; exact hrange.1), hone]
    obtain ⟨bytes, hrun, hlength⟩ := foldlM_store_zero (n := (border - 1).toNat / 8) (by omega) (leBytes 4 ip.toNat) (by simp)
    have hload : ∃ b, load bytes (4 - (((border - 1).toNat / 8 : ℕ) : ℤ) - 1) = some b := by
      rw [load, if_pos (by omega)]
      exact ⟨_, List.getElem?_eq_getElem (by omega)⟩
    obtain ⟨b, hb⟩ := hload
    dsimp only
    rw [Fault.bind_of_some hrun, Fault.bind_of_some hb]
    have hstore : ∀ v, store bytes (4 - (((border - 1).toNat / 8 : ℕ) : ℤ) - 1) v =
        some (bytes.set (4 - (((border - 1).toNat / 8 : ℕ) : ℤ) - 1).toNat v) :=
      fun v => if_pos ⟨by omega, by omega⟩
    exact ⟨_, (Fault.bind_of_some (hstore _) _).trans rfl⟩

/-! ### Edges -/

namespace TcView

variable {Q : Type} {H : LqHandler Q} {V V' V'' : TcView Q} {x e : Ptr} {b : OlsrIpAddr} {ansn n : BitVec 16}

/-- Only the edges differ. -/
structure SameNodes (V V' : TcView Q) : Prop where
  node : V'.node = V.node
  tc_myself : V'.tc_myself = V.tc_myself
  validity_timer : V'.validity_timer = V.validity_timer
  edge_gc_timer : V'.edge_gc_timer = V.edge_gc_timer

theorem SameNodes.refl (V : TcView Q) : SameNodes V V := ⟨rfl, rfl, rfl, rfl⟩

theorem SameNodes.trans (h : SameNodes V V') (h' : SameNodes V' V'') : SameNodes V V'' :=
  ⟨h'.node.trans h.node, h'.tc_myself.trans h.tc_myself, h'.validity_timer.trans h.validity_timer,
    h'.edge_gc_timer.trans h.edge_gc_timer⟩

theorem SameNodes.addr (h : SameNodes V V') : V'.addr = V.addr := by
  funext y
  unfold TcView.addr
  rw [h.node]

/-- The costs that an edge can get: it is computed, or zero in a block of zeros, or what it was. -/
def Cost (H : LqHandler Q) (V : TcView Q) (e : Ptr) (cost : BitVec 32) : Prop :=
  (∃ q, cost = H.calc_tc_cost q) ∨ cost = 0 ∨ ∃ d, V.link e = some d ∧ cost = d.cost

/-- The block `e` becomes the edge from `x` to `b` with the ANSN `n`, or stays it. -/
structure Renews (H : LqHandler Q) (e x : Ptr) (b : OlsrIpAddr) (n : BitVec 16) (V V' : TcView Q) : Prop
    extends SameNodes V V' where
  link : ∃ d, V'.link = Function.update V.link e (some d) ∧ d.tc = x ∧ d.T_dest_addr = b ∧ d.ansn = n ∧
    Cost H V e d.cost

theorem Renews.trans {n' : BitVec 16} (h : Renews H e x b n V V') (h' : Renews H e x b n' V' V'') :
    Renews H e x b n' V V'' := by
  obtain ⟨d, hlink, -, -, -, hcost⟩ := h.link
  obtain ⟨d', hlink', htc, hdest, hansn, hcost'⟩ := h'.link
  refine ⟨h.toSameNodes.trans h'.toSameNodes, d', by rw [hlink', hlink, Function.update_idem], htc, hdest, hansn, ?_⟩
  rcases hcost' with hcalc | hzero | ⟨d'', hd'', hold⟩
  · exact Or.inl hcalc
  · exact Or.inr (Or.inl hzero)
  · rw [hlink, Function.update_self, Option.some_inj] at hd''
    rw [hold, ← hd'']
    exact hcost

theorem Renews.link_self (h : Renews H e x b n V V') : ∃ d, V'.link e = some d ∧ d.tc = x ∧ d.T_dest_addr = b ∧
    d.ansn = n := by
  obtain ⟨d, hlink, htc, hdest, hansn, -⟩ := h.link
  exact ⟨d, by rw [hlink, Function.update_self], htc, hdest, hansn⟩

theorem renews_setLink {d : TcEdgeEntry Q} (he : V.link e = some d) (f : TcEdgeEntry Q → TcEdgeEntry Q)
    (htc : (f d).tc = d.tc) (hdest : (f d).T_dest_addr = d.T_dest_addr) (hcost : Cost H V e (f d).cost) :
    Renews H e d.tc d.T_dest_addr (f d).ansn V (V.setLink e f) :=
  ⟨⟨rfl, rfl, rfl, rfl⟩, f d, by rw [setLink, he, Option.map_some], htc, hdest, rfl, hcost⟩

theorem renews_refl {d : TcEdgeEntry Q} (he : V.link e = some d) : Renews H e d.tc d.T_dest_addr d.ansn V V :=
  ⟨.refl V, d, by rw [← he, Function.update_eq_self], rfl, rfl, rfl, Or.inr (Or.inr ⟨d, he, rfl⟩)⟩

/-- A property of all costs that can be computed, and of zero, is kept. -/
theorem Renews.costs (h : Renews H e x b n V V') {C : BitVec 32 → Prop} (hcalc : ∀ q, C (H.calc_tc_cost q)) (hzero : C 0)
    (hV : ∀ e d, V.link e = some d → C d.cost) : ∀ e d, V'.link e = some d → C d.cost := by
  obtain ⟨d, hlink, -, -, -, hcost⟩ := h.link
  intro e' d' he'
  rw [hlink] at he'
  by_cases hee : e' = e
  · subst hee
    obtain rfl : d = d' := by simpa using he'
    rcases hcost with ⟨q, hq⟩ | hz | ⟨d₀, hd₀, hold⟩
    · exact hq ▸ hcalc q
    · exact hz ▸ hzero
    · exact hold ▸ hV e' d₀ hd₀
  · exact hV e' d' (by simpa [hee] using he')

end TcView

namespace TcSet

variable {Q : Type} {cnf : OlsrCnf} {H : LqHandler Q} {s : TcSet Q}

theorem read_front {curr : List Byte} {n : ℕ} (hn : n ≤ curr.length) :
    Bytes.read curr 0 n = some (curr.take n) := by
  rw [Bytes.read, if_pos ⟨le_refl _, by omega, by omega⟩]
  simp

theorem load32_front {curr : List Byte} (hcurr : 4 ≤ curr.length) :
    load32 curr 0 = some (BitVec.ofNat 32 (ofLe (curr.take 4))) := by
  have hread : Bytes.read curr 0 4 = some (curr.take 4) := read_front hcurr
  rw [load32, hread, Option.map_some]

theorem Shape.olsr_deserialize_tc_lq_pair (h : Shape s) {e : Ptr} {d : TcEdgeEntry Q} (he : s.view.link e = some d)
    {curr : List Byte} (hcurr : H.tc_lq_size ≤ curr.length) : ∃ s',
    s.olsr_deserialize_tc_lq_pair H e curr = some (s', curr.drop H.tc_lq_size) ∧ Shape s' ∧
      TcView.Renews H e d.tc d.T_dest_addr d.ansn s.view s'.view := by
  obtain ⟨edge, hedge, rfl⟩ := exists_link he
  obtain ⟨s', hrun, hs', hview⟩ := h.setEdge hedge
    (f := fun d => { d with linkquality := H.deserialize_tc_lq (curr.take H.tc_lq_size) }) (fun _ => ⟨rfl, rfl⟩) rfl rfl
  refine ⟨s', ?_, hs', ?_⟩
  · rw [TcSet.olsr_deserialize_tc_lq_pair, Fault.bind_of_some (read_front hcurr), Fault.bind_of_some hrun]
    rfl
  · rw [hview]
    exact TcView.renews_setLink he
      (fun d => { d with linkquality := H.deserialize_tc_lq (curr.take H.tc_lq_size) }) rfl rfl
      (Or.inr (Or.inr ⟨_, he, rfl⟩))

theorem cost_newEdge {V : TcView Q} {e x : Ptr} {addr : OlsrIpAddr} (ansn : BitVec 16) :
    TcView.Cost H V e (newEdge cnf H x addr ansn).cost := by
  unfold newEdge
  dsimp only
  split
  · exact Or.inr (Or.inl rfl)
  · exact Or.inl ⟨H.zero, rfl⟩

variable (cnf) in
theorem Shape.updateLq (h : Shape s) {e : Ptr} {d : TcEdgeEntry Q} (he : s.view.link e = some d)
    {curr : List Byte} (hcurr : H.tc_lq_size ≤ curr.length) : ∃ s' k, s.updateLq cnf H e curr = some (s', curr.drop k) ∧
      Shape s' ∧ TcView.Renews H e d.tc d.T_dest_addr d.ansn s.view s'.view ∧ k ≤ H.tc_lq_size ∧
      (0 < cnf.lq_level → k = H.tc_lq_size) := by
  rw [TcSet.updateLq]
  split
  · obtain ⟨s', hrun, hs', hrenews⟩ := h.olsr_deserialize_tc_lq_pair (H := H) he hcurr
    exact ⟨s', H.tc_lq_size, hrun, hs', hrenews, le_refl _, fun _ => rfl⟩
  · rename_i hlevel
    exact ⟨s, 0, rfl, h, TcView.renews_refl he, Nat.zero_le _, fun hcontra => absurd hcontra hlevel⟩

variable (cnf H) in
theorem Shape.renews_etx (h : Shape s) {e : Ptr} {d : TcEdgeEntry Q} (he : s.view.link e = some d) : ∃ s' relevant,
    s.olsr_calc_tc_edge_entry_etx cnf H e = some (s', relevant) ∧ Shape s' ∧
      TcView.Renews H e d.tc d.T_dest_addr d.ansn s.view s'.view := by
  obtain ⟨edge, hedge, rfl⟩ := exists_link he
  obtain ⟨s', relevant, hrun, hs', hview⟩ := h.olsr_calc_tc_edge_entry_etx cnf H hedge
  refine ⟨s', relevant, hrun, hs', ?_⟩
  rw [hview]
  split
  · exact TcView.renews_refl he
  · exact TcView.renews_setLink he (fun d => { d with cost := H.calc_tc_cost d.linkquality }) rfl rfl
      (Or.inl ⟨edge.data.linkquality, rfl⟩)

/-- What a message about the edge from `x` to `b` does. -/
inductive UpdatesEdge (cnf : OlsrCnf) (H : LqHandler Q) (x : Ptr) (b : OlsrIpAddr) (ansn : BitVec 16) (V V' : TcView Q) : Prop where
  | denied (hvalid : cnf.olsr_validate_address b = false) (hnew : ∀ e, V.arc e ≠ some (x, b)) (hview : V' = V)
  | renewed (e : Ptr) (hrenews : TcView.Renews H e x b ansn V V') (honly : ∀ e', V.arc e' = some (x, b) → e' = e)
      (hold : V.arc e = none ∨ V.arc e = some (x, b))

theorem UpdatesEdge.sameNodes {V V' : TcView Q} {x : Ptr} {b : OlsrIpAddr} {ansn : BitVec 16}
    (h : UpdatesEdge cnf H x b ansn V V') : TcView.SameNodes V V' := by
  cases h with
  | denied hvalid hnew hview => exact hview ▸ .refl V
  | renewed e hrenews honly hold => exact hrenews.toSameNodes

variable (cnf H) in
theorem Shape.olsr_tc_update_edge (h : Shape s) {x : Ptr} {a : OlsrIpAddr} (hx : s.view.addr x = some a)
    (ansn : BitVec 16) (curr : List Byte) (hcurr : 4 + H.tc_lq_size ≤ curr.length) : ∃ s' k change b,
    s.olsr_tc_update_edge cnf H x ansn curr = some (s', (curr.drop 4).drop k, b, change) ∧ Shape s' ∧
      UpdatesEdge cnf H x b ansn s.view s'.view ∧ load32 curr 0 = some b ∧ k ≤ H.tc_lq_size ∧
      (0 < cnf.lq_level → cnf.olsr_validate_address b = true → k = H.tc_lq_size) := by
  obtain ⟨tc, htc, -⟩ := exists_entry hx
  have hload : load32 curr 0 = _ := load32_front (by omega)
  generalize BitVec.ofNat 32 (ofLe (curr.take 4)) = b at hload
  obtain ⟨found, hlookup, hfound⟩ := h.olsr_lookup_tc_edge htc b
  have hrest : H.tc_lq_size ≤ (curr.drop 4).length := by
    rw [List.length_drop]
    omega
  rw [TcSet.olsr_tc_update_edge, Fault.bind_of_some hload, Fault.bind_of_some hlookup]
  cases found with
  | none =>
    have hnew : ∀ e, s.view.arc e ≠ some (x, b) := fun e he => by simpa using (hfound e).2 he
    dsimp only
    cases hvalid : cnf.olsr_validate_address b with
    | false =>
      rw [Bool.not_false, if_pos rfl]
      exact ⟨s, 0, false, b, rfl, h, .denied hvalid hnew rfl, hload, Nat.zero_le _,
        fun _ hcontra => absurd (hvalid.symm.trans hcontra) Bool.false_ne_true⟩
    | true =>
      obtain ⟨s₁, hrun₁, hs₁, hview₁⟩ := h.olsr_add_tc_edge_entry cnf H htc hnew ansn
      have hrenews₁ : TcView.Renews H s.brk x b ansn s.view s₁.view := by
        rw [hview₁]
        exact ⟨⟨rfl, rfl, rfl, rfl⟩, _, rfl, rfl, rfl, rfl, cost_newEdge ansn⟩
      obtain ⟨d, hd, rfl, rfl, rfl⟩ := hrenews₁.link_self
      obtain ⟨s₂, hrun₂, hs₂, hrenews₂⟩ := hs₁.olsr_deserialize_tc_lq_pair (H := H) hd hrest
      refine ⟨s₂, H.tc_lq_size, true, d.T_dest_addr, ?_, hs₂, .renewed s.brk (hrenews₁.trans hrenews₂)
        (fun e he => absurd he (hnew e)) (Or.inl h.fresh_arc), hload, le_refl _, fun _ _ => rfl⟩
      rw [Bool.not_true, if_neg Bool.false_ne_true, Fault.bind_of_some hrun₁]
      dsimp only
      rw [Fault.bind_of_some hrun₂]
      rfl
  | some e =>
    have harc := (hfound e).1 rfl
    have honly : ∀ e', s.view.arc e' = some (x, b) → e' = e := fun e' he' =>
      h.ends_inj e' e _ (TcView.ends_iff.2 ⟨x, he', hx⟩) (TcView.ends_iff.2 ⟨x, harc, hx⟩)
    obtain ⟨edge, he, htce, hdest⟩ := exists_edge harc
    obtain ⟨s₁, hrun₁, hs₁, hview₁⟩ := h.setEdge he (f := fun edge => { edge with ansn := ansn })
      (fun _ => ⟨rfl, rfl⟩) rfl rfl
    have hrenews₁ : TcView.Renews H e x b ansn s.view s₁.view := by
      rw [hview₁, ← htce, ← hdest]
      exact TcView.renews_setLink (link_eq he) (fun edge => { edge with ansn := ansn }) rfl rfl
        (Or.inr (Or.inr ⟨_, link_eq he, rfl⟩))
    obtain ⟨d₁, hd₁, htc₁, hdest₁, hansn₁⟩ := hrenews₁.link_self
    obtain ⟨s₂, k, hrun₂, hs₂, hrenews₂, hk, hlevel⟩ := hs₁.updateLq cnf (H := H) hd₁ hrest
    rw [htc₁, hdest₁, hansn₁] at hrenews₂
    obtain ⟨d₂, hd₂, htc₂, hdest₂, hansn₂⟩ := hrenews₂.link_self
    obtain ⟨s₃, relevant, hrun₃, hs₃, hrenews₃⟩ := hs₂.renews_etx cnf H hd₂
    rw [htc₂, hdest₂, hansn₂] at hrenews₃
    have hrenews := (hrenews₁.trans hrenews₂).trans hrenews₃
    obtain ⟨tc₃, htc₃, -⟩ := exists_entry (show s₃.view.addr x = some a by rw [hrenews.addr, hx])
    refine ⟨s₃, k, relevant && tc₃.msg_hops ≤ cnf.lq_dlimit, b, ?_, hs₃, .renewed e hrenews honly (Or.inr harc), hload,
      hk, fun hpos _ => hlevel hpos⟩
    dsimp only
    rw [Fault.bind_of_some hrun₁, Fault.bind_of_some hrun₂]
    dsimp only
    rw [Fault.bind_of_some hrun₃]
    dsimp only
    rw [Fault.bind_of_some htc₃]
    rfl

/-- What a message about the edges from `x` to the destinations of a list does. -/
inductive UpdatesEdges (cnf : OlsrCnf) (H : LqHandler Q) (x : Ptr) (ansn : BitVec 16) :
    List OlsrIpAddr → TcView Q → TcView Q → Prop
  | nil (V : TcView Q) : UpdatesEdges cnf H x ansn [] V V
  | cons {b : OlsrIpAddr} {bs : List OlsrIpAddr} {V V' V'' : TcView Q} (h : UpdatesEdge cnf H x b ansn V V')
      (hs : UpdatesEdges cnf H x ansn bs V' V'') : UpdatesEdges cnf H x ansn (b :: bs) V V''

theorem UpdatesEdges.sameNodes {x : Ptr} {ansn : BitVec 16} {bs : List OlsrIpAddr} {V V' : TcView Q}
    (h : UpdatesEdges cnf H x ansn bs V V') : TcView.SameNodes V V' := by
  induction h with
  | nil V => exact .refl V
  | cons h hs ih => exact h.sameNodes.trans ih

theorem UpdatesEdges.costs {x : Ptr} {ansn : BitVec 16} {bs : List OlsrIpAddr} {V V' : TcView Q}
    (h : UpdatesEdges cnf H x ansn bs V V') {C : BitVec 32 → Prop} (hcalc : ∀ q, C (H.calc_tc_cost q)) (hzero : C 0)
    (hV : ∀ e d, V.link e = some d → C d.cost) : ∀ e d, V'.link e = some d → C d.cost := by
  induction h with
  | nil V => exact hV
  | cons h hs ih =>
    refine ih ?_
    cases h with
    | denied hvalid hnew hview => exact hview ▸ hV
    | renewed e hrenews honly hold => exact hrenews.costs hcalc hzero hV

/-- The borders after the destinations of a list. -/
def bordersOf : Option (OlsrIpAddr × OlsrIpAddr) → List OlsrIpAddr → Option (OlsrIpAddr × OlsrIpAddr)
  | borders, [] => borders
  | borders, b :: bs => bordersOf (some ((borders.map Prod.fst).getD b, b)) bs

/-- An edge in a message: the destination, and the bytes of the link quality. -/
def tcEdgeBytes (p : OlsrIpAddr × List Byte) : List Byte := leBytes 4 p.1.toNat ++ p.2

theorem load32_tcEdgeBytes (p : OlsrIpAddr × List Byte) (rest : List Byte) :
    load32 (tcEdgeBytes p ++ rest) 0 = some p.1 := by
  have hread : Bytes.read (tcEdgeBytes p ++ rest) 0 4 = some (leBytes 4 p.1.toNat) := by
    rw [tcEdgeBytes, List.append_assoc]
    exact read_eq (a := []) rfl rfl rfl
  rw [load32, hread, Option.map_some, IpHdr.ofLe_addr]

variable (cnf H) in
theorem Shape.walkEdges {x : Ptr} {a : OlsrIpAddr} (ansn : BitVec 16) (fuel : ℕ) : ∀ {s : TcSet Q}, Shape s →
    s.view.addr x = some a → ∀ (curr : List Byte) (left : ℤ) (borders : Option (OlsrIpAddr × OlsrIpAddr)),
    left < fuel → 0 < fuel → 4 + H.tc_lq_size + left ≤ curr.length → ∃ s' bs,
      TcSet.walkEdges cnf H x ansn fuel s curr left borders = some (s', bordersOf borders bs) ∧ Shape s' ∧
      UpdatesEdges cnf H x ansn bs s.view s'.view ∧
      ∀ (es : List (OlsrIpAddr × List Byte)) (rest : List Byte), 0 < cnf.lq_level →
        (∀ p ∈ es, cnf.olsr_validate_address p.1 = true ∧ p.2.length = H.tc_lq_size) →
        curr = es.flatMap tcEdgeBytes ++ rest → left = (es.flatMap tcEdgeBytes).length → bs = es.map Prod.fst := by
  induction fuel with
  | zero => exact fun _ _ _ _ _ _ hpos => absurd hpos (Nat.lt_irrefl 0)
  | succ fuel ih =>
    intro s h hx curr left borders hfuel _ hcurr
    by_cases hleft : left ≤ 0
    · refine ⟨s, [], if_pos hleft, h, .nil _, fun es rest _ _ _ hlength => ?_⟩
      cases es with
      | nil => rfl
      | cons p es =>
        rw [List.flatMap_cons, List.length_append, tcEdgeBytes, List.length_append, length_leBytes] at hlength
        omega
    · obtain ⟨s₁, k, change, b, hrun₁, hs₁, hupdates, hload, hk, hlevel⟩ :=
        h.olsr_tc_update_edge cnf H hx ansn curr (by omega)
      have hdrop : (((curr.drop 4).drop k).length : ℤ) = curr.length - 4 - k := by
        rw [List.length_drop, List.length_drop]
        omega
      have hrest : left - ((curr.length : ℤ) - ((curr.drop 4).drop k).length) = left - 4 - k := by
        rw [hdrop]
        omega
      have hs₁' : Shape { s₁ with changes_topology := s₁.changes_topology || change } := hs₁.flags _ _
      obtain ⟨s', bs, hrun, hs', hupdates', hes⟩ := ih hs₁' (by
        have haddr := hupdates.sameNodes.addr
        rw [← haddr] at hx
        exact hx) ((curr.drop 4).drop k) (left - 4 - k) (some ((borders.map Prod.fst).getD b, b)) (by omega) (by omega)
        (by omega)
      refine ⟨s', b :: bs, ?_, hs', .cons hupdates hupdates', fun es rest hpos hall hsplit hlength => ?_⟩
      · rw [TcSet.walkEdges, if_neg hleft, Fault.bind_of_some hrun₁]
        dsimp only
        rw [hrest]
        exact hrun
      · cases es with
        | nil =>
          rw [List.flatMap_nil, List.length_nil] at hlength
          omega
        | cons p es =>
          obtain ⟨hvalid, hsize⟩ := hall p List.mem_cons_self
          rw [List.flatMap_cons, List.append_assoc] at hsplit
          obtain rfl : p.1 = b := by
            rw [hsplit, load32_tcEdgeBytes] at hload
            exact Option.some_inj.1 hload
          have hbytes : (tcEdgeBytes p).length = 4 + k := by
            rw [tcEdgeBytes, List.length_append, length_leBytes, hsize, hlevel hpos hvalid]
          rw [List.map_cons, hes es rest hpos (fun q hq => hall q (List.mem_cons_of_mem _ hq)) ?_ ?_]
          · rw [hsplit, List.drop_drop, ← hbytes, List.drop_left]
          · rw [hlength, List.flatMap_cons, List.length_append, hbytes]
            push_cast
            omega

end TcSet

end MpOlsr
