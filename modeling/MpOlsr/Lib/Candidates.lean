import MpOlsr.Lib.ShortestWalks

/-!
# Candidates

Dijkstra's algorithm as routing daemons run it: an edge is relaxed even if its end is settled already, and the value of
a neighbour of the source (a next hop) is handed along to the vertices behind it (`Handed`).
-/

namespace Dijkstra

variable {V E W : Type} [Add W] {G : Graph V E W} {L : Labels V W} {s v n : V} {es : List E} {val : W → ℕ} {top : W}
  [LT W] {N : List V}

/-! ### Small weights -/

/-- The weights are so small that no addition wraps around in a graph with the vertices of `N`. -/
structure Small (G : Graph V E W) (val : W → ℕ) (top : W) (N : List V) (m : ℕ) : Prop where
  out : ∀ v ∈ N, ∀ e ∈ G.out v, G.dst e ∈ N
  weight : ∀ v, ∀ e ∈ G.out v, val (G.weight e) ≤ m
  top : N.length * m < val top

omit [Add W] [LT W] in
theorem Walk.mem (hout : ∀ v ∈ N, ∀ e ∈ G.out v, G.dst e ∈ N) (hs : s ∈ N) (h : Walk G s v es) :
    ∀ x ∈ s :: es.map G.dst, x ∈ N := by
  induction h with
  | nil => simpa using hs
  | @snoc u e es h he ih =>
    intro x hx
    have hu : u ∈ N := by
      cases h with
      | nil => exact hs
      | snoc => exact ih _ (by simp)
    rw [List.map_append, List.map_singleton, ← List.cons_append, List.mem_append, List.mem_singleton] at hx
    rcases hx with hx | rfl
    · exact ih x hx
    · exact hout u hu e he

omit [Add W] [LT W] in
theorem Walk.eq_source (h : Walk G s v es) (hes : es = []) : v = s := by
  cases h with
  | nil => rfl
  | snoc => simp at hes

omit [Add W] [LT W] in
theorem Walk.head_mem {e : E} (h : Walk G s v (e :: es)) : e ∈ G.out s := by
  generalize hl : e :: es = l at h
  induction h generalizing es with
  | nil => simp at hl
  | @snoc u e' es' h he ih =>
    cases es' with
    | nil =>
      simp only [List.nil_append, List.cons.injEq] at hl
      rw [hl.1, ← h.eq_source rfl]
      exact he
    | cons e'' es' =>
      simp only [List.cons_append, List.cons.injEq] at hl
      exact ih (by rw [hl.1])

omit [Add W] [LT W] in
theorem Walk.sum_le {m : ℕ} (hw : ∀ v, ∀ e ∈ G.out v, val (G.weight e) ≤ m) (h : Walk G s v es) :
    (es.map fun e => val (G.weight e)).sum ≤ es.length * m := by
  induction h with
  | nil => simp
  | @snoc u e es h he ih =>
    have he := hw u e he
    rw [sum_snoc, List.length_append, List.length_singleton, Nat.add_mul, Nat.one_mul]
    omega

omit [Add W] [LT W] in
/-- A simple path has fewer edges than the graph has vertices. -/
theorem Walk.length_lt (hout : ∀ v ∈ N, ∀ e ∈ G.out v, G.dst e ∈ N) (hs : s ∈ N) (h : Walk G s v es)
    (hnodup : (s :: es.map G.dst).Nodup) : es.length + 1 ≤ N.length := by
  simpa using (hnodup.subperm (h.mem hout hs)).length_le

omit [Add W] [LT W] in
theorem Small.short {m : ℕ} (h : Small G val top N m) (hs : s ∈ N) : Short G val top s := by
  intro v es hw hnodup
  have hlength := hw.length_lt h.out hs hnodup
  calc (es.map fun e => val (G.weight e)).sum ≤ es.length * m := hw.sum_le h.weight
    _ ≤ N.length * m := Nat.mul_le_mul_right m (by omega)
    _ < val top := h.top

/-- The addition does not wrap around when an edge of a settled vertex is relaxed. -/
theorem Small.add_lt {m : ℕ} (h : Small G val top N m) (hm : Measure val top) (hs : s ∈ N)
    (hf : Forest G top N (· = s) L) (hsource : val (L.cost s) = 0) (hn : n ∈ N) (hreached : L.cost n < top) {e : E}
    (he : e ∈ G.out n) : val (L.cost n) + val (G.weight e) < val top := by
  obtain ⟨r, es, rfl, -, hc⟩ := hf.chain n hn hreached
  have hlength := hc.walk.length_lt h.out hs hc.nodup
  have hsum := hc.walk.sum_le h.weight
  have hweight := h.weight n e he
  rw [hc.cost_eq hm (h.short hs) hsource]
  have hmul : (es.length + 1) * m ≤ N.length * m := Nat.mul_le_mul_right m hlength
  have htop := h.top
  rw [Nat.add_mul, Nat.one_mul] at hmul
  omega

/-! ### Edges to settled vertices -/

variable [DecidableLT W] [DecidableEq V]

/-- The end of an edge is reached along the edge. -/
def reach (G : Graph V E W) (n : V) (L : Labels V W) (e : E) : Labels V W :=
  { L with cost := Function.update L.cost (G.dst e) (L.cost n + G.weight e),
           pred := Function.update L.pred (G.dst e) (some n),
           hops := Function.update L.hops (G.dst e) (L.hops n + 1) }

/-- Relax an edge from `n`, wherever it ends. -/
def relaxAny (G : Graph V E W) (n : V) (L : Labels V W) (e : E) : Labels V W :=
  if L.cost n + G.weight e < L.cost (G.dst e) then reach G n L e else L

/-- An edge to a settled vertex changes nothing. -/
theorem relaxAny_eq (hm : Measure val top) {e : E} (hadd : val (L.cost n) + val (G.weight e) < val top)
    (hsettled : G.dst e ∉ L.todo → val (L.cost (G.dst e)) ≤ val (L.cost n)) :
    relaxAny G n L e = relax G n L e := by
  rw [relaxAny, relax]
  by_cases hmem : G.dst e ∈ L.todo
  · simp only [hmem, true_and]
    rfl
  · have hle := hsettled hmem
    have hge : ¬ L.cost n + G.weight e < L.cost (G.dst e) := by
      rw [hm.lt_iff, hm.add _ _ hadd]
      omega
    rw [if_neg hge, if_neg fun hlt => hmem hlt.1]

/-! ### Values that are handed along -/

variable {β : Type} {first next : V → Option β}

/-- The values `next` come from the values `first` of the neighbours of the source. -/
structure Handed (s : V) (first next : V → Option β) (L : Labels V W) : Prop where
  source : next s = none
  fresh : ∀ v, v ≠ s → L.pred v = none → next v = first v
  hand : ∀ v u, L.pred v = some u → u ∉ L.todo ∧ next v = if u = s then first v else next u
  isSome : ∀ v u, L.pred v = some u → (next v).isSome = true

omit [Add W] [LT W] [DecidableLT W] in
/-- Before the source is settled, no vertex has a predecessor. -/
theorem handed_start (hpred : ∀ v, L.pred v = none) (hsource : first s = none) : Handed s first first L where
  source := hsource
  fresh := fun _ _ _ => rfl
  hand := by simp [hpred]
  isSome := by simp [hpred]

/-- Hand the value of `n` along an edge, unless there is none. -/
def handOn (n : V) (next : V → Option β) (x : V) : V → Option β :=
  Function.update next x (if (next n).isSome then next n else next x)

omit [LT W] [DecidableLT W] in
/-- What an edge of the source leads to keeps its value; every other edge hands a value along. -/
theorem Handed.relax (h : Handed s first next L) (hn : n ∉ L.todo) {e : E} (hstart : s ∉ L.todo)
    (hfirst : n = s → (first (G.dst e)).isSome = true ∧ ∀ v u, L.pred v = some u → u = s)
    (hlater : n ≠ s → ∃ u, L.pred n = some u) (hmem : G.dst e ∈ L.todo) :
    Handed s first (handOn n next (G.dst e)) (reach G n L e) := by
  have hds : G.dst e ≠ s := fun heq => hstart (heq ▸ hmem)
  have hvalue : handOn n next (G.dst e) (G.dst e) = (if n = s then first (G.dst e) else next n) ∧
      (handOn n next (G.dst e) (G.dst e)).isSome = true := by
    rw [handOn, Function.update_self]
    by_cases hns : n = s
    · subst hns
      obtain ⟨hsome, hearly⟩ := hfirst rfl
      have hkeep : next (G.dst e) = first (G.dst e) := by
        cases hp : L.pred (G.dst e) with
        | none => exact h.fresh _ hds hp
        | some u => rw [(h.hand _ u hp).2, if_pos (hearly _ u hp)]
      rw [h.source, if_pos rfl, if_neg (by simp), hkeep]
      exact ⟨rfl, hsome⟩
    · obtain ⟨u, hu⟩ := hlater hns
      have hsome := h.isSome n u hu
      rw [if_pos hsome, if_neg hns]
      exact ⟨rfl, hsome⟩
  have hkeep : ∀ x, x ≠ G.dst e → handOn n next (G.dst e) x = next x := fun x hx => Function.update_of_ne hx _ _
  refine ⟨?_, ?_, ?_, ?_⟩
  · rw [hkeep s hds.symm, h.source]
  · intro v hv hpred
    by_cases hvd : v = G.dst e
    · subst hvd
      simp [reach] at hpred
    · rw [hkeep v hvd]
      exact h.fresh v hv (by simpa [reach, hvd] using hpred)
  · intro v u hpred
    by_cases hvd : v = G.dst e
    · subst hvd
      obtain rfl : n = u := by simpa [reach] using hpred
      have hnd : n ≠ G.dst e := fun heq => hn (heq ▸ hmem)
      refine ⟨hn, ?_⟩
      rw [hvalue.1, hkeep n hnd]
    · obtain ⟨hu, hnext⟩ := h.hand v u (by simpa [reach, hvd] using hpred)
      have hud : u ≠ G.dst e := fun heq => hu (heq ▸ hmem)
      refine ⟨hu, ?_⟩
      rw [hkeep v hvd, hkeep u hud, hnext]
  · intro v u hpred
    by_cases hvd : v = G.dst e
    · subst hvd
      exact hvalue.2
    · rw [hkeep v hvd]
      exact h.isSome v u (by simpa [reach, hvd] using hpred)

omit [LT W] [DecidableLT W] in
/-- Along a chain, the value is that of the first vertex behind the source. -/
theorem Handed.chain (h : Handed s first next L) (hc : Chain G L s v es) (hv : v ≠ s) :
    ∃ e es', es = e :: es' ∧ next v = first (G.dst e) := by
  induction hc with
  | root => exact absurd rfl hv
  | @step u e es hc hu he hpred hnew hcost hhops ih =>
    have hnext := (h.hand _ u hpred).2
    by_cases hus : u = s
    · subst hus
      rw [if_pos rfl] at hnext
      cases hc with
      | root => exact ⟨e, [], rfl, hnext⟩
      | step hc' _ _ hpred' => exact absurd (hc'.pred_root.symm.trans hpred') (by simp)
    · obtain ⟨e', es', rfl, hfirst⟩ := ih hus
      rw [if_neg hus] at hnext
      exact ⟨e', es' ++ [e], rfl, hnext.trans hfirst⟩

/-! ### The search -/

variable (G n) in
/-- Relax an edge from `n`, and hand on the value of `n` if the end is reached along it. -/
def explore (p : Labels V W × (V → Option β)) (e : E) : Labels V W × (V → Option β) :=
  if p.1.cost n + G.weight e < p.1.cost (G.dst e) then (reach G n p.1 e, handOn n p.2 (G.dst e)) else p

/-- Every edge of the source leads to a vertex that has a value. -/
def Covered (G : Graph V E W) (s : V) (first : V → Option β) : Prop := ∀ e ∈ G.out s, (first (G.dst e)).isSome = true

/-- Between two rounds. -/
structure Searching (G : Graph V E W) (val : W → ℕ) (top : W) (N : List V) (s : V) (first : V → Option β)
    (p : Labels V W × (V → Option β)) : Prop where
  forest : Forest G top N (· = s) p.1
  ordered : ∃ m, Ordered G val N s m [] p.1
  early : s ∈ p.1.todo → ∀ v, p.1.pred v = none
  handed : Covered G s first → Handed s first p.2 p.1

/-- In the round of `n`, whose edges `rest` are still to be explored. -/
structure Exploring (G : Graph V E W) (val : W → ℕ) (top : W) (N : List V) (s : V) (first : V → Option β) (n : V)
    (rest : List E) (p : Labels V W × (V → Option β)) : Prop where
  forest : Forest G top N (· = s) p.1
  ordered : Ordered G val N s n rest p.1
  mem : n ∈ N
  settled : n ∉ p.1.todo
  source : s ∉ p.1.todo
  early : n = s → ∀ v u, p.1.pred v = some u → u = s
  handed : Covered G s first → Handed s first p.2 p.1

variable {p : Labels V W × (V → Option β)} {m : ℕ}

omit [DecidableLT W] in
theorem Searching.settle (h : Searching G val top N s first p) (hn : Least val top p.1 n) :
    Exploring G val top N s first n (G.out n) ({ p.1 with todo := p.1.todo.erase n }, p.2) := by
  obtain ⟨k, hordered⟩ := h.ordered
  have hmem := h.forest.sub n hn.mem
  have hsettled : n ∉ p.1.todo.erase n := List.Nodup.not_mem_erase h.forest.nodup
  -- before the source is settled, no other vertex is reached
  have hfirst : s ∈ p.1.todo → n = s := by
    intro hs
    obtain ⟨r, es, rfl, -, hc⟩ := h.forest.chain n hmem hn.reached
    cases hc with
    | root => rfl
    | step _ _ _ hpred => exact absurd ((h.early hs _).symm.trans hpred) (by simp)
  have hsource : s ∉ p.1.todo.erase n := by
    intro hs
    obtain rfl := hfirst (List.mem_of_mem_erase hs)
    exact hsettled hs
  refine ⟨h.forest.erase hn.reached, hordered.erase hn, hmem, hsettled, hsource, ?_, ?_⟩
  · rintro rfl v u hpred
    exact absurd ((h.early hn.mem v).symm.trans hpred) (by simp)
  · intro hcovered
    have hhanded := h.handed hcovered
    refine ⟨hhanded.source, hhanded.fresh, fun v u hpred => ?_, hhanded.isSome⟩
    obtain ⟨hu, hnext⟩ := hhanded.hand v u hpred
    exact ⟨fun hmem' => hu (List.mem_of_mem_erase hmem'), hnext⟩

/-- An edge of the round: a vertex that is reached along it is not settled. -/
theorem Exploring.explore (hm : Measure val top) (hsmall : Small G val top N m) (hs : s ∈ N) {e : E} {rest : List E}
    (h : Exploring G val top N s first n (e :: rest) p) (he : e ∈ G.out n) :
    (p.1.cost n + G.weight e < p.1.cost (G.dst e) → G.dst e ∈ p.1.todo) ∧
      Exploring G val top N s first n rest (explore G n p e) := by
  have hreached := h.forest.reached n h.mem h.settled
  have hadd := hsmall.add_lt hm hs h.forest h.ordered.source h.mem hreached he
  have hsettled : G.dst e ∉ p.1.todo → val (p.1.cost (G.dst e)) ≤ val (p.1.cost n) :=
    h.ordered.last (List.cons_ne_nil _ _) _ (hsmall.out n h.mem e he)
  have hopen : p.1.cost n + G.weight e < p.1.cost (G.dst e) → G.dst e ∈ p.1.todo := by
    intro hlt
    by_contra hmem
    have hle := hsettled hmem
    rw [hm.lt_iff, hm.add _ _ hadd] at hlt
    omega
  have hrelax : (Dijkstra.explore G n p e).1 = Dijkstra.relax G n p.1 e := by
    rw [← relaxAny_eq hm hadd hsettled, Dijkstra.explore, relaxAny]
    split <;> rfl
  have htodo : (Dijkstra.explore G n p e).1.todo = p.1.todo := by rw [hrelax, relax_todo]
  refine ⟨hopen, ?_, ?_, h.mem, by rw [htodo]; exact h.settled, by rw [htodo]; exact h.source, ?_, ?_⟩
  · rw [hrelax]
    exact h.forest.relax h.mem h.settled he
  · rw [hrelax]
    exact h.ordered.relax hm (hsmall.short hs) h.forest (hsmall.out n h.mem) h.mem h.settled he
  · rintro rfl v u hpred
    unfold Dijkstra.explore at hpred
    split at hpred
    · by_cases hve : v = G.dst e
      · subst hve
        simpa [reach] using hpred.symm
      · exact h.early rfl v u (by simpa [reach, hve] using hpred)
    · exact h.early rfl v u hpred
  · intro hcovered
    have hhanded := h.handed hcovered
    unfold Dijkstra.explore
    split
    · rename_i hlt
      refine hhanded.relax h.settled h.source ?_ ?_ (hopen hlt)
      · rintro rfl
        exact ⟨hcovered e he, h.early rfl⟩
      · intro hns
        obtain ⟨r, es, rfl, -, hc⟩ := h.forest.chain n h.mem hreached
        cases hc with
        | root => exact absurd rfl hns
        | @step u _ _ _ _ _ hpred => exact ⟨u, hpred⟩
    · exact hhanded

omit [DecidableLT W] in
theorem Exploring.finish (h : Exploring G val top N s first n [] p) : Searching G val top N s first p :=
  ⟨h.forest, ⟨n, h.ordered⟩, fun hs => absurd hs h.source, h.handed⟩

omit [DecidableLT W] in
theorem searching_start (hm : Measure val top) (hN : N.Nodup) {cost : V → W} {hops : V → ℕ}
    (hsource : val (cost s) = 0) (hother : ∀ v ∈ N, v ≠ s → cost v = top) (hfirst : first s = none) :
    Searching G val top N s first (⟨cost, fun _ => none, hops, N⟩, first) where
  forest := forest_start (L := ⟨cost, fun _ => none, hops, N⟩) hm hN rfl hother
  ordered := ⟨s, ordered_start (L := ⟨cost, fun _ => none, hops, N⟩) hsource⟩
  early := fun _ _ => rfl
  handed := fun _ => handed_start (fun _ => rfl) hfirst

omit [DecidableLT W] in
/-- As the search ends, the labels are the lengths of the shortest walks, and a vertex that is reached has the value of
the first vertex of such a walk. -/
theorem Searching.correct (hm : Measure val top) (hsmall : Small G val top N m) (hs : s ∈ N)
    (h : Searching G val top N s first p) (hdone : ∀ v ∈ p.1.todo, ¬ p.1.cost v < top) (hv : v ∈ N) :
    (p.1.cost v = top ↔ ¬ ∃ es, Walk G s v es) ∧
      (∀ es, Walk G s v es → val (p.1.cost v) ≤ (es.map fun e => val (G.weight e)).sum) ∧
      (p.1.cost v ≠ top → ∃ es, Walk G s v es ∧ val (p.1.cost v) = (es.map fun e => val (G.weight e)).sum ∧
        p.1.hops v = p.1.hops s + es.length ∧
        (Covered G s first → v ≠ s → ∃ e es', es = e :: es' ∧ p.2 v = first (G.dst e))) := by
  obtain ⟨k, hordered⟩ := h.ordered
  obtain ⟨hnone, hchain, hleast⟩ := hordered.correct hm (hsmall.short hs) hsmall.out h.forest hdone hs hv
  refine ⟨hnone, hleast, fun hne => ?_⟩
  obtain ⟨es, hc, hsum⟩ := hchain hne
  exact ⟨es, hc.walk, hsum, hc.hops_eq, fun hcovered hvs => (h.handed hcovered).chain hc hvs⟩

end Dijkstra
