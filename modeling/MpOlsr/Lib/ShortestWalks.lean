import Mathlib.Data.List.Perm.Subperm
import MpOlsr.Lib.Dijkstra

/-!
# Shortest walks

If no simple path from the source is too long for the labels, the labels of Dijkstra's algorithm are the lengths of the
shortest walks (`run_correct`).
-/

namespace Dijkstra

variable {V E W : Type} [Add W] {G : Graph V E W} {L : Labels V W} {s v n : V} {es : List E} {val : W → ℕ} {top : W}
  [LT W] [DecidableLT W] [DecidableEq V] {N : List V}

/-- No simple path from `s` is as long as `top`. -/
def Short (G : Graph V E W) (val : W → ℕ) (top : W) (s : V) : Prop :=
  ∀ v es, Walk G s v es → (s :: es.map G.dst).Nodup → (es.map fun e => val (G.weight e)).sum < val top

omit [Add W] [LT W] [DecidableLT W] [DecidableEq V] in
/-- If the weights are small enough for the number of vertices, no simple path is too long. -/
theorem Short.of_weights {m : ℕ} (hout : ∀ v, ∀ e ∈ G.out v, G.dst e ∈ N ∧ val (G.weight e) ≤ m)
    (htop : N.length * m < val top) : Short G val top s := by
  intro v es hw hnodup
  have hes : ∀ e ∈ es, G.dst e ∈ N ∧ val (G.weight e) ≤ m := by
    clear hnodup
    induction hw with
    | nil => simp
    | snoc _ he ih =>
      intro e' he'
      rcases List.mem_append.1 he' with he' | he'
      · exact ih e' he'
      · rw [List.mem_singleton.1 he']
        exact hout _ _ he
  have hlen : es.length ≤ N.length := by
    have hsub : es.map G.dst ⊆ N := by
      intro x hx
      obtain ⟨e, he, rfl⟩ := List.mem_map.1 hx
      exact (hes e he).1
    simpa using ((List.nodup_cons.1 hnodup).2.subperm hsub).length_le
  have hsum : (es.map fun e => val (G.weight e)).sum ≤ es.length * m := by
    clear hw hnodup hlen
    induction es with
    | nil => simp
    | cons e es ih =>
      have hle := ih fun e' he' => hes e' (List.mem_cons_of_mem _ he')
      have he := (hes e List.mem_cons_self).2
      rw [List.map_cons, List.sum_cons, List.length_cons, Nat.succ_mul]
      omega
  calc (es.map fun e => val (G.weight e)).sum ≤ es.length * m := hsum
    _ ≤ N.length * m := Nat.mul_le_mul_right m hlen
    _ < val top := htop

/-- The edges of the settled vertices are relaxed, but for the edges `rest` of `n`; no vertex that is not settled is
nearer than a settled one. -/
structure Ordered (G : Graph V E W) (val : W → ℕ) (N : List V) (s n : V) (rest : List E) (L : Labels V W) : Prop where
  source : val (L.cost s) = 0
  relaxed : ∀ u ∈ N, u ∉ L.todo → ∀ e ∈ G.out u, (u = n ∧ e ∈ rest) ∨
    val (L.cost (G.dst e)) ≤ val (L.cost u) + val (G.weight e)
  settled : ∀ u ∈ N, u ∉ L.todo → ∀ v ∈ L.todo, val (L.cost u) ≤ val (L.cost v)
  last : rest ≠ [] → ∀ u ∈ N, u ∉ L.todo → val (L.cost u) ≤ val (L.cost n)

theorem relax_cost_le (hm : Measure val top) (L : Labels V W) (e : E) (x : V) :
    val ((relax G n L e).cost x) ≤ val (L.cost x) := by
  rw [relax]
  split
  · next h =>
    show val (Function.update L.cost (G.dst e) _ x) ≤ _
    by_cases hx : x = G.dst e
    · subst hx
      rw [Function.update_self]
      exact Nat.le_of_lt ((hm.lt_iff _ _).1 h.2)
    · exact Nat.le_of_eq (congrArg val (Function.update_of_ne hx _ _))
  · exact Nat.le_refl _

/-- Where the addition does not wrap around, the end of a relaxed edge is as near as the edge makes it. -/
theorem relax_dst_le (hm : Measure val top) {e : E}
    (hadd : G.dst e ∈ L.todo → val (L.cost n + G.weight e) = val (L.cost n) + val (G.weight e))
    (hsettled : G.dst e ∉ L.todo → val (L.cost (G.dst e)) ≤ val (L.cost n)) :
    val ((relax G n L e).cost (G.dst e)) ≤ val (L.cost n) + val (G.weight e) := by
  rw [relax]
  split
  · next h =>
    show val (Function.update L.cost (G.dst e) _ (G.dst e)) ≤ _
    refine Nat.le_of_eq ?_
    rw [Function.update_self, hadd h.1]
  · next h =>
    by_cases hmem : G.dst e ∈ L.todo
    · have hge : ¬ L.cost n + G.weight e < L.cost (G.dst e) := fun hlt => h ⟨hmem, hlt⟩
      rw [hm.lt_iff, hadd hmem] at hge
      exact Nat.not_lt.1 hge
    · exact Nat.le_trans (hsettled hmem) (Nat.le_add_right _ _)

theorem le_relax_cost {e : E}
    (hadd : G.dst e ∈ L.todo → val (L.cost n + G.weight e) = val (L.cost n) + val (G.weight e)) {x : V}
    (hx : val (L.cost n) ≤ val (L.cost x)) : val (L.cost n) ≤ val ((relax G n L e).cost x) := by
  rw [relax]
  split
  · next h =>
    show _ ≤ val (Function.update L.cost (G.dst e) _ x)
    by_cases hxe : x = G.dst e
    · subst hxe
      rw [Function.update_self, hadd h.1]
      exact Nat.le_add_right _ _
    · rw [Function.update_of_ne hxe]
      exact hx
  · exact hx

omit [DecidableLT W] [DecidableEq V] in
/-- The addition does not wrap around when an edge to a vertex that is not settled is relaxed. -/
theorem add_of_short (hm : Measure val top) (hshort : Short G val top s) (hf : Forest G top N (· = s) L) (hn : n ∈ N)
    (htodo : n ∉ L.todo) (hs : val (L.cost s) = 0) {e : E} (he : e ∈ G.out n) (hmem : G.dst e ∈ L.todo) :
    val (L.cost n + G.weight e) = val (L.cost n) + val (G.weight e) := by
  obtain ⟨r, es, rfl, -, hc⟩ := hf.chain n hn (hf.reached n hn htodo)
  have hnew : G.dst e ∉ r :: es.map G.dst := by
    intro hmem'
    rcases hc.settled hmem' with heq | hset
    · exact htodo (heq ▸ hmem)
    · exact hset hmem
  have hlt := hshort _ _ (.snoc hc.walk he) (nodup_snoc hc.nodup hnew)
  rw [sum_snoc, ← hc.cost_eq hm hshort hs] at hlt
  exact hm.add _ _ hlt

theorem Ordered.relax (hm : Measure val top) (hshort : Short G val top s) (hf : Forest G top N (· = s) L)
    (hout : ∀ e ∈ G.out n, G.dst e ∈ N) (hn : n ∈ N) (htodo : n ∉ L.todo) {e : E} {rest : List E} (he : e ∈ G.out n)
    (h : Ordered G val N s n (e :: rest) L) : Ordered G val N s n rest (relax G n L e) := by
  have hlast := h.last (List.cons_ne_nil _ _)
  have hadd := add_of_short hm hshort hf hn htodo h.source he
  have hkeep : ∀ u, u ∉ L.todo → (Dijkstra.relax G n L e).cost u = L.cost u := fun u hu => (relax_of_not_mem L e hu).1
  refine ⟨?_, ?_, ?_, ?_⟩
  · exact Nat.le_zero.1 (h.source ▸ relax_cost_le hm L e s)
  · intro u hu hut e' he'
    rw [relax_todo] at hut
    rw [hkeep u hut]
    have hold := h.relaxed u hu hut e' he'
    rcases hold with ⟨rfl, hmem⟩ | hle
    · rcases List.mem_cons.1 hmem with rfl | hmem
      · exact Or.inr (relax_dst_le hm hadd fun hset => hlast _ (hout _ he) hset)
      · exact Or.inl ⟨rfl, hmem⟩
    · exact Or.inr (Nat.le_trans (relax_cost_le hm L e _) hle)
  · intro u hu hut v hv
    rw [relax_todo] at hut hv
    rw [hkeep u hut]
    exact Nat.le_trans (hlast u hu hut) (le_relax_cost hadd (h.settled n hn htodo v hv))
  · intro _ u hu hut
    rw [relax_todo] at hut
    rw [hkeep u hut, hkeep n htodo]
    exact hlast u hu hut

theorem Ordered.foldl_relax (hm : Measure val top) (hshort : Short G val top s)
    (hout : ∀ e ∈ G.out n, G.dst e ∈ N) (hn : n ∈ N) (es : List E) (hes : ∀ e ∈ es, e ∈ G.out n)
    (hf : Forest G top N (· = s) L) (htodo : n ∉ L.todo) (h : Ordered G val N s n es L) :
    Ordered G val N s n [] (es.foldl (Dijkstra.relax G n) L) := by
  induction es generalizing L with
  | nil => exact h
  | cons e es ih =>
    have he := hes e List.mem_cons_self
    exact ih (fun e' he' => hes e' (List.mem_cons_of_mem _ he')) (hf.relax hn htodo he) (by rwa [relax_todo])
      (h.relax hm hshort hf hout hn htodo he)

omit [Add W] [DecidableLT W] in
/-- A vertex with the least label is settled, and its edges are still to be relaxed. -/
theorem Ordered.erase {m : V} (h : Ordered G val N s m [] L) (hleast : Least val top L n) :
    Ordered G val N s n (G.out n) { L with todo := L.todo.erase n } := by
  have hof : ∀ u, u ∉ L.todo.erase n → u ≠ n → u ∉ L.todo :=
    fun u hu hun hmem' => hu ((List.mem_erase_of_ne hun).2 hmem')
  refine ⟨h.source, ?_, ?_, ?_⟩
  · intro u hu hut e he
    by_cases hun : u = n
    · exact Or.inl ⟨hun, hun ▸ he⟩
    · rcases h.relaxed u hu (hof u hut hun) e he with ⟨-, hnil⟩ | hle
      · exact (List.not_mem_nil hnil).elim
      · exact Or.inr hle
  · intro u hu hut v hv
    have hv := List.mem_of_mem_erase hv
    by_cases hun : u = n
    · exact hun ▸ hleast.least v hv
    · exact h.settled u hu (hof u hut hun) v hv
  · intro _ u hu hut
    by_cases hun : u = n
    · exact hun ▸ Nat.le_refl _
    · exact h.settled u hu (hof u hut hun) n hleast.mem

theorem Ordered.settle (hm : Measure val top) (hshort : Short G val top s)
    (hout : ∀ v ∈ N, ∀ e ∈ G.out v, G.dst e ∈ N) (hf : Forest G top N (· = s) L) {m : V}
    (h : Ordered G val N s m [] L) (hleast : Least val top L n) : Ordered G val N s n [] (settle G L n) := by
  have hn := hf.sub n hleast.mem
  exact Ordered.foldl_relax hm hshort (hout n hn) hn _ (fun _ he => he) (hf.erase hleast.reached)
    (List.Nodup.not_mem_erase hf.nodup) (h.erase hleast)

theorem run_ordered (hm : Measure val top) (hshort : Short G val top s)
    (hout : ∀ v ∈ N, ∀ e ∈ G.out v, G.dst e ∈ N) (k : ℕ) (hf : Forest G top N (· = s) L) {m : V}
    (h : Ordered G val N s m [] L) : ∃ m, Ordered G val N s m [] (run G top k L) := by
  induction k generalizing L m with
  | zero => exact ⟨m, h⟩
  | succ k ih =>
    rw [run]
    cases hp : pick top L with
    | none => exact ⟨m, h⟩
    | some n =>
      have hleast := pick_least hm hp
      exact ih (hf.settle hleast) (h.settle hm hshort hout hf hleast)

omit [DecidableLT W] in
/-- As the algorithm ends, every walk from the source leads to a vertex that is reached, and none is shorter than
its label. -/
theorem Ordered.optimal (hm : Measure val top) (hshort : Short G val top s)
    (hout : ∀ v ∈ N, ∀ e ∈ G.out v, G.dst e ∈ N) (hf : Forest G top N (· = s) L)
    (hdone : ∀ v ∈ L.todo, ¬ L.cost v < top) {m : V} (h : Ordered G val N s m [] L) (hs : s ∈ N) (hw : Walk G s v es) : v ∈ N ∧ L.cost v < top ∧
      val (L.cost v) ≤ (es.map fun e => val (G.weight e)).sum := by
  have hsettled : ∀ u ∈ N, L.cost u < top → u ∉ L.todo := fun u _ hu hmem => hdone u hmem hu
  have hpos : 0 < val top := by simpa using hshort s [] .nil (List.nodup_singleton s)
  induction hw with
  | nil =>
    refine ⟨hs, (hm.lt_iff _ _).2 ?_, ?_⟩
    · rw [h.source]
      exact hpos
    · rw [h.source]
      exact Nat.zero_le _
  | @snoc u e es hw he ih =>
    obtain ⟨hu, hut, hle⟩ := ih
    have hrelaxed : val (L.cost (G.dst e)) ≤ val (L.cost u) + val (G.weight e) := by
      rcases h.relaxed u hu (hsettled u hu hut) e he with ⟨-, hnil⟩ | hle
      · exact (List.not_mem_nil hnil).elim
      · exact hle
    refine ⟨hout u hu e he, ?_, ?_⟩
    · -- the walk to `u` along the chain goes on to the end of the edge, unless this is on the chain
      obtain ⟨r, fs, rfl, -, hc⟩ := hf.chain u hu hut
      by_cases hmem : G.dst e ∈ r :: fs.map G.dst
      · rcases hc.settled hmem with heq | hset
        · exact heq ▸ hut
        · exact hf.reached _ (hout u hu e he) hset
      · have hlt := hshort _ _ (.snoc hc.walk he) (nodup_snoc hc.nodup hmem)
        rw [sum_snoc, ← hc.cost_eq hm hshort h.source] at hlt
        exact (hm.lt_iff _ _).2 (Nat.lt_of_le_of_lt hrelaxed hlt)
    · rw [sum_snoc]
      exact Nat.le_trans hrelaxed (Nat.add_le_add_right hle _)

omit [DecidableLT W] in
/-- As the algorithm ends, the label of a vertex is the length of the shortest walk to it, along the chain of its
predecessors, and `top` without a walk. -/
theorem Ordered.correct (hm : Measure val top) (hshort : Short G val top s)
    (hout : ∀ v ∈ N, ∀ e ∈ G.out v, G.dst e ∈ N) (hf : Forest G top N (· = s) L)
    (hdone : ∀ v ∈ L.todo, ¬ L.cost v < top) {m : V} (h : Ordered G val N s m [] L) (hs : s ∈ N) (hv : v ∈ N) :
      (L.cost v = top ↔ ¬ ∃ es, Walk G s v es) ∧
      (L.cost v ≠ top → ∃ es, Chain G L s v es ∧ val (L.cost v) = (es.map fun e => val (G.weight e)).sum) ∧
      ∀ es, Walk G s v es → val (L.cost v) ≤ (es.map fun e => val (G.weight e)).sum := by
  have hopt : ∀ es, Walk G s v es → L.cost v < top ∧ val (L.cost v) ≤ (es.map fun e => val (G.weight e)).sum :=
    fun es hw => (h.optimal hm hshort hout hf hdone hs hw).2
  have hchain : L.cost v ≠ top → ∃ es, Chain G L s v es ∧
      val (L.cost v) = (es.map fun e => val (G.weight e)).sum := by
    intro hcv
    obtain ⟨r, es, rfl, -, hc⟩ := hf.chain v hv (hm.lt_top hcv)
    exact ⟨es, hc, hc.cost_eq hm hshort h.source⟩
  refine ⟨⟨?_, ?_⟩, hchain, fun es hw => (hopt es hw).2⟩
  · intro htop hw
    obtain ⟨es, hw⟩ := hw
    exact hm.ne_top (hopt es hw).1 htop
  · intro hw
    by_contra hcv
    obtain ⟨es, hc, -⟩ := hchain hcv
    exact hw ⟨es, hc.walk⟩

omit [DecidableLT W] [DecidableEq V] in
/-- As the algorithm starts, only the source is reached. -/
theorem forest_start (hm : Measure val top) (hN : L.todo.Nodup) (hpred : L.pred s = none)
    (hother : ∀ v ∈ L.todo, v ≠ s → L.cost v = top) : Forest G top L.todo (· = s) L := by
  refine .init (fun v hv hcv => ?_) hN
  have hvs : v = s := by
    by_contra hvs
    exact hm.ne_top hcv (hother v hv hvs)
  exact ⟨hvs, hvs ▸ hpred⟩

omit [Add W] [LT W] [DecidableLT W] [DecidableEq V] in
theorem ordered_start (hsource : val (L.cost s) = 0) : Ordered G val L.todo s s [] L :=
  ⟨hsource, fun _ hu hut => (hut hu).elim, fun _ hu hut => (hut hu).elim, fun hnil => (hnil rfl).elim⟩

/-- Dijkstra's algorithm is correct. -/
theorem run_correct (hm : Measure val top) (hshort : Short G val top s)
    (hout : ∀ v ∈ L.todo, ∀ e ∈ G.out v, G.dst e ∈ L.todo) (hN : L.todo.Nodup) (hs : s ∈ L.todo)
    (hsource : val (L.cost s) = 0) (hpred : L.pred s = none) (hother : ∀ v ∈ L.todo, v ≠ s → L.cost v = top) (k : ℕ)
    (hk : L.todo.length ≤ k) : ∀ v ∈ L.todo,
      ((run G top k L).cost v = top ↔ ¬ ∃ es, Walk G s v es) ∧
      ((run G top k L).cost v ≠ top → ∃ es, Chain G (run G top k L) s v es ∧
        val ((run G top k L).cost v) = (es.map fun e => val (G.weight e)).sum) ∧
      ∀ es, Walk G s v es → val ((run G top k L).cost v) ≤ (es.map fun e => val (G.weight e)).sum := by
  have hforest := forest_start (G := G) hm hN hpred hother
  obtain ⟨m, ho⟩ := run_ordered hm hshort hout k hforest (ordered_start hsource)
  have hdone := pick_none hm (run_done (G := G) hm k hk)
  exact fun v hv => ho.correct hm hshort hout (run_forest hm k hforest) hdone hs hv

end Dijkstra
