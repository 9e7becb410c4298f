import Mathlib.Algebra.BigOperators.Group.List.Basic
import Mathlib.Algebra.GroupWithZero.Nat
import Mathlib.Data.List.Nodup
import Mathlib.Logic.Function.Basic

/-!
# Shortest paths

Dijkstra's algorithm on a graph with parallel edges, with labels in a type `W` that need not be a number: an addition
that may wrap around, an order, and a largest element `top` for the vertices that are not reached.  The predecessors
always form a forest (`run_forest`), and the hops of the roots only shift the hops of all vertices (`Shifted.run`).
-/

namespace Dijkstra

/-- The edges that leave a vertex, where they lead, and their weights. -/
structure Graph (V E W : Type) where
  out : V → List E
  dst : E → V
  weight : E → W

/-- The labels of the vertices, and the vertices that are not settled. -/
structure Labels (V W : Type) where
  cost : V → W
  pred : V → Option V
  hops : V → ℕ
  todo : List V

variable {V E W : Type}

/-- A walk from `s` along the edges of a list. -/
inductive Walk (G : Graph V E W) (s : V) : V → List E → Prop
  | nil : Walk G s s []
  | snoc {u : V} {e : E} {es : List E} (h : Walk G s u es) (he : e ∈ G.out u) : Walk G s (G.dst e) (es ++ [e])

/-- How the elements of `W` measure: the addition is right below `top`. -/
structure Measure [Add W] [LT W] (val : W → ℕ) (top : W) : Prop where
  lt_iff : ∀ x y, x < y ↔ val x < val y
  le_top : ∀ x, val x ≤ val top
  inj : ∀ x y, val x = val y → x = y
  add : ∀ x y, val x + val y < val top → val (x + y) = val x + val y

section Measure

variable [Add W] [LT W] {val : W → ℕ} {top x : W}

theorem Measure.lt_top (hm : Measure val top) (hx : x ≠ top) : x < top :=
  (hm.lt_iff _ _).2 (Nat.lt_of_le_of_ne (hm.le_top x) fun heq => hx (hm.inj _ _ heq))

theorem Measure.ne_top (hm : Measure val top) (hx : x < top) : x ≠ top := by
  intro heq
  exact Nat.lt_irrefl _ ((hm.lt_iff _ _).1 (heq ▸ hx))

/-- Unsigned machine numbers. -/
theorem measure_bitVec (w : ℕ) : Measure (BitVec.toNat (w := w)) (BitVec.allOnes w) where
  lt_iff := fun _ _ => BitVec.lt_def
  le_top := fun x => by
    rw [BitVec.toNat_allOnes]
    exact Nat.le_sub_one_of_lt x.isLt
  inj := fun _ _ hxy => BitVec.eq_of_toNat_eq hxy
  add := fun x y hxy => by
    rw [BitVec.toNat_allOnes] at hxy
    rw [BitVec.toNat_add, Nat.mod_eq_of_lt (by omega)]

end Measure

section Algorithm

variable [Add W] [LT W] [DecidableLT W] [DecidableEq V]

/-- The first vertex with the least cost below `m`. -/
def pickFrom (cost : V → W) : W → Option V → List V → Option V
  | _, best, [] => best
  | m, best, v :: vs => if cost v < m then pickFrom cost (cost v) (some v) vs else pickFrom cost m best vs

def pick (top : W) (L : Labels V W) : Option V := pickFrom L.cost top none L.todo

/-- Relax an edge from `n`. -/
def relax (G : Graph V E W) (n : V) (L : Labels V W) (e : E) : Labels V W :=
  if G.dst e ∈ L.todo ∧ L.cost n + G.weight e < L.cost (G.dst e) then
    { L with cost := Function.update L.cost (G.dst e) (L.cost n + G.weight e),
             pred := Function.update L.pred (G.dst e) (some n),
             hops := Function.update L.hops (G.dst e) (L.hops n + 1) }
  else L

/-- Settle a vertex and relax its edges. -/
def settle (G : Graph V E W) (L : Labels V W) (n : V) : Labels V W :=
  (G.out n).foldl (relax G n) { L with todo := L.todo.erase n }

def run (G : Graph V E W) (top : W) : ℕ → Labels V W → Labels V W
  | 0, L => L
  | k + 1, L =>
    match pick top L with
    | none => L
    | some n => run G top k (settle G L n)

end Algorithm

/-- The edges along which the predecessors lead from a root to a vertex, all vertices but the last one settled. -/
inductive Chain [Add W] (G : Graph V E W) (L : Labels V W) (r : V) : V → List E → Prop
  | root (h : L.pred r = none) : Chain G L r r []
  | step {u : V} {e : E} {es : List E} (h : Chain G L r u es) (hu : u ∉ L.todo) (he : e ∈ G.out u)
      (hpred : L.pred (G.dst e) = some u) (hnew : G.dst e ∉ r :: es.map G.dst)
      (hcost : L.cost (G.dst e) = L.cost u + G.weight e) (hhops : L.hops (G.dst e) = L.hops u + 1) :
      Chain G L r (G.dst e) (es ++ [e])

variable [Add W] {G : Graph V E W} {L L' : Labels V W} {r s v n : V} {es : List E} {val : W → ℕ} {top : W}

/-! ### Chains -/

omit [Add W] in
theorem nodup_snoc {e : E} (h : (r :: es.map G.dst).Nodup) (he : G.dst e ∉ r :: es.map G.dst) :
    (r :: (es ++ [e]).map G.dst).Nodup := by
  have happ : r :: (es ++ [e]).map G.dst = (r :: es.map G.dst) ++ [G.dst e] := by simp
  rw [happ, List.nodup_append]
  refine ⟨h, List.nodup_singleton _, fun x hx y hy hxy => ?_⟩
  rw [List.mem_singleton] at hy
  exact he (hy ▸ hxy ▸ hx)

omit [Add W] in
theorem sum_snoc (w : E → ℕ) (es : List E) (e : E) : ((es ++ [e]).map w).sum = (es.map w).sum + w e := by
  rw [List.map_append, List.sum_append, List.map_singleton, List.sum_singleton]

namespace Chain

theorem walk (h : Chain G L r v es) : Walk G r v es := by
  induction h with
  | root => exact .nil
  | step _ _ he _ _ _ _ ih => exact .snoc ih he

theorem nodup (h : Chain G L r v es) : (r :: es.map G.dst).Nodup := by
  induction h with
  | root => exact List.nodup_singleton r
  | step _ _ _ _ hnew _ _ ih => exact nodup_snoc ih hnew

theorem hops_eq (h : Chain G L r v es) : L.hops v = L.hops r + es.length := by
  induction h with
  | root => simp
  | step _ _ _ _ _ _ hhops ih =>
    rw [hhops, ih, List.length_append, List.length_singleton]
    omega

theorem pred_root (h : Chain G L r v es) : L.pred r = none := by
  induction h with
  | root h => exact h
  | step _ _ _ _ _ _ _ ih => exact ih

/-- The vertices before the end of a chain are settled. -/
theorem settled (h : Chain G L r v es) {x : V} (hx : x ∈ r :: es.map G.dst) : x = v ∨ x ∉ L.todo := by
  induction h with
  | root => exact Or.inl (List.mem_singleton.1 hx)
  | @step u e es _ hu _ _ _ _ _ ih =>
    have happ : r :: (es ++ [e]).map G.dst = (r :: es.map G.dst) ++ [G.dst e] := by simp
    rw [happ, List.mem_append, List.mem_singleton] at hx
    rcases hx with hx | hx
    · rcases ih hx with rfl | hx
      · exact Or.inr hu
      · exact Or.inr hx
    · exact Or.inl hx

/-- A chain only depends on the labels of the settled vertices and of its end. -/
theorem congr (h : Chain G L r v es) (htodo : ∀ x, x ∉ L.todo → x ∉ L'.todo)
    (hlabel : ∀ x, x ∉ L.todo ∨ x = v → L'.cost x = L.cost x ∧ L'.pred x = L.pred x ∧ L'.hops x = L.hops x) :
    Chain G L' r v es := by
  induction h with
  | root h => exact .root ((hlabel r (Or.inr rfl)).2.1.trans h)
  | @step u e es _ hu he hpred hnew hcost hhops ih =>
    have hend := hlabel (G.dst e) (Or.inr rfl)
    have hbefore := hlabel u (Or.inl hu)
    refine .step (ih fun x hx => hlabel x (Or.inl ?_)) (htodo u hu) he (hend.2.1.trans hpred) hnew ?_ ?_
    · rcases hx with hx | rfl
      · exact hx
      · exact hu
    · rw [hend.1, hbefore.1, hcost]
    · rw [hend.2.2, hbefore.2.2, hhops]

/-- The cost of the end of a chain is its length, if no simple path is too long. -/
theorem cost_eq [LT W] (hm : Measure val top) (h : Chain G L s v es)
    (hshort : ∀ v es, Walk G s v es → (s :: es.map G.dst).Nodup → (es.map fun e => val (G.weight e)).sum < val top)
    (hs : val (L.cost s) = 0) : val (L.cost v) = (es.map fun e => val (G.weight e)).sum := by
  induction h with
  | root => simpa using hs
  | @step u e es h hu he hpred hnew hcost hhops ih =>
    have hlt := hshort _ _ (.snoc h.walk he) (nodup_snoc h.nodup hnew)
    rw [sum_snoc] at hlt ⊢
    rw [hcost, hm.add _ _ (by rwa [ih]), ih]

end Chain

variable [LT W] [DecidableLT W] [DecidableEq V] {N : List V} {R : V → Prop}

/-! ### The choice of a vertex -/

omit [DecidableEq V] in
theorem pickFrom_spec (hm : Measure val top) (cost : V → W) (vs : List V) (m : W) (best : Option V)
    (hbest : ∀ n, best = some n → cost n = m) :
    (∀ n, pickFrom cost m best vs = some n → val (cost n) ≤ val m ∧ (n ∈ vs ∧ cost n < m ∨ best = some n) ∧
      ∀ v ∈ vs, val (cost n) ≤ val (cost v)) ∧
    (pickFrom cost m best vs = none → best = none ∧ ∀ v ∈ vs, ¬ cost v < m) := by
  induction vs generalizing m best with
  | nil =>
    refine ⟨fun n hn => ⟨?_, Or.inr hn, by simp⟩, fun hn => ⟨hn, by simp⟩⟩
    exact Nat.le_of_eq (congrArg val (hbest n hn))
  | cons v vs ih =>
    rw [pickFrom]
    split
    · next hlt =>
      obtain ⟨hsome, hnone⟩ := ih (cost v) (some v) fun n hn => Option.some_inj.1 hn ▸ rfl
      have hvm := (hm.lt_iff _ _).1 hlt
      constructor
      · intro n hn
        obtain ⟨hle, hmem, hmin⟩ := hsome n hn
        refine ⟨Nat.le_trans hle (Nat.le_of_lt hvm), Or.inl ?_, ?_⟩
        · rcases hmem with ⟨hmem, hnv⟩ | hmem
          · exact ⟨List.mem_cons_of_mem _ hmem, (hm.lt_iff _ _).2 (Nat.lt_trans ((hm.lt_iff _ _).1 hnv) hvm)⟩
          · rw [← Option.some_inj.1 hmem]
            exact ⟨List.mem_cons_self, hlt⟩
        · intro x hx
          rcases List.mem_cons.1 hx with rfl | hx
          · exact hle
          · exact hmin x hx
      · intro hn
        cases (hnone hn).1
    · next hge =>
      obtain ⟨hsome, hnone⟩ := ih m best hbest
      have hvm : val m ≤ val (cost v) := Nat.not_lt.1 fun hlt => hge ((hm.lt_iff _ _).2 hlt)
      constructor
      · intro n hn
        obtain ⟨hle, hmem, hmin⟩ := hsome n hn
        refine ⟨hle, hmem.imp_left fun hh => ⟨List.mem_cons_of_mem _ hh.1, hh.2⟩, ?_⟩
        intro x hx
        rcases List.mem_cons.1 hx with rfl | hx
        · exact Nat.le_trans hle hvm
        · exact hmin x hx
      · intro hn
        refine ⟨(hnone hn).1, fun x hx => ?_⟩
        rcases List.mem_cons.1 hx with rfl | hx
        · exact hge
        · exact (hnone hn).2 x hx

omit [DecidableEq V] in
theorem pick_some (hm : Measure val top) (h : pick top L = some n) :
    n ∈ L.todo ∧ L.cost n < top ∧ ∀ v ∈ L.todo, val (L.cost n) ≤ val (L.cost v) := by
  obtain ⟨-, hmem, hmin⟩ := (pickFrom_spec hm L.cost L.todo top none (by simp)).1 n h
  rcases hmem with hmem | hmem
  · exact ⟨hmem.1, hmem.2, hmin⟩
  · cases hmem

/-- `n` is a vertex that is not settled, with the least label. -/
structure Least (val : W → ℕ) (top : W) (L : Labels V W) (n : V) : Prop where
  mem : n ∈ L.todo
  reached : L.cost n < top
  least : ∀ v ∈ L.todo, val (L.cost n) ≤ val (L.cost v)

omit [DecidableEq V] in
theorem pick_least (hm : Measure val top) (h : pick top L = some n) : Least val top L n :=
  have ⟨hmem, hcost, hmin⟩ := pick_some hm h
  ⟨hmem, hcost, hmin⟩

omit [DecidableEq V] in
theorem pick_none (hm : Measure val top) (h : pick top L = none) : ∀ v ∈ L.todo, ¬ L.cost v < top :=
  ((pickFrom_spec hm L.cost L.todo top none (by simp)).2 h).2

/-! ### What relaxing does not change -/

theorem relax_todo (L : Labels V W) (e : E) : (relax G n L e).todo = L.todo := by
  rw [relax]
  split <;> rfl

theorem relax_of_not_mem {x : V} (L : Labels V W) (e : E) (hx : x ∉ L.todo) :
    (relax G n L e).cost x = L.cost x ∧ (relax G n L e).pred x = L.pred x ∧ (relax G n L e).hops x = L.hops x := by
  rw [relax]
  split
  · next h =>
    have hne : x ≠ G.dst e := fun hxe => hx (hxe ▸ h.1)
    exact ⟨Function.update_of_ne hne _ _, Function.update_of_ne hne _ _, Function.update_of_ne hne _ _⟩
  · exact ⟨rfl, rfl, rfl⟩

theorem settle_todo (L : Labels V W) (n : V) : (settle G L n).todo = L.todo.erase n := by
  have hrun : ∀ (es : List E) (L : Labels V W), (es.foldl (relax G n) L).todo = L.todo := by
    intro es
    induction es with
    | nil => exact fun _ => rfl
    | cons e es ih => exact fun L => (ih _).trans (relax_todo L e)
  exact hrun _ _

/-! ### The forest of the predecessors -/

/-- Every vertex that is reached hangs on a chain from a root; the settled vertices are reached. -/
structure Forest (G : Graph V E W) (top : W) (N : List V) (R : V → Prop) (L : Labels V W) : Prop where
  nodup : L.todo.Nodup
  sub : ∀ v ∈ L.todo, v ∈ N
  reached : ∀ v ∈ N, v ∉ L.todo → L.cost v < top
  chain : ∀ v ∈ N, L.cost v < top → ∃ r es, R r ∧ r ∈ N ∧ Chain G L r v es

theorem Forest.relax (h : Forest G top N R L) (hn : n ∈ N) (htodo : n ∉ L.todo) {e : E}
    (he : e ∈ G.out n) : Forest G top N R (relax G n L e) := by
  by_cases hif : G.dst e ∈ L.todo ∧ L.cost n + G.weight e < L.cost (G.dst e)
  · obtain ⟨hmem, hlt⟩ := hif
    have heq : Dijkstra.relax G n L e = ⟨Function.update L.cost (G.dst e) (L.cost n + G.weight e),
        Function.update L.pred (G.dst e) (some n), Function.update L.hops (G.dst e) (L.hops n + 1), L.todo⟩ :=
      if_pos ⟨hmem, hlt⟩
    rw [heq]
    let L' : Labels V W := ⟨Function.update L.cost (G.dst e) (L.cost n + G.weight e),
      Function.update L.pred (G.dst e) (some n), Function.update L.hops (G.dst e) (L.hops n + 1), L.todo⟩
    have hkeep : ∀ x, x ≠ G.dst e → L'.cost x = L.cost x ∧ L'.pred x = L.pred x ∧ L'.hops x = L.hops x := fun x hx =>
      ⟨Function.update_of_ne hx _ _, Function.update_of_ne hx _ _, Function.update_of_ne hx _ _⟩
    have hchain : ∀ {r x es}, Chain G L r x es → x ≠ G.dst e → Chain G L' r x es := by
      intro r x es hc hx
      refine hc.congr (fun _ hy => hy) fun y hy => hkeep y ?_
      rcases hy with hy | rfl
      · exact fun hye => hy (hye ▸ hmem)
      · exact hx
    have hne : n ≠ G.dst e := fun hne => htodo (hne ▸ hmem)
    refine ⟨h.nodup, h.sub, ?_, ?_⟩
    · intro x hx hxt
      have hxe : x ≠ G.dst e := fun hxe => hxt (hxe ▸ hmem)
      rw [(hkeep x hxe).1]
      exact h.reached x hx hxt
    · intro x hx hcost
      by_cases hxe : x = G.dst e
      · subst hxe
        obtain ⟨r, es, hR, hr, hc⟩ := h.chain n hn (h.reached n hn htodo)
        refine ⟨r, es ++ [e], hR, hr, .step (hchain hc hne) htodo he (Function.update_self _ _ _) ?_ ?_ ?_⟩
        · intro hmem'
          rcases hc.settled hmem' with heq | hset
          · exact hne heq.symm
          · exact hset hmem
        · rw [(hkeep n hne).1]
          exact Function.update_self _ _ _
        · rw [(hkeep n hne).2.2]
          exact Function.update_self _ _ _
      · rw [(hkeep x hxe).1] at hcost
        obtain ⟨r, es, hR, hr, hc⟩ := h.chain x hx hcost
        exact ⟨r, es, hR, hr, hchain hc hxe⟩
  · have heq : Dijkstra.relax G n L e = L := if_neg hif
    rw [heq]
    exact h

omit [DecidableLT W] in
/-- A chosen vertex is settled. -/
theorem Forest.erase (h : Forest G top N R L) (hcost : L.cost n < top) :
    Forest G top N R { L with todo := L.todo.erase n } where
  nodup := h.nodup.erase n
  sub := fun v hv => h.sub v (List.mem_of_mem_erase hv)
  reached := by
    intro v hv hvt
    by_cases hvn : v = n
    · exact hvn ▸ hcost
    · exact h.reached v hv fun hmem => hvt ((List.mem_erase_of_ne hvn).2 hmem)
  chain := by
    intro v hv hcv
    obtain ⟨r, es, hR, hr, hc⟩ := h.chain v hv hcv
    exact ⟨r, es, hR, hr, hc.congr (fun x hx hmem => hx (List.mem_of_mem_erase hmem)) fun _ _ => ⟨rfl, rfl, rfl⟩⟩

theorem Forest.foldl_relax (es : List E) (h : Forest G top N R L) (hn : n ∈ N)
    (htodo : n ∉ L.todo) (hes : ∀ e ∈ es, e ∈ G.out n) : Forest G top N R (es.foldl (Dijkstra.relax G n) L) := by
  induction es generalizing L with
  | nil => exact h
  | cons e es ih =>
    exact ih (h.relax hn htodo (hes e List.mem_cons_self)) (by rwa [relax_todo])
      fun e' he' => hes e' (List.mem_cons_of_mem _ he')

theorem Forest.settle (h : Forest G top N R L) (hn : Least val top L n) : Forest G top N R (settle G L n) :=
  (h.erase hn.reached).foldl_relax _ (h.sub n hn.mem) (List.Nodup.not_mem_erase h.nodup) fun _ he => he

/-- The predecessors form a forest after every run. -/
theorem run_forest (hm : Measure val top) (k : ℕ) (h : Forest G top N R L) : Forest G top N R (run G top k L) := by
  induction k generalizing L with
  | zero => exact h
  | succ k ih =>
    rw [run]
    cases hp : pick top L with
    | none => exact h
    | some n => exact ih (h.settle (pick_least hm hp))

/-- A run that is long enough leaves only vertices that are not reached. -/
theorem run_done (hm : Measure val top) (k : ℕ) (hk : L.todo.length ≤ k) : pick top (run G top k L) = none := by
  induction k generalizing L with
  | zero =>
    have hnil : L.todo = [] := List.length_eq_zero_iff.1 (Nat.le_zero.1 hk)
    rw [run, pick, hnil]
    rfl
  | succ k ih =>
    rw [run]
    cases hp : pick top L with
    | none => exact hp
    | some n =>
      refine ih ?_
      rw [settle_todo, List.length_erase_of_mem (pick_some hm hp).1]
      omega

omit [DecidableLT W] [DecidableEq V] in
/-- The labels as the algorithm starts. -/
theorem Forest.init (hR : ∀ v ∈ L.todo, L.cost v < top → R v ∧ L.pred v = none) (hN : L.todo.Nodup) :
    Forest G top L.todo R L :=
  ⟨hN, fun _ hv => hv, fun _ hv hv' => (hv' hv).elim,
    fun v hv hc => ⟨v, [], (hR v hv hc).1, hv, .root (hR v hv hc).2⟩⟩

/-! ### Graphs with the same edges -/

/-- The algorithm only sees the weights of the edges of the graph. -/
theorem run_congr {G' : Graph V E W} (hout : G'.out = G.out) (hdst : G'.dst = G.dst)
    (hweight : ∀ v, ∀ e ∈ G.out v, G'.weight e = G.weight e) (k : ℕ) (L : Labels V W) :
    run G' top k L = run G top k L := by
  have hfold : ∀ (n : V) (es : List E) (L : Labels V W), (∀ e ∈ es, G'.weight e = G.weight e) →
      es.foldl (relax G' n) L = es.foldl (relax G n) L := by
    intro n es
    induction es with
    | nil => exact fun _ _ => rfl
    | cons e es ih =>
      intro L hes
      have hrelax : relax G' n L e = relax G n L e := by
        rw [relax, relax, hdst, hes e List.mem_cons_self]
      rw [List.foldl_cons, List.foldl_cons, hrelax]
      exact ih _ fun e' he' => hes e' (List.mem_cons_of_mem _ he')
  induction k generalizing L with
  | zero => rfl
  | succ k ih =>
    rw [run, run]
    cases pick top L with
    | none => rfl
    | some n =>
      have hsettle : settle G' L n = settle G L n := by
        rw [settle, settle, hout]
        exact hfold n _ _ (hweight n)
      simp only [hsettle]
      exact ih _

/-! ### The hops of the roots -/

/-- A vertex at distance zero keeps its labels. -/
theorem relax_of_zero (hm : Measure val top) {L : Labels V W} (hv : val (L.cost v) = 0) (e : E) :
    (relax G n L e).cost v = L.cost v ∧ (relax G n L e).pred v = L.pred v ∧ (relax G n L e).hops v = L.hops v := by
  rw [relax]
  split
  · next h =>
    have hve : v ≠ G.dst e := by
      rintro rfl
      have hlt := (hm.lt_iff _ _).1 h.2
      omega
    exact ⟨Function.update_of_ne hve _ _, Function.update_of_ne hve _ _, Function.update_of_ne hve _ _⟩
  · exact ⟨rfl, rfl, rfl⟩

theorem run_of_zero (hm : Measure val top) (k : ℕ) {L : Labels V W} (hv : val (L.cost v) = 0) :
    (run G top k L).cost v = L.cost v ∧ (run G top k L).pred v = L.pred v ∧ (run G top k L).hops v = L.hops v := by
  have hfold : ∀ (n : V) (es : List E) (L : Labels V W), val (L.cost v) = 0 →
      (es.foldl (relax G n) L).cost v = L.cost v ∧ (es.foldl (relax G n) L).pred v = L.pred v ∧
      (es.foldl (relax G n) L).hops v = L.hops v := by
    intro n es
    induction es with
    | nil => exact fun L _ => ⟨rfl, rfl, rfl⟩
    | cons e es ih =>
      intro L hv
      obtain ⟨hcost, hpred, hhops⟩ := relax_of_zero (G := G) (n := n) hm hv e
      obtain ⟨hcost', hpred', hhops'⟩ := ih (relax G n L e) (by rwa [hcost])
      exact ⟨hcost'.trans hcost, hpred'.trans hpred, hhops'.trans hhops⟩
  induction k generalizing L with
  | zero => exact ⟨rfl, rfl, rfl⟩
  | succ k ih =>
    rw [run]
    cases pick top L with
    | none => exact ⟨rfl, rfl, rfl⟩
    | some n =>
      obtain ⟨hcost, hpred, hhops⟩ := hfold n (G.out n) { L with todo := L.todo.erase n } hv
      obtain ⟨hcost', hpred', hhops'⟩ := ih (L := settle G L n) (by rw [settle, hcost]; exact hv)
      exact ⟨hcost'.trans hcost, hpred'.trans hpred, hhops'.trans hhops⟩

/-- Labels that differ only in the hops, for the vertices reached as `a` and `b` do. -/
structure Shifted (top : W) (a b : ℕ) (L L' : Labels V W) : Prop where
  cost : L'.cost = L.cost
  pred : L'.pred = L.pred
  todo : L'.todo = L.todo
  hops : ∀ v, L.cost v < top → L'.hops v + a = L.hops v + b

theorem Shifted.relax {a b : ℕ} (h : Shifted top a b L L') (hn : L'.hops n + a = L.hops n + b) (e : E) :
    Shifted top a b (relax G n L e) (relax G n L' e) := by
  by_cases hif : G.dst e ∈ L.todo ∧ L.cost n + G.weight e < L.cost (G.dst e)
  · have hif' : G.dst e ∈ L'.todo ∧ L'.cost n + G.weight e < L'.cost (G.dst e) := by rwa [h.todo, h.cost]
    rw [Dijkstra.relax, Dijkstra.relax, if_pos hif, if_pos hif']
    refine ⟨by rw [h.cost], by rw [h.pred], h.todo, fun v hv => ?_⟩
    show Function.update L'.hops (G.dst e) (L'.hops n + 1) v + a =
      Function.update L.hops (G.dst e) (L.hops n + 1) v + b
    by_cases hve : v = G.dst e
    · subst hve
      rw [Function.update_self, Function.update_self]
      omega
    · rw [Function.update_of_ne hve, Function.update_of_ne hve]
      have hcost : Function.update L.cost (G.dst e) (L.cost n + G.weight e) v = L.cost v := Function.update_of_ne hve _ _
      exact h.hops v (hcost ▸ hv)
  · have hif' : ¬ (G.dst e ∈ L'.todo ∧ L'.cost n + G.weight e < L'.cost (G.dst e)) := by rwa [h.todo, h.cost]
    rw [Dijkstra.relax, Dijkstra.relax, if_neg hif, if_neg hif']
    exact h

theorem Shifted.foldl_relax {a b : ℕ} (es : List E) (h : Shifted top a b L L') (hn : L'.hops n + a = L.hops n + b)
    (htodo : n ∉ L.todo) : Shifted top a b (es.foldl (Dijkstra.relax G n) L) (es.foldl (Dijkstra.relax G n) L') := by
  induction es generalizing L L' with
  | nil => exact h
  | cons e es ih =>
    refine ih (h.relax hn e) ?_ (by rwa [relax_todo])
    rw [(relax_of_not_mem L e htodo).2.2, (relax_of_not_mem L' e (by rwa [h.todo])).2.2]
    exact hn

/-- The hops of the roots shift the hops of all vertices, and nothing else. -/
theorem Shifted.run (hm : Measure val top) {a b : ℕ} (m : ℕ) (h : Shifted top a b L L') (hnodup : L.todo.Nodup) :
    Shifted top a b (run G top m L) (run G top m L') := by
  induction m generalizing L L' with
  | zero => exact h
  | succ m ih =>
    have hpick : pick top L' = pick top L := by rw [pick, pick, h.cost, h.todo]
    rw [Dijkstra.run, Dijkstra.run, hpick]
    cases hp : pick top L with
    | none => exact h
    | some n =>
      refine ih ?_ (by rw [settle_todo]; exact hnodup.erase n)
      refine Shifted.foldl_relax _ ⟨h.cost, h.pred, by rw [h.todo], h.hops⟩ (h.hops n (pick_some hm hp).2.1) ?_
      exact List.Nodup.not_mem_erase hnodup

end Dijkstra
