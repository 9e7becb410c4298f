import MpOlsr.Lib.SearchTrees
import MpOlsr.Olsr.AvlDelete

/-!
# Runs of operations on an AVL tree

From outside, an AVL tree is the list of its keys and nodes (`Avl.act`).  After any operations the code has this list, and
a search for a key finds the first node that has it, in a number of steps that is logarithmic in the number of nodes
(`Avl.runs_refine`).
-/

namespace MpOlsr

namespace Avl

open AvlTree

/-- The order of the candidate tree in `olsr_spf.c`. -/
def avl_comp_etx (etx1 etx2 : BitVec 32) : ℤ := if etx1 < etx2 then -1 else if etx2 < etx1 then 1 else 0

theorem compares_etx : Compares avl_comp_etx BitVec.toNat := by
  constructor
  all_goals
    intro k k'
    simp only [avl_comp_etx, BitVec.lt_def]
    split_ifs <;> omega

/-- The operations of the callers, who give a node its key before they insert it. -/
inductive Op (K : Type)
  | insert (x : Ptr) (k : K) (allow_duplicates : Bool)
  | delete (x : Ptr)

variable {K : Type}

/-- The code of an operation, with its result; `avl_delete` has none. -/
def exec (comp : K → K → ℤ) (fuel : ℕ) (s : Avl K) : Op K → Option (Avl K × ℤ)
  | .insert x k allow_duplicates => do
    let s ← s.modify x fun n => { n with key := k }
    avl_insert comp fuel s x allow_duplicates
  | .delete x => (avl_delete fuel s x).map fun s => (s, 0)

def execAll (comp : K → K → ℤ) (fuel : ℕ) : Avl K → List (Op K) → Option (Avl K × List ℤ)
  | s, [] => some (s, [])
  | s, op :: ops => do
    let (s, ret) ← exec comp fuel s op
    let (s, rets) ← execAll comp fuel s ops
    return (s, ret :: rets)

section Outside

variable [DecidableEq K] (rank : K → ℕ)

/-- What an operation does to the list of keys and nodes, and its result. -/
def act (t : List (K × Ptr)) : Op K → List (K × Ptr) × ℤ
  | .insert x k true => (SearchTree.insertDup rank k x t, 0)
  | .insert x k false =>
    let (t, new) := SearchTree.insert rank k x t
    (t, if new then 0 else -1)
  | .delete x => (SearchTree.remove x t, 0)

def actAll : List (K × Ptr) → List (Op K) → List (K × Ptr) × List ℤ
  | t, [] => (t, [])
  | t, op :: ops =>
    let (t, ret) := act rank t op
    let (t, rets) := actAll t ops
    (t, ret :: rets)

theorem actAll_cons (t : List (K × Ptr)) (op : Op K) (ops : List (Op K)) : actAll rank t (op :: ops) =
    ((actAll rank (act rank t op).1 ops).1, (act rank t op).2 :: (actAll rank (act rank t op).1 ops).2) := rfl

/-- The callers insert blocks of theirs that are not on the tree, and delete those that are on it. -/
def Careful (live : Ptr → Prop) : List (K × Ptr) → List (Op K) → Prop
  | _, [] => True
  | t, op :: ops => (match op with
      | .insert x _ _ => live x ∧ x ∉ t.map Prod.snd
      | .delete x => x ∈ t.map Prod.snd) ∧ Careful live (act rank t op).1 ops

end Outside

variable {key : Ptr → K} {rank : K → ℕ} {live : Ptr → Prop} {comp : K → K → ℤ} {s s' : Avl K} {G : Groups}
  {L L' : List Ptr} {x new : Ptr} {k : K} {fuel depth : ℕ}

/-- The nodes with their keys. -/
def entries (key : Ptr → K) (L : List Ptr) : List (K × Ptr) := L.map fun x => (key x, x)

@[simp] theorem map_snd_entries (key : Ptr → K) (L : List Ptr) : (entries key L).map Prod.snd = L := by
  simp [entries, Function.comp_def]

theorem lookup_entries [DecidableEq K] {P Q : List Ptr} (hP : ∀ y ∈ P, key y ≠ key x) :
    (entries key (P ++ x :: Q)).lookup (key x) = some x := by
  induction P with
  | nil => simp [entries]
  | cons y P ih =>
    have hne : (key x == key y) = false := by simpa using (hP y List.mem_cons_self).symm
    rw [List.cons_append, entries, List.map_cons, List.lookup_cons, hne]
    exact ih fun w hw => hP w (List.mem_cons_of_mem _ hw)

theorem lookup_entries_eq_none [DecidableEq K] (hL : ∀ y ∈ L, key y ≠ k) : (entries key L).lookup k = none := by
  induction L with
  | nil => rfl
  | cons y L ih =>
    have hne : (k == key y) = false := by simpa using (hL y List.mem_cons_self).symm
    rw [entries, List.map_cons, List.lookup_cons, hne]
    exact ih fun w hw => hL w (List.mem_cons_of_mem _ hw)

theorem entries_remove (hL : L.Nodup) {P Q : List Ptr} (h : L = P ++ x :: Q) :
    SearchTree.remove x (entries key L) = entries key (P ++ Q) := by
  subst h
  rw [List.nodup_middle, List.nodup_cons, List.mem_append, not_or] at hL
  have hsame : ∀ R : List Ptr, x ∉ R → SearchTree.remove x (entries key R) = entries key R := by
    intro R hR
    refine List.filter_eq_self.2 fun p hp => ?_
    obtain ⟨y, hy, rfl⟩ := List.mem_map.1 hp
    have hne : y ≠ x := fun heq => hR (heq ▸ hy)
    simpa using hne
  have happend : entries key (P ++ x :: Q) = entries key P ++ (key x, x) :: entries key Q := by simp [entries]
  rw [happend, SearchTree.remove, List.filter_append, List.filter_cons_of_neg (by simp)]
  have hP := hsame P hL.1.1
  have hQ := hsame Q hL.1.2
  rw [SearchTree.remove] at hP hQ
  rw [hP, hQ]
  simp [entries]

theorem Inserted.insertDup (h : Inserted key rank new L L') :
    SearchTree.insertDup rank (key new) new (entries key L) = entries key L' := by
  obtain ⟨P, Q, rfl, rfl, hP, hQ⟩ := h
  induction P with
  | nil =>
    cases Q with
    | nil => rfl
    | cons y Q =>
      rw [List.nil_append, entries, List.map_cons, SearchTree.insertDup, if_pos (hQ y List.mem_cons_self)]
      rfl
  | cons y P ih =>
    have hle := hP y List.mem_cons_self
    rw [List.cons_append, entries, List.map_cons, SearchTree.insertDup, if_neg hle.not_gt]
    have htail := ih fun w hw => hP w (List.mem_cons_of_mem _ hw)
    rw [entries] at htail
    rw [htail]
    rfl

theorem Inserted.place (h : Inserted key rank new L L') (hne : ∀ y ∈ L, rank (key y) ≠ rank (key new)) :
    SearchTree.place rank (key new) new (entries key L) = entries key L' := by
  obtain ⟨P, Q, rfl, rfl, hP, hQ⟩ := h
  induction P with
  | nil =>
    cases Q with
    | nil => rfl
    | cons y Q =>
      have hlt := hQ y List.mem_cons_self
      rw [List.nil_append, entries, List.map_cons, SearchTree.place, if_neg hlt.not_gt]
      rfl
  | cons y P ih =>
    have hle := hP y List.mem_cons_self
    have hy := hne y (by simp)
    rw [List.cons_append, entries, List.map_cons, SearchTree.place, if_pos (lt_of_le_of_ne hle hy)]
    have htail := ih (fun w hw => hne w (List.mem_cons_of_mem _ hw)) fun w hw => hP w (List.mem_cons_of_mem _ hw)
    rw [entries] at htail
    rw [htail]
    rfl

/-- A search finds the first node with the key. -/
theorem Rep.avl_find [DecidableEq K] (hcomp : Compares comp rank) (hrank : Function.Injective rank)
    (h : Rep key rank live s G) (hdepth : (flat G).length + 1 < Nat.fib (depth + 3)) (k : K) :
    Avl.avl_find comp depth s k = some ((entries key (flat G)).lookup k) := by
  rw [Avl.avl_find]
  cases hroot : s.root with
  | none =>
    obtain rfl := h.root_eq_none_iff.1 hroot
    rfl
  | some x =>
    obtain ⟨A, z, ds, B, C, l, b, r, rfl, hfind, -, -, -, hA, hB, -⟩ := h.search hcomp hroot hdepth k
    obtain ⟨n, hn, hkey⟩ := h.blocks z (h.allLive z (mem_flat.2 ⟨(z, ds), by simp, Or.inl rfl⟩))
    have hzero := hcomp.zero (key z) k
    dsimp only
    rw [Fault.bind_of_some hfind, Fault.bind_of_some hn, hkey]
    by_cases heq : rank (key z) = rank k
    · obtain rfl := hrank heq
      rw [if_neg (not_not.2 (hzero.2 rfl)), flat_append, flat_cons, lookup_entries]
      · rfl
      · intro y hy hyz
        have hlt := h.forall_flat (p := fun i => i < rank (key z)) (List.subset_append_left A _) hA y hy
        rw [hyz] at hlt
        exact lt_irrefl _ hlt
    · rw [if_pos (mt hzero.1 heq), lookup_entries_eq_none]
      · rfl
      · intro y hy hyk
        exact h.absent hA hB (Ne.symm heq) y hy (congrArg rank hyk)

theorem Inserted.length_eq (h : Inserted key rank new L L') : L'.length = L.length + 1 := by
  obtain ⟨P, Q, rfl, rfl, -⟩ := h
  rw [List.length_append, List.length_append, List.length_cons, Nat.add_assoc]

theorem entries_congr {key' : Ptr → K} (h : ∀ y ∈ L, key' y = key y) : entries key' L = entries key L :=
  List.map_congr_left fun y hy => by rw [h y hy]

/-- The key of a node is set, and the node is inserted. -/
theorem Rep.exec_insert [DecidableEq K] (hcomp : Compares comp rank) (hrank : Function.Injective rank)
    (h : Rep key rank live s G) (hlive : live x) (hx : x ∉ flat G) (k : K) (hfuel : (flat G).length + 2 ≤ fuel)
    (allow_duplicates : Bool) : ∃ s' G' key',
    exec comp fuel s (.insert x k allow_duplicates) =
        some (s', (act rank (entries key (flat G)) (.insert x k allow_duplicates)).2) ∧
      Rep key' rank live s' G' ∧
      (act rank (entries key (flat G)) (.insert x k allow_duplicates)).1 = entries key' (flat G') ∧
      (flat G').length ≤ (flat G).length + 1 := by
  obtain ⟨n, hn, -⟩ := h.blocks x hlive
  have hne : ∀ y ∈ flat G, y ≠ x := fun y hy heq => hx (heq ▸ hy)
  have hkey : Function.update key x k x = k := Function.update_self _ _ _
  have hsame : entries key (flat G) = entries (Function.update key x k) (flat G) :=
    entries_congr fun y hy => (Function.update_of_ne (hne y hy) _ _).symm
  have h₁ := h.outside (f := fun n => { n with key := k }) hx (Function.update key x k)
    (fun y hy => Function.update_of_ne hy _ _) fun _ _ => hkey.symm
  rw [exec, Fault.bind_of_some (modify_eq hn _), hsame]
  generalize Function.update key x k = key' at hkey h₁ ⊢
  obtain ⟨s', ret, G', hrun, hs', hresult⟩ := h₁.avl_insert hcomp hx hlive hfuel allow_duplicates
  have hlookup : (∃ y ∈ flat G, rank (key' y) = rank (key' x)) ↔ ((entries key' (flat G)).lookup k).isSome := by
    rw [hkey]
    constructor
    · rintro ⟨y, hy, heq⟩
      rw [Option.isSome_iff_ne_none]
      intro hnone
      refine SearchTree.lookup_eq_none_iff.1 hnone y ?_
      rw [← hrank heq]
      exact List.mem_map_of_mem hy
    · intro hsome
      by_contra hno
      rw [lookup_entries_eq_none] at hsome
      · cases hsome
      · exact fun y hy heq => hno ⟨y, hy, congrArg rank heq⟩
  cases allow_duplicates with
  | true =>
    rw [if_neg (by simp)] at hresult
    obtain ⟨rfl, hinserted⟩ := hresult
    exact ⟨s', G', key', hrun, hs', hkey ▸ hinserted.insertDup, hinserted.length_eq.le⟩
  | false =>
    rw [act, SearchTree.insert]
    by_cases hdup : ∃ y ∈ flat G, rank (key' y) = rank (key' x)
    · rw [if_pos ⟨rfl, hdup⟩] at hresult
      obtain ⟨rfl, hflat⟩ := hresult
      rw [if_pos (hlookup.1 hdup)]
      exact ⟨s', G', key', hrun, hs', by rw [hflat], (congrArg List.length hflat).le.trans (Nat.le_succ _)⟩
    · rw [if_neg fun h => hdup h.2] at hresult
      obtain ⟨rfl, hinserted⟩ := hresult
      rw [if_neg (mt hlookup.2 hdup)]
      exact ⟨s', G', key', hrun, hs', hkey ▸ hinserted.place fun y hy heq => hdup ⟨y, hy, heq⟩,
        hinserted.length_eq.le⟩

/-- One operation. -/
theorem Rep.exec [DecidableEq K] (hcomp : Compares comp rank) (hrank : Function.Injective rank)
    (h : Rep key rank live s G) {op : Op K} {ops : List (Op K)}
    (hop : Careful rank live (entries key (flat G)) (op :: ops)) (hfuel : (flat G).length + 2 ≤ fuel) : ∃ s' G' key',
    Avl.exec comp fuel s op = some (s', (act rank (entries key (flat G)) op).2) ∧ Rep key' rank live s' G' ∧
      (act rank (entries key (flat G)) op).1 = entries key' (flat G') ∧ (flat G').length ≤ (flat G).length + 1 := by
  obtain ⟨hop, -⟩ := hop
  cases op with
  | insert x k allow_duplicates =>
    dsimp only at hop
    rw [map_snd_entries] at hop
    exact h.exec_insert hcomp hrank hop.1 hop.2 k hfuel allow_duplicates
  | delete x =>
    dsimp only at hop
    rw [map_snd_entries] at hop
    obtain ⟨s', G', P, Q, hrun, hs', hsplit, hflat⟩ := h.avl_delete hop (by omega : _ < fuel)
    refine ⟨s', G', key, ?_, hs', ?_, ?_⟩
    · rw [Avl.exec, hrun]
      rfl
    · rw [act, entries_remove h.thread.nodup hsplit, hflat]
    · rw [hflat, hsplit, List.length_append, List.length_append, List.length_cons]
      omega

/-- Any operations. -/
theorem Rep.execAll [DecidableEq K] (hcomp : Compares comp rank) (hrank : Function.Injective rank) {ops : List (Op K)}
    (h : Rep key rank live s G) (hops : Careful rank live (entries key (flat G)) ops)
    (hfuel : (flat G).length + ops.length + 2 ≤ fuel) : ∃ s' G' key',
    Avl.execAll comp fuel s ops = some (s', (actAll rank (entries key (flat G)) ops).2) ∧ Rep key' rank live s' G' ∧
      (actAll rank (entries key (flat G)) ops).1 = entries key' (flat G') := by
  induction ops generalizing s G key with
  | nil => exact ⟨s, G, key, rfl, h, rfl⟩
  | cons op ops ih =>
    rw [List.length_cons] at hfuel
    obtain ⟨s₁, G₁, key₁, hrun, hs₁, hact, hlength⟩ := h.exec hcomp hrank hops (by omega : _ ≤ fuel)
    obtain ⟨s', G', key', hruns, hs', hacts⟩ := ih hs₁ (hact ▸ hops.2) (by omega)
    refine ⟨s', G', key', ?_, hs', ?_⟩
    · rw [Avl.execAll, Fault.bind_of_some hrun]
      dsimp only
      rw [Fault.bind_of_some hruns, actAll_cons, hact]
      rfl
    · rw [actAll_cons, hact]
      exact hacts

/-- An empty tree. -/
theorem rep_init (hlive : ∀ x, live x → ∃ n, s.nodes x = some n ∧ n.key = key x) : Rep key rank live s.avl_init [] := by
  refine ⟨⟨⟨List.nodup_nil, rfl, rfl, rfl, ?_⟩, hlive, ?_, ?_, ?_, List.Pairwise.nil, ?_⟩, .leaf, ?_, trivial, rfl⟩
  · simp
  · simp
  · simp
  · simp
  · simp
  · exact ⟨rfl, by simp [around, cells], by simp [around, cells], by simp [around, cells], fun _ _ => rfl, fun _ => rfl,
      rfl, rfl, rfl⟩

theorem Rep.ascending (h : Rep key rank live s G) : SearchTree.Ascending rank (entries key (flat G)) := by
  have hrank : ∀ g ∈ G, ∀ y ∈ g.1 :: g.2, rank (key y) = rank (key g.1) := by
    intro g hg y hy
    exact h.rank_leader hg (List.mem_cons.1 hy)
  rw [SearchTree.Ascending, entries, List.pairwise_map, flat, List.pairwise_flatMap]
  refine ⟨fun g hg => List.pairwise_of_forall_mem_list fun y hy w hw => ?_,
    h.sorted.imp_of_mem fun {g g'} hg hg' hlt y hy w hw => ?_⟩
  · exact ((hrank g hg y hy).trans (hrank g hg w hw).symm).le
  · rw [hrank g hg y hy, hrank g' hg' w hw]
    exact hlt.le

theorem runs_refine [DecidableEq K] (hcomp : Compares comp rank) (hrank : Function.Injective rank)
    (hlive : ∀ x, live x → ∃ n, s.nodes x = some n ∧ n.key = key x) (ops : List (Op K))
    (hops : Careful rank live [] ops) (hfuel : ops.length + 2 ≤ fuel) : ∃ s' t rets,
    actAll rank [] ops = (t, rets) ∧ execAll comp fuel s.avl_init ops = some (s', rets) ∧
      Thread s' (t.map Prod.snd) ∧ SearchTree.Ascending rank t ∧
      ∀ depth, t.length + 1 < Nat.fib (depth + 3) → ∀ k, avl_find comp depth s' k = some (t.lookup k) := by
  obtain ⟨s', G', key', hrun, hs', hact⟩ :=
    (rep_init hlive).execAll hcomp hrank hops (by simpa using hfuel : _ ≤ fuel)
  refine ⟨s', entries key' (flat G'), _, Prod.ext hact rfl, hrun, ?_, hs'.ascending, fun depth hdepth k => ?_⟩
  · rw [map_snd_entries]
    exact hs'.thread
  · rw [entries, List.length_map] at hdepth
    exact hs'.avl_find hcomp hrank hdepth k

/-- Blocks that are on no tree. -/
def unlinked (key : Ptr → K) : Avl K :=
  ⟨fun x => some ⟨none, none, none, none, none, key x, 0, false⟩, none, none, none, 0⟩

/-- Costs as keys, with duplicates. -/
theorem runs_refine_demo : ∃ s', execAll avl_comp_etx 8 (unlinked fun _ => 0).avl_init
      [.insert 1 7 true, .insert 2 5 true, .insert 3 7 true, .insert 4 5 false, .delete 1, .insert 1 9 true] =
        some (s', [0, 0, 0, -1, 0, 0]) ∧ s'.first = some 2 ∧ s'.last = some 1 ∧
      avl_find avl_comp_etx 2 s' 7 = some (some 3) := by
  have hlive : ∀ x : Ptr, True → ∃ n, (unlinked fun _ => (0 : BitVec 32)).nodes x = some n ∧ n.key = 0 :=
    fun _ _ => ⟨_, rfl, rfl⟩
  obtain ⟨s', t, rets, hact, hrun, hthread, -, hfind⟩ := runs_refine compares_etx BitVec.toNat_injective hlive
    [.insert 1 7 true, .insert 2 5 true, .insert 3 7 true, .insert 4 5 false, .delete 1, .insert 1 9 true]
    (by simp [Careful, act, SearchTree.insertDup, SearchTree.insert, SearchTree.remove]) (le_refl 8)
  have hresult : actAll (BitVec.toNat (w := 32)) [] [.insert 1 7 true, .insert 2 5 true, .insert 3 7 true, .insert 4 5 false,
      .delete 1, .insert 1 9 true] = ([(5, 2), (7, 3), (9, 1)], [0, 0, 0, -1, 0, 0]) := by decide
  obtain ⟨rfl, rfl⟩ := Prod.mk.inj (hact.symm.trans hresult)
  exact ⟨s', hrun, hthread.first, hthread.last, hfind 2 (by decide) 7⟩

end Avl

end MpOlsr
