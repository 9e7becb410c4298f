import MpOlsr.Olsr.AvlSearch

/-!
# Insertion into an AVL tree

`avl_insert` puts a node behind all nodes whose keys are not greater than its own, unless there is a node with its key and
duplicates are not allowed (`Avl.Rep.avl_insert`).
-/

namespace MpOlsr

namespace Avl

open AvlTree DoublyLinked

variable {K : Type} {key : Ptr → K} {rank : K → ℕ} {live : Ptr → Prop} {comp : K → K → ℤ} {s₀ s s' : Avl K}
  {G A B : Groups} {xs : List Ptr} {C : List (Frame Ptr)} {t d : BinTree Ptr} {side : Side} {x z new : Ptr}
  {ds : List Ptr} {b : ℤ} {m : AvlNode K} {fuel : ℕ}

/-! ### The tree -/

/-- One more block. -/
theorem Owns.add {root : Option Ptr} {c : Multiset (Ptr × AvlLinks)} (h : Owns s₀ xs s root c)
    (hx : x ∉ c.map Prod.fst) (hmem : x ∈ xs) (hm : s.nodes x = some m) : Owns s₀ xs s root ({(x, m.links)} + c) := by
  refine ⟨h.root, ?_, fun c' hc' => ?_, fun c' hc' => ?_, h.frame, h.rest, h.first, h.last, h.count⟩
  · rw [Multiset.map_add, Multiset.map_singleton, Multiset.singleton_add, Multiset.nodup_cons]
    exact ⟨hx, h.nodup⟩
  · rcases Multiset.mem_add.1 hc' with hc' | hc'
    · obtain rfl := Multiset.mem_singleton.1 hc'
      exact ⟨m, hm, rfl⟩
    · exact h.cell c' hc'
  · rcases Multiset.mem_add.1 hc' with hc' | hc'
    · obtain rfl := Multiset.mem_singleton.1 hc'
      exact hmem
    · exact h.mem c' hc'

theorem keys_within : (around C t.top + cells (above C) t).map Prod.fst = (plug C t).toList := by
  rw [← cells_plug, map_cells]

/-- A new node gets below a node without a child on the side. -/
theorem Within.hang (h : Within s₀ xs s C (BinTree.graft side .leaf z b d))
    (hnew : new ∉ (plug C (BinTree.graft side .leaf z b d)).toList) (hmem : new ∈ xs) (hm : s.nodes new = some m)
    (hlinks : m.links = ⟨none, none, none, 0⟩) (b' : ℤ) : ∃ s₁ s₂ s₃,
    s.modify z (fun n => { n with balance := b' }) = some s₁ ∧
      s₁.modify new (fun n => { n with parent := some z }) = some s₂ ∧
      s₂.modify z (fun n => n.setChild side (some new)) = some s₃ ∧
      Within s₀ xs s₃ C (BinTree.graft side (.node .leaf new 0 .leaf) z b' d) := by
  have hadd := Owns.add h (by rwa [keys_within, Multiset.mem_coe]) hmem hm
  rw [hlinks, BinTree.top_graft, cells_graft] at hadd
  obtain ⟨s₁, hrun₁, h₁⟩ := Owns.modify (x := z) (k := .of (above C) side none d.top b)
    (j := .of (above C) side none d.top b') (m := {(new, ⟨none, none, none, 0⟩)} + (around C (some z) +
      (cells (some z) .leaf + cells (some z) d))) (by convert hadd using 1; simp only [BinTree.top]; abel)
    (f := fun n => { n with balance := b' }) (fun n hn => AvlLinks.setBalance_of hn _) fun _ => rfl
  obtain ⟨s₂, hrun₂, h₂⟩ := Owns.modify (x := new) (k := ⟨none, none, none, 0⟩) (j := ⟨some z, none, none, 0⟩)
    (m := {(z, .of (above C) side none d.top b')} + (around C (some z) + (cells (some z) .leaf + cells (some z) d)))
    (by convert h₁ using 1; abel) (f := fun n => { n with parent := some z })
    (fun n hn => AvlLinks.setParent hn _) fun _ => rfl
  obtain ⟨s₃, hrun₃, h₃⟩ := Owns.modify (x := z) (k := .of (above C) side none d.top b')
    (j := .of (above C) side (some new) d.top b')
    (m := {(new, ⟨some z, none, none, 0⟩)} + (around C (some z) + (cells (some z) .leaf + cells (some z) d)))
    (by convert h₂ using 1; abel) (f := fun n => n.setChild side (some new))
    (fun n hn => AvlLinks.setChild_of hn _) fun n => n.rest_setChild _ _
  refine ⟨s₁, s₂, s₃, hrun₁, hrun₂, hrun₃, ?_⟩
  rw [graft_iff]
  convert h₃ using 1
  simp only [BinTree.top, cells]
  abel

/-- The new node fills the lower side. -/
theorem balanced_hang (h : (plug C (BinTree.graft side .leaf z (-side.sign) d)).Balanced) (new : Ptr) :
    (BinTree.graft side (.node .leaf new 0 .leaf) z 0 d).Balanced ∧
      Fits C (BinTree.graft side (.node .leaf new 0 .leaf) z 0 d).height := by
  obtain ⟨hz, hC⟩ := balanced_plug.1 h
  obtain ⟨hb, hlow, hhigh, -, hd⟩ := BinTree.balanced_graft.1 hz
  have hheight : d.height = 1 := by
    rcases side.sign_cases with hs | hs <;> rw [hs] at hb <;> simp [BinTree.height] at hb <;> omega
  rw [BinTree.height_graft] at hC
  rw [BinTree.balanced_graft, BinTree.height_graft]
  refine ⟨⟨?_, by decide, by decide, ?_, hd⟩, ?_⟩
  · rw [hheight]
    simp [BinTree.height]
  · simp [BinTree.Balanced, BinTree.height]
  · convert hC using 1
    rw [hheight]
    simp [BinTree.height]

/-- The new node makes the tree higher. -/
theorem balanced_hang_higher (h : (plug C (BinTree.graft side .leaf z 0 d)).Balanced) (new : Ptr) :
    (BinTree.graft side (.node .leaf new 0 .leaf) z side.sign d).Balanced ∧ Fits C 1 ∧
      (BinTree.graft side (.node .leaf new 0 .leaf) z side.sign d).height = 1 + 1 := by
  obtain ⟨hz, hC⟩ := balanced_plug.1 h
  obtain ⟨hb, hlow, hhigh, -, hd⟩ := BinTree.balanced_graft.1 hz
  have hheight : d.height = 0 := by
    rcases side.sign_cases with hs | hs <;> rw [hs] at hb <;> simp [BinTree.height] at hb <;> omega
  rw [BinTree.height_graft, hheight] at hC
  rw [BinTree.balanced_graft, BinTree.height_graft, hheight]
  refine ⟨⟨by simp [BinTree.height], ?_, ?_, ?_, hd⟩, by simpa [BinTree.height] using hC, by simp [BinTree.height]⟩
  · rcases side.sign_cases with hs | hs <;> simp [hs]
  · rcases side.sign_cases with hs | hs <;> simp [hs]
  · simp [BinTree.Balanced, BinTree.height]

/-! ### The groups -/

/-- A block that is not on the list changes. -/
theorem Rep.outside (h : Rep key rank live s G) (hnew : new ∉ flat G) {f : AvlNode K → AvlNode K} (key' : Ptr → K)
    (hkey : ∀ y, y ≠ new → key' y = key y) (hf : ∀ n, n.key = key new → (f n).key = key' new) :
    Rep key' rank live (s.touch (some new) f) G := by
  have hne : ∀ y ∈ flat G, y ≠ new := fun y hy heq => hnew (heq ▸ hy)
  have hnodes : ∀ y ∈ flat G, (s.touch (some new) f).nodes y = s.nodes y := by
    intro y hy
    rw [touch_nodes, if_neg (by simpa using (hne y hy).symm)]
  have hleader : ∀ g ∈ G, key' g.1 = key g.1 := fun g hg => hkey _ (hne _ (mem_flat.2 ⟨g, hg, Or.inl rfl⟩))
  obtain ⟨t, ht, hbalanced, hlist⟩ := h.tree
  refine ⟨⟨⟨h.thread.nodup, h.thread.first, h.thread.last, h.thread.count, fun y hy => ?_⟩, fun y hy => ?_, h.allLive,
    fun g hg n hn => ?_, fun g hg y hy n hn => ?_, ?_, fun g hg y hy => ?_⟩, t, ht.congr rfl fun y hy => ?_, hbalanced,
    hlist⟩
  · rw [hnodes y hy]
    exact h.thread.link y hy
  · obtain ⟨n, hn, hnkey⟩ := h.blocks y hy
    rw [touch_nodes, hn]
    split
    · rename_i heq
      obtain rfl := Option.some_inj.1 heq
      exact ⟨f n, rfl, hf n hnkey⟩
    · rename_i heq
      exact ⟨n, rfl, hnkey.trans (hkey y fun h => heq (congrArg some h.symm)).symm⟩
  · rw [hnodes g.1 (mem_flat.2 ⟨g, hg, Or.inl rfl⟩)] at hn
    exact h.leader g hg n hn
  · rw [hnodes y (mem_flat.2 ⟨g, hg, Or.inr hy⟩)] at hn
    exact h.follower g hg y hy n hn
  · refine h.sorted.imp_of_mem fun {g g'} hg hg' hlt => ?_
    rw [hleader g hg, hleader g' hg']
    exact hlt
  · rw [hleader g hg, hkey y (hne y (mem_flat.2 ⟨g, hg, Or.inr hy⟩))]
    exact h.same g hg y hy
  · rw [hnodes y (leaders_subset G (hlist ▸ hy))]

/-- The keys and the leaders after a change of the list. -/
theorem Rethreads.fields (h : Rethreads s s') (y : Ptr) {n' : AvlNode K} (hn' : s'.nodes y = some n') :
    ∃ n, s.nodes y = some n ∧ n'.links = n.links ∧ n'.key = n.key ∧ n'.leader = n.leader := by
  have hkeep := h.keep y
  rw [hn', Option.map_some] at hkeep
  obtain ⟨n, hn, heq⟩ := Option.map_eq_some_iff.1 hkeep.symm
  simp only [Avl.keep, Prod.mk.injEq] at heq
  exact ⟨n, hn, heq.1.symm, heq.2.1.symm, heq.2.2.symm⟩

theorem Rethreads.exists_node (h : Rethreads s s') {y : Ptr} {n : AvlNode K} (hn : s.nodes y = some n) :
    ∃ n', s'.nodes y = some n' ∧ n'.links = n.links ∧ n'.key = n.key ∧ n'.leader = n.leader := by
  have hkeep := h.keep y
  rw [hn, Option.map_some] at hkeep
  obtain ⟨n', hn', heq⟩ := Option.map_eq_some_iff.1 hkeep
  simp only [Avl.keep, Prod.mk.injEq] at heq
  exact ⟨n', hn', heq⟩

theorem Rethreads.stands (h : Rethreads s s') (ht : Stands s t) : Stands s' t := by
  refine ht.congr h.root fun y _ => ?_
  cases hy : s'.nodes y with
  | none =>
    have hkeep := h.keep y
    rw [hy, Option.map_none] at hkeep
    rw [Option.map_eq_none_iff.1 hkeep.symm]
  | some n' =>
    obtain ⟨n, hn, hlinks, -⟩ := h.fields y hy
    rw [hn, Option.map_some, Option.map_some, hlinks]

/-- The list with a new leader. -/
theorem Listed.newLeader (h : Listed key rank live s (A ++ B)) (hs' : Rethreads s s')
    (hthread : Thread s' (flat A ++ new :: flat B)) (hlive : live new)
    (hleader : ∀ n, s.nodes new = some n → n.leader = true) (hA : ∀ g ∈ A, rank (key g.1) < rank (key new))
    (hB : ∀ g ∈ B, rank (key new) < rank (key g.1)) : Listed key rank live s' (A ++ (new, []) :: B) := by
  have hflat : flat (A ++ (new, []) :: B) = flat A ++ new :: flat B := by simp
  have hmem : ∀ {g}, g ∈ A ++ (new, []) :: B → g = (new, []) ∨ g ∈ A ++ B := by
    intro g hg
    rw [List.mem_append, List.mem_cons] at hg
    rw [List.mem_append]
    tauto
  refine ⟨hflat ▸ hthread, fun y hy => ?_, fun y hy => ?_, fun g hg n' hn' => ?_, fun g hg y hy n' hn' => ?_, ?_,
    fun g hg y hy => ?_⟩
  · obtain ⟨n, hn, hkey⟩ := h.blocks y hy
    obtain ⟨n', hn', -, hkey', -⟩ := hs'.exists_node hn
    exact ⟨n', hn', hkey'.trans hkey⟩
  · rw [hflat, List.mem_append, List.mem_cons] at hy
    rcases hy with hy | rfl | hy
    · exact h.allLive y (by simp [hy])
    · exact hlive
    · exact h.allLive y (by simp [hy])
  · obtain ⟨n, hn, -, -, heq⟩ := hs'.fields _ hn'
    rw [heq]
    rcases hmem hg with rfl | hg
    · exact hleader n hn
    · exact h.leader g hg n hn
  · obtain ⟨n, hn, -, -, heq⟩ := hs'.fields _ hn'
    rw [heq]
    rcases hmem hg with rfl | hg
    · cases hy
    · exact h.follower g hg y hy n hn
  · have hsorted := h.sorted
    rw [List.pairwise_append] at hsorted ⊢
    refine ⟨hsorted.1, List.pairwise_cons.2 ⟨hB, hsorted.2.1⟩, fun g hg g' hg' => ?_⟩
    rcases List.mem_cons.1 hg' with rfl | hg'
    · exact hA g hg
    · exact hsorted.2.2 g hg g' hg'
  · rcases hmem hg with rfl | hg
    · cases hy
    · exact h.same g hg y hy

/-- The list with one more node of a group. -/
theorem Listed.newFollower (h : Listed key rank live s (A ++ (z, ds) :: B)) (hs' : Rethreads s s')
    (hthread : Thread s' (flat A ++ z :: (ds ++ new :: flat B))) (hlive : live new)
    (hleader : ∀ n, s.nodes new = some n → n.leader = false) (hkey : rank (key new) = rank (key z)) :
    Listed key rank live s' (A ++ (z, ds ++ [new]) :: B) := by
  have hflat : flat (A ++ (z, ds ++ [new]) :: B) = flat A ++ z :: (ds ++ new :: flat B) := by simp
  have hmem : ∀ {g}, g ∈ A ++ (z, ds ++ [new]) :: B → ∃ g' ∈ A ++ (z, ds) :: B, g'.1 = g.1 ∧
      ∀ y ∈ g.2, y ∈ g'.2 ∨ y = new ∧ g.1 = z := by
    intro g hg
    rw [List.mem_append, List.mem_cons] at hg
    rcases hg with hg | rfl | hg
    · exact ⟨g, by simp [hg], rfl, fun y hy => Or.inl hy⟩
    · exact ⟨(z, ds), by simp, rfl, fun y hy => by simpa using hy⟩
    · exact ⟨g, by simp [hg], rfl, fun y hy => Or.inl hy⟩
  refine ⟨hflat ▸ hthread, fun y hy => ?_, fun y hy => ?_, fun g hg n' hn' => ?_, fun g hg y hy n' hn' => ?_, ?_,
    fun g hg y hy => ?_⟩
  · obtain ⟨n, hn, hkey⟩ := h.blocks y hy
    obtain ⟨n', hn', -, hkey', -⟩ := hs'.exists_node hn
    exact ⟨n', hn', hkey'.trans hkey⟩
  · have hy' : y = new ∨ y ∈ flat (A ++ (z, ds) :: B) := by
      rw [hflat] at hy
      simp only [flat_append, flat_cons, List.mem_append, List.mem_cons] at hy ⊢
      tauto
    rcases hy' with rfl | hy
    · exact hlive
    · exact h.allLive y hy
  · obtain ⟨n, hn, -, -, heq⟩ := hs'.fields _ hn'
    obtain ⟨g', hg', heq', -⟩ := hmem hg
    rw [heq]
    exact h.leader g' hg' n (heq' ▸ hn)
  · obtain ⟨n, hn, -, -, heq⟩ := hs'.fields _ hn'
    obtain ⟨g', hg', -, hy'⟩ := hmem hg
    rw [heq]
    rcases hy' y hy with hy | ⟨rfl, -⟩
    · exact h.follower g' hg' y hy n hn
    · exact hleader n hn
  · have hsorted := h.pairwise
    rw [← List.pairwise_map (f := Prod.fst) (R := fun x y => rank (key x) < rank (key y))]
    rw [List.map_append, List.map_cons] at hsorted ⊢
    exact hsorted
  · obtain ⟨g', hg', heq', hy'⟩ := hmem hg
    rcases hy' y hy with hy | ⟨rfl, hz⟩
    · rw [← heq']
      exact h.same g' hg' y hy
    · rw [hz]
      exact hkey

/-- A list without repetitions is split by an element in one way. -/
theorem split_unique {P Q P' Q' : List Ptr} (h : (P ++ z :: Q).Nodup) (heq : P ++ z :: Q = P' ++ z :: Q') :
    P = P' ∧ Q = Q' := by
  rw [List.nodup_middle, List.nodup_cons, List.mem_append, not_or] at h
  obtain ⟨hP, -, hQ⟩ := (List.append_cons_inj_of_notMem h.1.1 h.1.2).1 heq
  exact ⟨hP, hQ⟩

/-! ### The operation -/

/-- The place of a new node on the list of all nodes. -/
def Inserted (key : Ptr → K) (rank : K → ℕ) (new : Ptr) (L L' : List Ptr) : Prop :=
  ∃ P Q, L = P ++ Q ∧ L' = P ++ new :: Q ∧ (∀ y ∈ P, rank (key y) ≤ rank (key new)) ∧
    ∀ y ∈ Q, rank (key new) < rank (key y)

/-- A new leader before another one. -/
theorem Listed.insert_before (h : Listed key rank live s (A ++ (z, ds) :: B)) (hnew : new ∉ flat (A ++ (z, ds) :: B))
    (hlive : live new) (hm : s.nodes new = some m) (hleader : m.leader = true)
    (hA : ∀ g ∈ A, rank (key g.1) < rank (key new)) (hB : ∀ g ∈ B, rank (key new) < rank (key g.1))
    (hz : rank (key new) < rank (key z)) : ∃ s', s.avl_insert_before z new = some s' ∧ Rethreads s s' ∧
      Listed key rank live s' (A ++ (new, []) :: (z, ds) :: B) ∧
      Inserted key rank new (flat (A ++ (z, ds) :: B)) (flat (A ++ (new, []) :: (z, ds) :: B)) := by
  have hthread : Thread s (flat A ++ z :: (ds ++ flat B)) := by simpa using h.thread
  obtain ⟨s', hrun, hs', hre⟩ := hthread.avl_insert_before (by simpa using hnew) hm
  have hbehind : ∀ g ∈ (z, ds) :: B, rank (key new) < rank (key g.1) := by
    intro g hg
    rcases List.mem_cons.1 hg with rfl | hg
    · exact hz
    · exact hB g hg
  refine ⟨s', hrun, hre, h.newLeader hre (by simpa using hs') hlive (fun n hn => ?_) hA hbehind, flat A,
    flat ((z, ds) :: B), by simp, by simp, fun y hy => ?_, ?_⟩
  · obtain rfl := Option.some_inj.1 (hm.symm.trans hn)
    exact hleader
  · exact (h.forall_flat (p := fun i => i < rank (key new)) (List.subset_append_left A _) hA y hy).le
  · exact h.forall_flat (p := fun i => rank (key new) < i) (List.subset_append_right A _) hbehind

/-- A new leader behind the group of another one. -/
theorem Listed.insert_after (h : Listed key rank live s (A ++ (z, ds) :: B)) (hnew : new ∉ flat (A ++ (z, ds) :: B))
    (hlive : live new) (hm : s.nodes new = some m) (hleader : m.leader = true) {ds' : List Ptr} {last : Ptr}
    (hlast : z :: ds = ds' ++ [last]) (hA : ∀ g ∈ A, rank (key g.1) < rank (key new))
    (hB : ∀ g ∈ B, rank (key new) < rank (key g.1)) (hz : rank (key z) < rank (key new)) : ∃ s',
    s.avl_insert_after last new = some s' ∧ Rethreads s s' ∧
      Listed key rank live s' (A ++ (z, ds) :: (new, []) :: B) ∧
      Inserted key rank new (flat (A ++ (z, ds) :: B)) (flat (A ++ (z, ds) :: (new, []) :: B)) := by
  have hG : A ++ (z, ds) :: B = (A ++ [(z, ds)]) ++ B := by simp
  have hG' : A ++ (z, ds) :: (new, []) :: B = (A ++ [(z, ds)]) ++ (new, []) :: B := by simp
  have hfront : flat (A ++ [(z, ds)]) = (flat A ++ ds') ++ [last] := by
    rw [List.append_assoc, ← hlast]
    simp
  rw [hG] at h hnew ⊢
  rw [hG']
  have hthread : Thread s ((flat A ++ ds') ++ last :: flat B) := by
    rw [List.append_cons, ← hfront, ← flat_append]
    exact h.thread
  obtain ⟨s', hrun, hs', hre⟩ := hthread.avl_insert_after (by
    rw [List.append_cons, ← hfront, ← flat_append]
    exact hnew) hm
  rw [List.append_cons, ← hfront] at hs'
  have hbefore : ∀ g ∈ A ++ [(z, ds)], rank (key g.1) < rank (key new) := by
    intro g hg
    rcases List.mem_append.1 hg with hg | hg
    · exact hA g hg
    · rw [List.mem_singleton.1 hg]
      exact hz
  refine ⟨s', hrun, hre, h.newLeader hre hs' hlive (fun n hn => ?_) hbefore hB, flat (A ++ [(z, ds)]), flat B,
    flat_append _ _, by simp, fun y hy => ?_, ?_⟩
  · obtain rfl := Option.some_inj.1 (hm.symm.trans hn)
    exact hleader
  · exact (h.forall_flat (p := fun i => i < rank (key new)) (List.subset_append_left _ B) hbefore y hy).le
  · exact h.forall_flat (p := fun i => rank (key new) < i) (List.subset_append_right _ B) hB

/-- A new leader beside the leader where the search ended, on the list and on the tree. -/
theorem Rep.attach (h : Rep key rank live s (A ++ (z, ds) :: B)) (hnew : new ∉ flat (A ++ (z, ds) :: B))
    (hlive : live new) (hm : s.nodes new = some m) (hlinks : m.links = ⟨none, none, none, 0⟩) (hleader : m.leader = true)
    (ht : Stands s (plug C (BinTree.graft side .leaf z b d)))
    (hlist : (plug C (BinTree.graft side .leaf z b d)).toList = (A ++ (z, ds) :: B).map Prod.fst) {ds' : List Ptr}
    {last : Ptr} (hlast : z :: ds = ds' ++ [last]) (hA : ∀ g ∈ A, rank (key g.1) < rank (key new))
    (hB : ∀ g ∈ B, rank (key new) < rank (key g.1))
    (hz : match side with
      | .left => rank (key new) < rank (key z)
      | .right => rank (key z) < rank (key new)) (b' : ℤ) : ∃ s₁ s' G',
    Avl.attach side b' s z last new = some s' ∧ Listed key rank live s₁ G' ∧
      Within s₁ (new :: flat (A ++ (z, ds) :: B)) s' C (BinTree.graft side (.node .leaf new 0 .leaf) z b' d) ∧
      (plug C (BinTree.graft side (.node .leaf new 0 .leaf) z b' d)).toList = G'.map Prod.fst ∧
      Inserted key rank new (flat (A ++ (z, ds) :: B)) (flat G') := by
  have hbeside : ∃ s₁ G', avl_insert_beside side s z last new = some s₁ ∧ Rethreads s s₁ ∧ Listed key rank live s₁ G' ∧
      G'.map Prod.fst = A.map Prod.fst ++ (AvlTree.around side [new] z [] ++ B.map Prod.fst) ∧
      Inserted key rank new (flat (A ++ (z, ds) :: B)) (flat G') := by
    cases side with
    | left =>
      obtain ⟨s₁, hrun, hre, hlisted, hinserted⟩ := h.insert_before hnew hlive hm hleader hA hB hz
      exact ⟨s₁, _, hrun, hre, hlisted, by simp [AvlTree.around], hinserted⟩
    | right =>
      obtain ⟨s₁, hrun, hre, hlisted, hinserted⟩ := h.insert_after hnew hlive hm hleader hlast hA hB hz
      exact ⟨s₁, _, hrun, hre, hlisted, by simp [AvlTree.around], hinserted⟩
  obtain ⟨s₁, G', hrun, hre, hlisted, hleaders, hinserted⟩ := hbeside
  obtain ⟨m₁, hm₁, hlinks₁, -⟩ := hre.exists_node hm
  have hnotin : new ∉ (plug C (BinTree.graft side .leaf z b d)).toList := fun hmem =>
    hnew (leaders_subset _ (hlist ▸ hmem))
  have hwithin := Within.plug_iff.2 ((hre.stands ht).within (new :: flat (A ++ (z, ds) :: B)) fun y hy =>
    List.mem_cons_of_mem _ (leaders_subset _ (hlist ▸ hy)))
  obtain ⟨s₂, s₃, s₄, hrun₂, hrun₃, hrun₄, hs₄⟩ := hwithin.hang hnotin List.mem_cons_self hm₁ (hlinks₁.trans hlinks) b'
  refine ⟨s₁, s₄, G', ?_, hlisted, hs₄, ?_, hinserted⟩
  · rw [Avl.attach, Fault.bind_of_some hrun, Fault.bind_of_some hrun₂, Fault.bind_of_some hrun₃]
    exact hrun₄
  · -- the parts of the lists around `z` are the same
    rw [hleaders]
    have hnodup := ht.nodup
    rw [hlist, List.map_append, List.map_cons] at hnodup
    rw [toList_plug, BinTree.toList_graft, List.map_append, List.map_cons] at hlist
    rw [toList_plug, BinTree.toList_graft]
    cases side with
    | left =>
      simp only [AvlTree.around, BinTree.toList, List.nil_append, List.append_assoc, List.cons_append] at hlist ⊢
      obtain ⟨hbefore, hbehind⟩ := split_unique hnodup hlist.symm
      rw [hbefore, hbehind]
    | right =>
      have hlist' : A.map Prod.fst ++ z :: B.map Prod.fst = (before C ++ d.toList) ++ z :: behind C := by
        rw [← hlist]
        simp [AvlTree.around, BinTree.toList]
      obtain ⟨hbefore, hbehind⟩ := split_unique hnodup hlist'
      rw [hbefore, hbehind]
      simp [AvlTree.around, BinTree.toList]

/-- The same, with balances that are right again. -/
theorem Rep.insertBeside (h : Rep key rank live s (A ++ (z, ds) :: B)) (side : Side) (hnew : new ∉ flat (A ++ (z, ds) :: B))
    (hlive : live new) (hm : s.nodes new = some m) (hlinks : m.links = ⟨none, none, none, 0⟩) (hleader : m.leader = true)
    (ht : Stands s (plug C (BinTree.graft side .leaf z b d)))
    (hlist : (plug C (BinTree.graft side .leaf z b d)).toList = (A ++ (z, ds) :: B).map Prod.fst) {ds' : List Ptr}
    {last : Ptr} (hlast : z :: ds = ds' ++ [last]) (hA : ∀ g ∈ A, rank (key g.1) < rank (key new))
    (hB : ∀ g ∈ B, rank (key new) < rank (key g.1))
    (hz : match side with
      | .left => rank (key new) < rank (key z)
      | .right => rank (key z) < rank (key new))
    (hbalanced : (plug C (BinTree.graft side .leaf z b d)).Balanced) (hfuel : C.length < fuel) :
    (b = -side.sign → ∃ s' G', Avl.attach side 0 s z last new = some s' ∧ Rep key rank live s' G' ∧
      Inserted key rank new (flat (A ++ (z, ds) :: B)) (flat G')) ∧
    (b = 0 → ∃ s₁ s' G', Avl.attach side side.sign s z last new = some s₁ ∧ Avl.post_insert fuel s₁ z = some s' ∧
      Rep key rank live s' G' ∧ Inserted key rank new (flat (A ++ (z, ds) :: B)) (flat G')) := by
  constructor
  · rintro rfl
    obtain ⟨s₁, s', G', hrun, hlisted, hs', hlist', hinserted⟩ :=
      h.attach hnew hlive hm hlinks hleader ht hlist hlast hA hB hz 0
    obtain ⟨hhang, hC⟩ := balanced_hang hbalanced new
    exact ⟨s', G', hrun, hlisted.retree (hlist' ▸ hs'.done hhang hC rfl), hinserted⟩
  · rintro rfl
    obtain ⟨s₁, s₂, G', hrun, hlisted, hs₂, hlist', hinserted⟩ :=
      h.attach hnew hlive hm hlinks hleader ht hlist hlast hA hB hz side.sign
    obtain ⟨hhang, hC, hheight⟩ := balanced_hang_higher hbalanced new
    obtain ⟨s', hpost, hdone⟩ := hs₂.post_insert hhang hC hheight hfuel
    exact ⟨s₂, s', G', hrun, hpost, hlisted.retree (hlist' ▸ hdone), hinserted⟩

/-- A node with the key of a leader. -/
theorem Rep.insertBehind (h : Rep key rank live s (A ++ (z, ds) :: B)) (hnew : new ∉ flat (A ++ (z, ds) :: B))
    (hlive : live new) (hm : s.nodes new = some m) {ds' : List Ptr} {last : Ptr} (hlast : z :: ds = ds' ++ [last])
    (hkey : rank (key new) = rank (key z)) : ∃ s₁ s',
    s.modify new (fun n => { n with leader := false }) = some s₁ ∧ s₁.avl_insert_after last new = some s' ∧
      Rep key rank live s' (A ++ (z, ds ++ [new]) :: B) ∧
      Inserted key rank new (flat (A ++ (z, ds) :: B)) (flat (A ++ (z, ds ++ [new]) :: B)) := by
  have h₁ := h.outside (f := fun n => { n with leader := false }) hnew key (fun _ _ => rfl) fun _ hn => hn
  rw [modify_eq hm]
  generalize hs₁ : s.touch (some new) (fun n => { n with leader := false }) = s₁ at h₁ ⊢
  have hm₁ : s₁.nodes new = some { m with leader := false } := by
    rw [← hs₁, touch_nodes, if_pos rfl, hm, Option.map_some]
  have hsplit : ∀ E : List Ptr, flat A ++ z :: (ds ++ E) = (flat A ++ ds') ++ last :: E := by
    intro E
    rw [← List.cons_append, hlast]
    simp
  obtain ⟨s', hrun, hs', hre⟩ := Thread.avl_insert_after (P := flat A ++ ds') (x := last) (Q := flat B) (by
    rw [← hsplit]
    simpa using h₁.thread) (by
    rw [← hsplit]
    simpa using hnew) hm₁
  rw [← hsplit] at hs'
  have hlisted := h₁.toListed.newFollower hre hs' hlive (fun n hn => by
    obtain rfl := Option.some_inj.1 (hm₁.symm.trans hn)
    rfl) hkey
  obtain ⟨t, ht, hbalanced, hlist⟩ := h₁.tree
  have hsorted := h.sorted
  rw [List.pairwise_append, List.pairwise_cons] at hsorted
  refine ⟨s₁, s', rfl, hrun, ⟨hlisted, t, hre.stands ht, hbalanced, by rw [hlist]; simp⟩, flat A ++ z :: ds, flat B, by simp,
    by simp, fun y hy => ?_, fun y hy => ?_⟩
  · refine h.forall_flat (E := A ++ [(z, ds)]) (p := fun i => i ≤ rank (key new)) ?_ (fun g hg => ?_) y (by simpa using hy)
    · intro g hg
      rw [List.mem_append, List.mem_singleton] at hg
      rw [List.mem_append, List.mem_cons]
      tauto
    · rw [hkey]
      rcases List.mem_append.1 hg with hg | hg
      · exact (hsorted.2.2 g hg (z, ds) List.mem_cons_self).le
      · rw [List.mem_singleton.1 hg]
  · refine h.forall_flat (p := fun i => rank (key new) < i) (fun g hg => by simp [hg]) (fun g hg => ?_) y hy
    rw [hkey]
    exact hsorted.2.1.1 g hg

/-- A single node. -/
theorem Listed.single (h : Listed key rank live s []) (hn : s.nodes new = some m) (hlive : live new)
    (hlinks : m.links = ⟨none, none, none, 0⟩) (hnext : m.next = none) (hprev : m.prev = none) (hleader : m.leader = true) :
    Rep key rank live { s with
      root := some new
      first := some new
      last := some new
      count := 1 } [(new, [])] := by
  refine ⟨⟨⟨by simp, rfl, rfl, rfl, fun y hy => ?_⟩, h.blocks, fun y hy => ?_, fun g hg n' hn' => ?_, fun g hg y hy => ?_,
    List.pairwise_singleton _ _, fun g hg y hy => ?_⟩, .node .leaf new 0 .leaf, ?_, ?_, rfl⟩
  · obtain rfl : y = new := by simpa using hy
    exact ⟨m, hn, by simp [nextIn, hnext], by simp [prevIn, hprev]⟩
  · obtain rfl : y = new := by simpa using hy
    exact hlive
  · obtain rfl := List.mem_singleton.1 hg
    obtain rfl := Option.some_inj.1 (hn.symm.trans hn')
    exact hleader
  · obtain rfl := List.mem_singleton.1 hg
    cases hy
  · obtain rfl := List.mem_singleton.1 hg
    cases hy
  · have hcells : around [] (some new) + cells (above []) (.node .leaf new 0 .leaf) =
        {(new, (⟨none, none, none, 0⟩ : AvlLinks))} := by
      simp [around, cells, above, BinTree.top]
    refine ⟨rfl, ?_, fun c hc => ?_, fun c hc => ?_, fun _ _ => rfl, fun _ => rfl, rfl, rfl, rfl⟩
    · rw [BinTree.top, hcells]
      simp
    · rw [BinTree.top, hcells] at hc
      obtain rfl := Multiset.mem_singleton.1 hc
      exact ⟨m, hn, hlinks⟩
    · rw [BinTree.top, hcells] at hc
      obtain rfl := Multiset.mem_singleton.1 hc
      simp [BinTree.toList]
  · simp [BinTree.Balanced, BinTree.height]

/-- The node behind a group is a leader. -/
theorem Listed.head_leader (h : Listed key rank live s (A ++ B)) {y : Ptr} (hy : (flat B).head? = some y)
    {n : AvlNode K} (hn : s.nodes y = some n) : n.leader = true := by
  cases B with
  | nil => cases hy
  | cons g B =>
    rw [flat_cons, List.head?_cons, Option.some_inj] at hy
    exact h.leader g (by simp) n (hy ▸ hn)

/-- A node with another key than the leader where the search ended. -/
theorem Rep.insertLeader (h : Rep key rank live s (A ++ (z, ds) :: B)) (hnew : new ∉ flat (A ++ (z, ds) :: B))
    (hlive : live new) (hm : s.nodes new = some m) (hlinks : m.links = ⟨none, none, none, 0⟩) (hleader : m.leader = true)
    {l r : BinTree Ptr} (ht : Stands s (plug C (.node l z b r))) (hbalanced : (plug C (.node l z b r)).Balanced)
    (hlist : (plug C (.node l z b r)).toList = (A ++ (z, ds) :: B).map Prod.fst) {ds' : List Ptr} {last : Ptr}
    (hlast : z :: ds = ds' ++ [last]) (hA : ∀ g ∈ A, rank (key g.1) < rank (key new))
    (hB : ∀ g ∈ B, rank (key new) < rank (key g.1))
    (hcases : rank (key new) < rank (key z) ∧ l = .leaf ∨ rank (key z) < rank (key new) ∧ r = .leaf) {diff : ℤ}
    (hdiff : diff < 0 ↔ rank (key new) < rank (key z)) (hfuel : C.length < fuel) : ∃ s' G',
    (if b = 1 then do
      let s ← Avl.attach .left 0 s z last new
      return (s, (0 : ℤ))
    else if b = -1 then do
      let s ← Avl.attach .right 0 s z last new
      return (s, 0)
    else if diff < 0 then do
      let s ← Avl.attach .left (-1) s z last new
      let s ← Avl.post_insert fuel s z
      return (s, 0)
    else do
      let s ← Avl.attach .right 1 s z last new
      let s ← Avl.post_insert fuel s z
      return (s, 0)) = some (s', 0) ∧ Rep key rank live s' G' ∧
      Inserted key rank new (flat (A ++ (z, ds) :: B)) (flat G') := by
  obtain ⟨hz, -⟩ := balanced_plug.1 hbalanced
  rw [BinTree.Balanced] at hz
  rcases hcases with ⟨hlt, rfl⟩ | ⟨hlt, rfl⟩
  · obtain ⟨hfull, hfree⟩ := h.insertBeside .left hnew hlive hm hlinks hleader ht hlist hlast hA hB hlt hbalanced hfuel
    rw [BinTree.height] at hz
    obtain rfl | rfl : b = 1 ∨ b = 0 := by omega
    · obtain ⟨s', G', hrun, hs', hinserted⟩ := hfull rfl
      refine ⟨s', G', ?_, hs', hinserted⟩
      rw [if_pos rfl, Fault.bind_of_some hrun]
      rfl
    · obtain ⟨s₁, s', G', hrun, hpost, hs', hinserted⟩ := hfree rfl
      have hrun' : Avl.attach .left (-1) s z last new = some s₁ := hrun
      refine ⟨s', G', ?_, hs', hinserted⟩
      rw [if_neg (by decide), if_neg (by decide), if_pos (hdiff.2 hlt), Fault.bind_of_some hrun', Fault.bind_of_some hpost]
      rfl
  · obtain ⟨hfull, hfree⟩ := h.insertBeside .right hnew hlive hm hlinks hleader ht hlist hlast hA hB hlt hbalanced hfuel
    simp only [BinTree.height] at hz
    obtain rfl | rfl : b = -1 ∨ b = 0 := by omega
    · obtain ⟨s', G', hrun, hs', hinserted⟩ := hfull rfl
      refine ⟨s', G', ?_, hs', hinserted⟩
      rw [if_neg (by decide), if_pos rfl, Fault.bind_of_some hrun]
      rfl
    · obtain ⟨s₁, s', G', hrun, hpost, hs', hinserted⟩ := hfree rfl
      have hrun' : Avl.attach .right 1 s z last new = some s₁ := hrun
      refine ⟨s', G', ?_, hs', hinserted⟩
      rw [if_neg (by decide), if_neg (by decide), if_neg (mt hdiff.1 hlt.not_gt), Fault.bind_of_some hrun',
        Fault.bind_of_some hpost]
      rfl

theorem Rep.avl_insert (hcomp : Compares comp rank) (h : Rep key rank live s G) (hnew : new ∉ flat G)
    (hlive : live new) (hfuel : (flat G).length + 2 ≤ fuel) (allow_duplicates : Bool) : ∃ s' ret G',
    Avl.avl_insert comp fuel s new allow_duplicates = some (s', ret) ∧ Rep key rank live s' G' ∧
      if allow_duplicates = false ∧ ∃ y ∈ flat G, rank (key y) = rank (key new) then ret = -1 ∧ flat G' = flat G
      else ret = 0 ∧ Inserted key rank new (flat G) (flat G') := by
  obtain ⟨m, hm, hmkey⟩ := h.blocks new hlive
  have h₁ := h.outside (f := fun n => ⟨none, none, none, none, none, n.key, 0, true⟩) hnew key (fun _ _ => rfl) fun _ hn => hn
  rw [Avl.avl_insert, Fault.bind_of_some (modify_eq hm _)]
  generalize hs₁ : s.touch (some new) (fun n => ⟨none, none, none, none, none, n.key, 0, true⟩) = s₁ at h₁ ⊢
  have hm₁ : s₁.nodes new = some ⟨none, none, none, none, none, m.key, 0, true⟩ := by
    rw [← hs₁, touch_nodes, if_pos rfl, hm, Option.map_some]
  cases hroot : s₁.root with
  | none =>
    -- the first node
    obtain rfl := h₁.root_eq_none_iff.1 hroot
    refine ⟨_, 0, [(new, [])], rfl, h₁.toListed.single hm₁ hlive rfl rfl rfl rfl, ?_⟩
    rw [if_neg (by simp)]
    exact ⟨rfl, [], [], rfl, rfl, by simp, by simp⟩
  | some x =>
    have hdepth : (flat G).length + 1 < Nat.fib (fuel + 3) := by
      have hfib := Nat.le_fib_self (by omega : 5 ≤ fuel + 3)
      omega
    obtain ⟨A, z, ds, B, C, l, b, r, rfl, hfind, htree, hbalanced, hlist, hA, hB, hcases⟩ :=
      h₁.search hcomp hroot hdepth (key new)
    have hzin : (z, ds) ∈ A ++ (z, ds) :: B := by simp
    -- the block of `z`, and the last one with its key
    obtain ⟨p, hp, hplinks⟩ := Within.node_get (Within.plug_iff.2 htree)
    have hpkey : p.key = key z := by
      obtain ⟨p', hp', hkey⟩ := h₁.blocks z (h₁.allLive z (mem_flat.2 ⟨_, hzin, Or.inl rfl⟩))
      obtain rfl := Option.some_inj.1 (hp.symm.trans hp')
      exact hkey
    have hthread : Thread s₁ (flat A ++ z :: (ds ++ flat B)) := by simpa using h₁.thread
    have hlength : C.length < fuel ∧ ds.length < fuel := by
      have hC := length_frames_le C
      have hle := length_leaders_le (A ++ (z, ds) :: B)
      rw [← hlist, toList_plug, BinTree.toList] at hle
      simp only [List.length_append, List.length_cons, flat_append, flat_cons] at hle hfuel
      omega
    obtain ⟨ds', last, hlast, hlastrun⟩ := lastDuplicate_eq hthread (fun y hy n hn => h₁.follower _ hzin y hy n hn)
      (fun y hy n hn => by
        have hG : A ++ (z, ds) :: B = (A ++ [(z, ds)]) ++ B := by simp
        exact (hG ▸ h₁.toListed).head_leader hy hn) hlength.2
    have hzero := hcomp.zero (key new) (key z)
    have hneg := hcomp.neg (key new) (key z)
    dsimp only
    rw [Fault.bind_of_some hm₁]
    dsimp only
    rw [hmkey, Fault.bind_of_some hfind, Fault.bind_of_some hlastrun, Fault.bind_of_some hp, hpkey,
      AvlLinks.balance_of hplinks]
    by_cases heq : rank (key new) = rank (key z)
    · rw [if_pos (hzero.2 heq)]
      cases allow_duplicates with
      | false =>
        refine ⟨s₁, -1, _, rfl, h₁, ?_⟩
        rw [if_pos ⟨rfl, z, mem_flat.2 ⟨_, hzin, Or.inl rfl⟩, heq.symm⟩]
        exact ⟨rfl, rfl⟩
      | true =>
        obtain ⟨s₂, s', hrun₂, hrun, hs', hinserted⟩ := h₁.insertBehind hnew hlive hm₁ hlast heq
        refine ⟨s', 0, _, ?_, hs', ?_⟩
        · rw [if_pos rfl, Fault.bind_of_some hrun₂, Fault.bind_of_some hrun]
          rfl
        · rw [if_neg (by simp)]
          exact ⟨rfl, hinserted⟩
    · rw [if_neg (mt hzero.1 heq)]
      have hno := h₁.absent hA hB heq
      obtain ⟨s', G', hrun, hs', hinserted⟩ := h₁.insertLeader hnew hlive hm₁ rfl rfl htree hbalanced hlist hlast hA hB
        (hcases.resolve_left heq) hneg hlength.1
      refine ⟨s', 0, G', hrun, hs', ?_⟩
      have hnone : ¬ (allow_duplicates = false ∧ ∃ y ∈ flat (A ++ (z, ds) :: B), rank (key y) = rank (key new)) := by
        rintro ⟨-, y, hy, hyeq⟩
        exact hno y hy hyeq
      rw [if_neg hnone]
      exact ⟨rfl, hinserted⟩

end Avl

end MpOlsr
