import MpOlsr.Olsr.AvlInsert

/-!
# Deletion from an AVL tree

`avl_delete` takes a node from the tree and from the list (`Avl.Rep.avl_delete`).  A leader leaves its place on the tree
to the next node with its key, if there is one.
-/

namespace MpOlsr

namespace Avl

open AvlTree DoublyLinked

variable {K : Type} {key : Ptr → K} {rank : K → ℕ} {live : Ptr → Prop} {s₀ s s' : Avl K} {G G' A B : Groups}
  {xs : List Ptr} {C : List (Frame Ptr)} {t l r d : BinTree Ptr} {side : Side} {x z new : Ptr} {ds : List Ptr} {b : ℤ}
  {m : AvlNode K} {fuel : ℕ}

/-! ### The tree -/

/-- A node takes the place of another one on the tree. -/
theorem Within.replace (h : Within s₀ xs s C (.node l z b r)) (hnew : new ∉ (plug C (.node l z b r)).toList)
    (hmem : new ∈ xs) (hm : s.nodes new = some m) :
    ∃ s', s.replace z new = some s' ∧ Within s₀ xs s' C (.node l new b r) := by
  have hadd := Owns.add h (by rwa [keys_within, Multiset.mem_coe]) hmem hm
  have hz : Owns s₀ xs s (rootOf C (some z)) ({(z, ⟨above C, l.top, r.top, b⟩)} + ({(new, m.links)} +
      (around C (some z) + (cells (some z) l + cells (some z) r)))) := by
    have htop : (BinTree.node l z b r).top = some z := rfl
    rw [htop, cells] at hadd
    convert hadd using 1
    abel
  obtain ⟨n, hn, hlinks⟩ := hz.get
  have hn' : n.parent = above C ∧ n.left = l.top ∧ n.right = r.top ∧ n.balance = b := by
    simpa [AvlNode.links] using hlinks
  obtain ⟨hparent, hleft, hright, hbalance⟩ := hn'
  rw [Avl.replace, Fault.bind_of_some hn, hparent, hleft, hright, hbalance]
  obtain ⟨s₁, hrun₁, h₁⟩ := Owns.modify (x := new) (k := m.links) (j := ⟨above C, l.top, r.top, b⟩)
    (m := {(z, ⟨above C, l.top, r.top, b⟩)} + (around C (some z) + (cells (some z) l + cells (some z) r)))
    (by convert hz using 1; abel)
    (f := fun m => { m with balance := b, parent := above C, left := l.top, right := r.top }) (fun n _ => rfl)
    fun _ => rfl
  obtain ⟨s₂, hrun₂, h₂⟩ := Owns.adopt (t := l) (p := some z) (m := {(new, ⟨above C, l.top, r.top, b⟩)} +
    ({(z, ⟨above C, l.top, r.top, b⟩)} + (around C (some z) + cells (some z) r))) (by convert h₁ using 1; abel) (some new)
  obtain ⟨s₃, hrun₃, h₃⟩ := Owns.adopt (t := r) (p := some z) (m := {(new, ⟨above C, l.top, r.top, b⟩)} +
    ({(z, ⟨above C, l.top, r.top, b⟩)} + (around C (some z) + cells (some new) l))) (by convert h₂ using 1; abel)
    (some new)
  obtain ⟨s₄, hrun₄, h₄⟩ := Owns.relink (C := C) (y := z) (m := {(z, ⟨above C, l.top, r.top, b⟩)} +
    ({(new, ⟨above C, l.top, r.top, b⟩)} + (cells (some new) l + cells (some new) r))) (by convert h₃ using 1; abel)
    (by simp) (some new)
  refine ⟨s₄, ?_, ?_⟩
  · rw [Fault.bind_of_some hrun₁, Fault.bind_of_some hrun₂, Fault.bind_of_some hrun₃]
    exact hrun₄
  · have h₅ : Owns s₀ xs s₄ (rootOf C (some new)) (around C (some new) +
        ({(new, ⟨above C, l.top, r.top, b⟩)} + (cells (some new) l + cells (some new) r))) :=
      Owns.drop (m := {(z, ⟨above C, l.top, r.top, b⟩)}) (by convert h₄ using 1; abel)
    exact h₅

/-- The same, where the node is among the nodes of the tree. -/
theorem Done.replace {P Q : List Ptr} (h : Done s₀ xs (P ++ z :: Q) s) (hnew : new ∉ P ++ z :: Q) (hmem : new ∈ xs)
    (hm : s.nodes new = some m) : ∃ s', s.replace z new = some s' ∧ Done s₀ xs (P ++ new :: Q) s' := by
  obtain ⟨t, ht, hbalanced, hlist⟩ := h
  obtain ⟨C, l, b, r, rfl⟩ := exists_plug (show z ∈ t.toList by simp [hlist])
  rw [← hlist] at hnew
  obtain ⟨s', hrun, hs'⟩ := (Within.plug_iff.2 ht).replace hnew hmem hm
  have hnodup : (P ++ z :: Q).Nodup := hlist ▸ ht.stands.nodup
  have hsplit : P ++ z :: Q = (before C ++ l.toList) ++ z :: (r.toList ++ behind C) := by
    rw [← hlist, toList_plug, BinTree.toList]
    simp
  obtain ⟨hP, hQ⟩ := split_unique hnodup hsplit
  obtain ⟨hz, hC⟩ := balanced_plug.1 hbalanced
  refine ⟨s', hrun, _, Within.plug_iff.1 hs', balanced_plug.2 ⟨hz, hC⟩, ?_⟩
  rw [toList_plug, BinTree.toList, hP, hQ]
  simp

/-- The only child takes the place of a node. -/
theorem Within.bypass (post_delete : Avl K → Ptr → Option (Avl K)) {c : Ptr}
    (h : Within s₀ xs s C (BinTree.graft side .leaf z b d)) (hc : d.top = some c)
    (hbalanced : (plug C (BinTree.graft side .leaf z b d)).Balanced)
    (hrec : ∀ s, Within s₀ xs s C d → d.Balanced → Fits C (d.height + 1) →
      ∃ s', post_delete s c = some s' ∧ Done s₀ xs (plug C d).toList s') :
    ∃ s', Avl.bypass post_delete s (above C) z c = some s' ∧ Done s₀ xs (plug C d).toList s' := by
  obtain ⟨hz, hC⟩ := balanced_plug.1 hbalanced
  obtain ⟨-, -, -, -, hd⟩ := BinTree.balanced_graft.1 hz
  rw [BinTree.height_graft, BinTree.height, max_eq_right (Nat.zero_le _), add_comm] at hC
  rw [graft_iff] at h
  obtain ⟨s₁, hrun₁, h₁⟩ := Owns.adopt (t := d) (p := some z)
    (m := {(z, .of (above C) side none d.top b)} + around C (some z))
    (by
      convert h using 1
      simp only [BinTree.top, cells]
      abel) (above C)
  obtain ⟨s₂, hrun₂, h₂⟩ := Owns.relink (C := C) (y := z)
    (m := {(z, .of (above C) side none d.top b)} + cells (above C) d) (by convert h₁ using 1; abel) (by simp) (some c)
  have h₃ : Within s₀ xs s₂ C d := by
    rw [Within, hc]
    exact Owns.drop (m := {(z, .of (above C) side none d.top b)}) (by convert h₂ using 1; abel)
  rw [hc] at hrun₁
  rw [Avl.bypass, Fault.bind_of_some hrun₁, Fault.bind_of_some hrun₂]
  cases C with
  | nil => exact ⟨s₂, rfl, d, h₃, hd, by simp [plug]⟩
  | cons f C => exact hrec s₂ h₃ hd hC

/-- The only child takes the place of a node, if there is one. -/
theorem Within.delete_one (side : Side) (h : Within s₀ xs s C (BinTree.graft side .leaf z b d))
    (hbalanced : (plug C (BinTree.graft side .leaf z b d)).Balanced) (hfuel : C.length < fuel) :
    ∃ s', avl_delete_worker (fuel + 1) s z = some s' ∧ Done s₀ xs (before C ++ d.toList ++ behind C) s' := by
  obtain ⟨n, hn, hlinks⟩ := h.top_get
  have hparent := AvlLinks.parent_of hlinks
  have hchild : n.child side = none := AvlLinks.child_of hlinks
  have hother := AvlLinks.other_of hlinks
  rw [avl_delete_worker, Fault.bind_of_some hn, hparent, ← toList_plug]
  cases hd : d.top with
  | some c =>
    rw [hd] at hother
    obtain ⟨s', hrun, hdone⟩ := h.bypass (avl_post_delete fuel) hd hbalanced
      fun s hs hbal hfits => hs.post_delete hbal hfits hd hfuel
    refine ⟨s', ?_, hdone⟩
    cases side with
    | left =>
      have hleft : n.left = none := hchild
      have hright : n.right = some c := hother
      rw [hleft, hright]
      exact hrun
    | right =>
      have hright : n.right = none := hchild
      have hleft : n.left = some c := hother
      rw [hleft, hright]
      exact hrun
  | none =>
    rw [hd] at hother
    obtain rfl := BinTree.eq_leaf_iff.2 hd
    have hboth : n.left = none ∧ n.right = none := by
      cases side with
      | left => exact ⟨hchild, hother⟩
      | right => exact ⟨hother, hchild⟩
    rw [hboth.1, hboth.2]
    obtain ⟨-, hC⟩ := balanced_plug.1 hbalanced
    rw [graft_iff] at h
    cases C with
    | nil =>
      refine ⟨{ s with root := none }, rfl, .leaf, ?_, trivial, rfl⟩
      exact ⟨rfl, by simp [around, cells], by simp [around, cells], by simp [around, cells], h.frame, h.rest, h.first,
        h.last, h.count⟩
    | cons f C =>
      -- the parent has no child on this side any more
      have hf : Owns s₀ xs s (rootOf (f :: C) (some z)) ({(f.x, .of (above C) f.side (some z) f.sibling.top f.balance)} +
          (cells (some f.x) f.sibling + (around C (some f.x) +
            {(z, .of (above (f :: C)) side none none b)}))) := by
        convert h using 1
        simp only [around, cells, BinTree.top]
        abel
      have hne := hf.sibling_ne (y := z) (by
        rw [Multiset.map_add]
        exact Multiset.mem_add.2 (Or.inr (by simp)))
      obtain ⟨p, hp, hplinks⟩ := hf.get
      have hleftiff := AvlLinks.left_iff hplinks hne
      have hpchild := AvlLinks.child_of hplinks
      obtain ⟨s₁, hrun₁, h₁⟩ := hf.modify (f := fun p => p.setChild f.side none)
        (fun n hn => AvlLinks.setChild_of hn none) fun n => n.rest_setChild _ _
      have h₂ : Within s₀ xs s₁ (f :: C) .leaf := by
        have hdrop : Owns s₀ xs s₁ (rootOf (f :: C) (some z))
            ({(f.x, .of (above C) f.side none f.sibling.top f.balance)} + (cells (some f.x) f.sibling + around C (some f.x))) :=
          Owns.drop (m := {(z, .of (above (f :: C)) side none none b)}) (by convert h₁ using 1; abel)
        rw [Within, around, cells, add_zero]
        exact hdrop
      rw [BinTree.height_graft] at hC
      obtain ⟨s', hrun, hdone⟩ := h₂.shrunk (avl_post_delete fuel)
        (fun s t y hs ht hfits htop => hs.post_delete ht hfits htop (by
          rw [List.length_cons] at hfuel
          omega)) trivial (by simpa [BinTree.height] using hC)
      refine ⟨s', ?_, hdone⟩
      rw [above_cons]
      dsimp only
      rw [Fault.bind_of_some hp]
      cases hside : f.side with
      | left =>
        rw [hside] at hrun₁ hrun
        rw [if_pos (hleftiff.2 hside), Fault.bind_of_some (show s.modify f.x (fun p => { p with left := none }) = some s₁
          from hrun₁)]
        exact hrun
      | right =>
        rw [hside] at hrun₁ hrun hpchild
        have hpright : p.right = some z := hpchild
        rw [if_neg (fun heq => by rw [hleftiff.1 heq] at hside; cases hside), if_pos hpright,
          Fault.bind_of_some (show s.modify f.x (fun p => { p with right := none }) = some s₁ from hrun₁)]
        exact hrun

/-- The first node of a tree. -/
theorem Within.avl_local_min (h : Within s₀ xs s C t) (htop : t.top = some x) (hfuel : t.height ≤ fuel) :
    ∃ C' y b r, Avl.avl_local_min s fuel x = some y ∧ plug C' (.node .leaf y b r) = plug C t ∧
      before C' = before C := by
  induction t generalizing C x fuel with
  | leaf => cases htop
  | node l z b r ihl ihr =>
    obtain rfl := Option.some_inj.1 htop
    cases fuel with
    | zero => simp [BinTree.height] at hfuel
    | succ fuel =>
      rw [BinTree.height] at hfuel
      obtain ⟨n, hn, hlinks⟩ := Within.node_get h
      have hleft : n.left = l.top := AvlLinks.child_of hlinks
      rw [Avl.avl_local_min, Fault.bind_of_some hn, hleft]
      cases hl : l.top with
      | none =>
        obtain rfl := BinTree.eq_leaf_iff.2 hl
        exact ⟨C, z, b, r, rfl, rfl, rfl⟩
      | some y =>
        obtain ⟨C', y, b', r', hrun, hplug, hbefore⟩ :=
          ihl (C := ⟨.left, z, b, r⟩ :: C) (Within.cons_iff.2 h) hl (by omega : l.height ≤ fuel)
        refine ⟨C', y, b', r', hrun, hplug, ?_⟩
        rw [hbefore, before, List.append_nil]

/-- A tree without a node. -/
theorem Within.avl_delete_worker (h : Within s₀ xs s C (.node l z b r))
    (hbalanced : (plug C (.node l z b r)).Balanced) (hxs : ∀ y ∈ (plug C (.node l z b r)).toList, y ∈ xs)
    (hfuel : (plug C (.node l z b r)).toList.length < fuel) :
    ∃ s', Avl.avl_delete_worker (fuel + 1) s z = some s' ∧
      Done s₀ xs (before C ++ (l.toList ++ r.toList) ++ behind C) s' := by
  have hC : C.length < fuel := by
    have hle := length_frames_le C
    simp only [toList_plug, List.length_append, BinTree.toList] at hfuel
    omega
  cases hl : l.top with
  | none =>
    obtain rfl := BinTree.eq_leaf_iff.2 hl
    exact Within.delete_one .left h hbalanced hC
  | some y =>
    cases hr : r.top with
    | none =>
      obtain rfl := BinTree.eq_leaf_iff.2 hr
      obtain ⟨s', hrun, hdone⟩ := Within.delete_one .right (d := l) h hbalanced hC
      refine ⟨s', hrun, ?_⟩
      rw [BinTree.toList, List.append_nil]
      exact hdone
    | some y' =>
      obtain ⟨n, hn, hlinks⟩ := Within.node_get h
      have hleft : n.left = some y := (AvlLinks.child_of hlinks).trans hl
      have hright : n.right = some y' := (AvlLinks.other_of hlinks).trans hr
      have hinner : Within s₀ xs s (⟨.right, z, b, l⟩ :: C) r := Within.cons_iff.2 h
      have hheight : r.height ≤ fuel := by
        have hle := r.height_le_length
        simp only [toList_plug, List.length_append, List.length_cons, BinTree.toList] at hfuel
        omega
      obtain ⟨C', min, b', r', hmin, hplug, hbefore⟩ := hinner.avl_local_min hr hheight
      have hplug' : plug C' (.node .leaf min b' r') = plug C (.node l z b r) := hplug
      -- the first node behind `z` leaves the tree
      have hwithin : Within s₀ xs s C' (.node .leaf min b' r') := by
        rw [Within.plug_iff, hplug', ← Within.plug_iff]
        exact h
      obtain ⟨fuel, rfl⟩ : ∃ k, fuel = k + 1 := ⟨fuel - 1, by omega⟩
      have hC' : C'.length < fuel := by
        have hle := length_frames_le C'
        rw [← hplug', toList_plug] at hfuel
        simp only [List.length_append, List.length_cons, BinTree.toList] at hfuel
        omega
      obtain ⟨s₁, hrun₁, h₁⟩ := Within.delete_one .left (d := r') hwithin (hplug' ▸ hbalanced) hC'
      -- and takes the place of `z`
      have hlists : before C' ++ min :: (r'.toList ++ behind C') = before C ++ (l.toList ++ z :: (r.toList ++ behind C)) := by
        have heq := congrArg BinTree.toList hplug'
        simp only [toList_plug, BinTree.toList, List.nil_append, List.append_assoc, List.cons_append] at heq
        exact heq
      have hbefore' : before C' = (before C ++ l.toList) ++ [z] := by
        rw [hbefore, List.append_assoc]
        rfl
      have hrest : min :: (r'.toList ++ behind C') = r.toList ++ behind C := by
        rw [hbefore'] at hlists
        simpa using hlists
      have hnotin : min ∉ before C' ++ r'.toList ++ behind C' := by
        have hnodup := Owns.nodup (Within.plug_iff.1 hwithin)
        rw [around, zero_add, map_cells, Multiset.coe_nodup, toList_plug, BinTree.toList, BinTree.toList, List.nil_append,
          List.append_assoc, List.cons_append, List.nodup_middle, List.nodup_cons, ← List.append_assoc] at hnodup
        exact hnodup.1
      have hmem : min ∈ xs := hxs min (by
        rw [← hplug', toList_plug]
        simp [BinTree.toList])
      obtain ⟨m, hm⟩ : ∃ m, s₁.nodes min = some m := by
        obtain ⟨p, hp, -⟩ := Within.node_get hwithin
        obtain ⟨t₁, ht₁, -⟩ := h₁
        have hrest := (ht₁.rest min).trans (hwithin.rest min).symm
        rw [hp, Option.map_some] at hrest
        obtain ⟨m, hm, -⟩ := Option.map_eq_some_iff.1 hrest
        exact ⟨m, hm⟩
      have hsplit : before C' ++ r'.toList ++ behind C' = (before C ++ l.toList) ++ z :: (r'.toList ++ behind C') := by
        rw [hbefore']
        simp
      rw [hsplit] at h₁ hnotin
      obtain ⟨s', hrun, hdone⟩ := h₁.replace hnotin hmem hm
      refine ⟨s', ?_, ?_⟩
      · rw [Avl.avl_delete_worker, Fault.bind_of_some hn, hleft, hright]
        dsimp only
        rw [Fault.bind_of_some hmin, Fault.bind_of_some hrun₁]
        exact hrun
      · rw [hrest] at hdone
        simpa using hdone

/-! ### The list -/

/-- What a block says about its key. -/
def marks (n : AvlNode K) : K × Bool := (n.key, n.leader)

theorem Rethreads.marks (h : Rethreads s s') (y : Ptr) : (s'.nodes y).map Avl.marks = (s.nodes y).map Avl.marks := by
  have hkeep := congrArg (Option.map Prod.snd) (h.keep y)
  rw [Option.map_map, Option.map_map] at hkeep
  exact hkeep

theorem Owns.marks {root : Option Ptr} {c : Multiset (Ptr × AvlLinks)} (h : Owns s xs s' root c) (y : Ptr) :
    (s'.nodes y).map Avl.marks = (s.nodes y).map Avl.marks := by
  have hrest := congrArg (Option.map fun p => p.2.2) (h.rest y)
  rw [Option.map_map, Option.map_map] at hrest
  exact hrest

theorem Owns.thread {root : Option Ptr} {c : Multiset (Ptr × AvlLinks)} {L : List Ptr} (h : Owns s xs s' root c)
    (hs : Thread s L) : Thread s' L := by
  refine ⟨hs.nodup, h.first.trans hs.first, h.last.trans hs.last, h.count.trans hs.count, fun y hy => ?_⟩
  obtain ⟨n, hn, hnext, hprev⟩ := hs.link y hy
  have hrest := h.rest y
  rw [hn, Option.map_some] at hrest
  obtain ⟨n', hn', heq⟩ := Option.map_eq_some_iff.1 hrest
  simp only [AvlNode.rest, Prod.mk.injEq] at heq
  exact ⟨n', hn', heq.1.trans hnext, heq.2.1.trans hprev⟩

theorem exists_marks (hmarks : ∀ y, (s'.nodes y).map marks = (s.nodes y).map marks) {y : Ptr} {n' : AvlNode K}
    (hn' : s'.nodes y = some n') : ∃ n, s.nodes y = some n ∧ n.key = n'.key ∧ n.leader = n'.leader := by
  have hy := hmarks y
  rw [hn', Option.map_some] at hy
  obtain ⟨n, hn, heq⟩ := Option.map_eq_some_iff.1 hy.symm
  simp only [marks, Prod.mk.injEq] at heq
  exact ⟨n, hn, heq⟩

/-- Some nodes are not on the list any more. -/
theorem Listed.sub (h : Listed key rank live s G) (hmarks : ∀ y, (s'.nodes y).map marks = (s.nodes y).map marks)
    (hthread : Thread s' (flat G')) (hleaders : (G'.map Prod.fst).Sublist (G.map Prod.fst))
    (hsub : ∀ g' ∈ G', ∃ g ∈ G, g.1 = g'.1 ∧ g'.2.Subset g.2) : Listed key rank live s' G' := by
  refine ⟨hthread, fun y hy => ?_, fun y hy => ?_, fun g' hg' n' hn' => ?_, fun g' hg' y hy n' hn' => ?_, ?_,
    fun g' hg' y hy => ?_⟩
  · obtain ⟨n, hn, hkey⟩ := h.blocks y hy
    obtain ⟨n', hn', hkey', -⟩ := exists_marks (fun y => (hmarks y).symm) hn
    exact ⟨n', hn', hkey'.trans hkey⟩
  · obtain ⟨g', hg', hy⟩ := mem_flat.1 hy
    obtain ⟨g, hg, heq, hsub⟩ := hsub g' hg'
    exact h.allLive y (mem_flat.2 ⟨g, hg, hy.imp (fun hy => hy.trans heq.symm) fun hy => hsub hy⟩)
  · obtain ⟨n, hn, -, hleader⟩ := exists_marks hmarks hn'
    obtain ⟨g, hg, heq, -⟩ := hsub g' hg'
    exact hleader.symm.trans (h.leader g hg n (heq ▸ hn))
  · obtain ⟨n, hn, -, hleader⟩ := exists_marks hmarks hn'
    obtain ⟨g, hg, -, hsub⟩ := hsub g' hg'
    exact hleader.symm.trans (h.follower g hg y (hsub hy) n hn)
  · have hsorted := h.pairwise.sublist hleaders
    rwa [List.pairwise_map] at hsorted
  · obtain ⟨g, hg, heq, hsub⟩ := hsub g' hg'
    rw [← heq]
    exact h.same g hg y (hsub hy)

/-- The next node of a group becomes its leader. -/
theorem Listed.promote (h : Listed key rank live s (A ++ (x, z :: ds) :: B))
    (hmarks : ∀ y, (s'.nodes y).map marks = ((s.touch (some z) fun n => { n with leader := true }).nodes y).map marks)
    (hthread : Thread s' (flat (A ++ (z, ds) :: B))) : Listed key rank live s' (A ++ (z, ds) :: B) := by
  have hnodup : (flat A ++ z :: (ds ++ flat B)).Nodup := by
    simpa using hthread.nodup
  rw [List.nodup_middle, List.nodup_cons] at hnodup
  have hz : rank (key z) = rank (key x) := h.same (x, z :: ds) (by simp) z List.mem_cons_self
  have hback : ∀ y n', s'.nodes y = some n' → ∃ n, s.nodes y = some n ∧ n.key = n'.key ∧
      n'.leader = if z = y then true else n.leader := by
    intro y n' hn'
    obtain ⟨n₁, hn₁, hkey, hleader⟩ := exists_marks hmarks hn'
    rw [touch_nodes] at hn₁
    by_cases hzy : z = y
    · rw [if_pos (congrArg some hzy)] at hn₁
      obtain ⟨n, hn, rfl⟩ := Option.map_eq_some_iff.1 hn₁
      exact ⟨n, hn, hkey, by rw [if_pos hzy, ← hleader]⟩
    · rw [if_neg (by simpa using hzy)] at hn₁
      exact ⟨n₁, hn₁, hkey, by rw [if_neg hzy, hleader]⟩
  have hmem : ∀ g ∈ A ++ (z, ds) :: B, g = (z, ds) ∨ g ∈ A ++ (x, z :: ds) :: B ∧ g ∈ A ++ B := by
    intro g hg
    simp only [List.mem_append, List.mem_cons] at hg ⊢
    tauto
  have hother : ∀ g ∈ A ++ B, ∀ y ∈ g.2, z ≠ y := by
    rintro g hg y hy rfl
    refine hnodup.1 (List.mem_append.2 ?_)
    rcases List.mem_append.1 hg with hg | hg
    · exact Or.inl (mem_flat.2 ⟨g, hg, Or.inr hy⟩)
    · exact Or.inr (List.mem_append.2 (Or.inr (mem_flat.2 ⟨g, hg, Or.inr hy⟩)))
  refine ⟨hthread, fun y hy => ?_, fun y hy => ?_, fun g hg n' hn' => ?_, fun g hg y hy n' hn' => ?_, ?_,
    fun g hg y hy => ?_⟩
  · obtain ⟨n, hn, hkey⟩ := h.blocks y hy
    have hy' := hmarks y
    rw [touch_nodes] at hy'
    split at hy'
    · rw [hn, Option.map_some, Option.map_some] at hy'
      obtain ⟨n', hn', heq⟩ := Option.map_eq_some_iff.1 hy'
      simp only [marks, Prod.mk.injEq] at heq
      exact ⟨n', hn', heq.1.trans hkey⟩
    · rw [hn, Option.map_some] at hy'
      obtain ⟨n', hn', heq⟩ := Option.map_eq_some_iff.1 hy'
      simp only [marks, Prod.mk.injEq] at heq
      exact ⟨n', hn', heq.1.trans hkey⟩
  · refine h.allLive y ?_
    simp only [flat_append, flat_cons, List.mem_append, List.mem_cons] at hy ⊢
    tauto
  · obtain ⟨n, hn, -, hleader⟩ := hback _ _ hn'
    rw [hleader]
    rcases hmem g hg with rfl | ⟨hg, -⟩
    · rw [if_pos rfl]
    · rw [h.leader g hg n hn, ite_self]
  · obtain ⟨n, hn, -, hleader⟩ := hback _ _ hn'
    rw [hleader]
    rcases hmem g hg with rfl | ⟨hg, hg'⟩
    · have hzy : z ≠ y := by
        rintro rfl
        exact hnodup.1 (List.mem_append.2 (Or.inr (List.mem_append.2 (Or.inl hy))))
      rw [if_neg hzy]
      exact h.follower (x, z :: ds) (by simp) y (List.mem_cons_of_mem _ hy) n hn
    · rw [if_neg (hother g hg' y hy)]
      exact h.follower g hg y hy n hn
  · have hsorted := h.sorted
    rw [List.pairwise_append, List.pairwise_cons] at hsorted ⊢
    dsimp only at hsorted ⊢
    rw [hz]
    refine ⟨hsorted.1, hsorted.2.1, fun g hg g' hg' => ?_⟩
    rcases List.mem_cons.1 hg' with rfl | hg'
    · dsimp only
      rw [hz]
      exact hsorted.2.2 g hg (x, z :: ds) List.mem_cons_self
    · exact hsorted.2.2 g hg g' (List.mem_cons_of_mem _ hg')
  · rcases hmem g hg with rfl | ⟨hg, -⟩
    · dsimp only at hy ⊢
      rw [hz]
      exact h.same (x, z :: ds) (by simp) y (List.mem_cons_of_mem _ hy)
    · exact h.same g hg y hy

/-! ### The operation -/

/-- A node is taken from the list, after it was taken from the tree. -/
theorem Listed.unlink (h : Listed key rank live s G) (G' : Groups) {P Q : List Ptr} (hthread : Thread s' (P ++ x :: Q))
    (hmarks : ∀ y, (s'.nodes y).map marks = (s.nodes y).map marks) (hdone : Stands s' t) (hbalanced : t.Balanced)
    (hlist : t.toList = G'.map Prod.fst) (hflat : flat G' = P ++ Q)
    (hleaders : (G'.map Prod.fst).Sublist (G.map Prod.fst))
    (hsub : ∀ g' ∈ G', ∃ g ∈ G, g.1 = g'.1 ∧ g'.2.Subset g.2) :
    ∃ s'', s'.avl_remove x = some s'' ∧ Rep key rank live s'' G' := by
  obtain ⟨s'', hrun, hthread', hre⟩ := hthread.avl_remove
  exact ⟨s'', hrun, h.sub (fun y => (hre.marks y).trans (hmarks y)) (hflat ▸ hthread') hleaders hsub, t,
    hre.stands hdone, hbalanced, hlist⟩

/-- A leader without other nodes of its key: the next node on the list is a leader, too. -/
theorem Rep.leave_alone (h : Rep key rank live s (A ++ (x, []) :: B)) {n : AvlNode K} (hn : s.nodes x = some n)
    (hfuel : (flat (A ++ (x, []) :: B)).length < fuel) :
    ∃ s₁ t, leave (fuel + 1) s x n.next = some s₁ ∧ Within s (flat (A ++ (x, []) :: B)) s₁ [] t ∧ t.Balanced ∧
      t.toList = (A ++ B).map Prod.fst := by
  obtain ⟨t, ht, hbalanced, hlist⟩ := h.tree
  have hxt : x ∈ t.toList := by simp [hlist]
  obtain ⟨C, l, b, r, rfl⟩ := exists_plug hxt
  have hsplit : A.map Prod.fst ++ x :: B.map Prod.fst = (before C ++ l.toList) ++ x :: (r.toList ++ behind C) := by
    rw [toList_plug, BinTree.toList, List.map_append, List.map_cons] at hlist
    rw [← hlist]
    simp
  have hnodup := ht.nodup
  rw [hlist, List.map_append, List.map_cons] at hnodup
  obtain ⟨hA, hB⟩ := split_unique hnodup hsplit
  have hxs : ∀ y ∈ (plug C (.node l x b r)).toList, y ∈ flat (A ++ (x, []) :: B) := fun y hy =>
    leaders_subset _ (hlist ▸ hy)
  obtain ⟨s₁, hrun, t₁, hs₁, hbalanced₁, hlist₁⟩ := (Within.plug_iff.2 (ht.within _ hxs)).avl_delete_worker hbalanced hxs
    (by
      rw [hlist]
      exact (length_leaders_le _).trans_lt hfuel)
  refine ⟨s₁, t₁, ?_, hs₁, hbalanced₁, ?_⟩
  · have hthread : Thread s (flat A ++ x :: flat B) := by simpa using h.thread
    obtain ⟨n', hn', hnext, -⟩ := hthread.link x (by simp)
    obtain rfl := Option.some_inj.1 (hn.symm.trans hn')
    have hx : x ∉ flat A := by
      have hnodup := hthread.nodup
      rw [List.nodup_middle, List.nodup_cons, List.mem_append, not_or] at hnodup
      exact hnodup.1.1
    rw [nextIn_append hx] at hnext
    rw [hnext]
    cases hhead : (flat B).head? with
    | none => exact hrun
    | some y =>
      obtain ⟨m, hm⟩ := hthread.exists_node (x := y) (by simp [List.mem_of_head? hhead])
      have hG : A ++ (x, []) :: B = (A ++ [(x, [])]) ++ B := by simp
      rw [leave, Fault.bind_of_some hm, if_pos ((hG ▸ h.toListed).head_leader hhead hm)]
      exact hrun
  · rw [hlist₁, List.map_append, hA, hB]
    simp

/-- A leader with other nodes of its key leaves its place on the tree to the first of them. -/
theorem Rep.leave_to_next (h : Rep key rank live s (A ++ (x, z :: ds) :: B)) {n : AvlNode K} (hn : s.nodes x = some n)
    (fuel : ℕ) : ∃ s₁ s₂ t, s₁ = s.touch (some z) (fun n => { n with leader := true }) ∧
      leave fuel s x n.next = some s₂ ∧ Within s₁ (z :: flat (A ++ (x, z :: ds) :: B)) s₂ [] t ∧ t.Balanced ∧
      t.toList = (A ++ (z, ds) :: B).map Prod.fst := by
  have hthread : Thread s (flat A ++ x :: z :: (ds ++ flat B)) := by simpa using h.thread
  obtain ⟨n', hn', hnext, -⟩ := hthread.link x (by simp)
  obtain rfl := Option.some_inj.1 (hn.symm.trans hn')
  have hx : x ∉ flat A := by
    have hnodup := hthread.nodup
    rw [List.nodup_middle, List.nodup_cons, List.mem_append, not_or] at hnodup
    exact hnodup.1.1
  rw [nextIn_append hx, List.head?_cons] at hnext
  obtain ⟨m, hm⟩ := hthread.exists_node (x := z) (by simp)
  have hmleader : m.leader = false := h.follower (x, z :: ds) (by simp) z List.mem_cons_self m hm
  obtain ⟨t, ht, hbalanced, hlist⟩ := h.tree
  have hzt : z ∉ t.toList := by
    rw [hlist]
    intro hz
    obtain ⟨g, hg, rfl⟩ := List.mem_map.1 hz
    rw [h.leader g hg m hm] at hmleader
    cases hmleader
  have hs₁ : Stands (s.touch (some z) fun n => { n with leader := true }) t := by
    refine ht.congr rfl fun y _ => ?_
    rw [touch_nodes]
    split
    · rw [Option.map_map]
      rfl
    · rfl
  have hm₁ : (s.touch (some z) fun n => { n with leader := true }).nodes z = some { m with leader := true } := by
    rw [touch_nodes, if_pos rfl, hm, Option.map_some]
  have hdone : Done _ (z :: flat (A ++ (x, z :: ds) :: B)) (A.map Prod.fst ++ x :: B.map Prod.fst) _ :=
    ⟨t, hs₁.within _ fun y hy => List.mem_cons_of_mem _ (leaders_subset _ (hlist ▸ hy)), hbalanced, by
      rw [hlist, List.map_append, List.map_cons]⟩
  obtain ⟨s₂, hrun, t', hs₂, hbalanced', hlist'⟩ := hdone.replace (by
    rw [hlist, List.map_append, List.map_cons] at hzt
    exact hzt) List.mem_cons_self hm₁
  refine ⟨_, s₂, t', rfl, ?_, hs₂, hbalanced', by rw [hlist', List.map_append, List.map_cons]⟩
  rw [hnext, leave, Fault.bind_of_some hm, if_neg (by simp [hmleader]), Fault.bind_of_some (modify_eq hm _)]
  exact hrun

theorem Rep.avl_delete (h : Rep key rank live s G) (hx : x ∈ flat G) (hfuel : (flat G).length + 1 < fuel) :
    ∃ s' G' P Q, Avl.avl_delete fuel s x = some s' ∧ Rep key rank live s' G' ∧ flat G = P ++ x :: Q ∧
      flat G' = P ++ Q := by
  obtain ⟨⟨z, ds⟩, hg, hxz⟩ := mem_flat.1 hx
  obtain ⟨A, B, rfl⟩ := List.append_of_mem hg
  obtain ⟨n, hn⟩ := h.thread.exists_node hx
  rw [Avl.avl_delete, Fault.bind_of_some hn]
  rcases hxz with hxz | hxz
  · dsimp only at hxz
    subst hxz
    rw [if_pos (h.leader (x, ds) hg n hn)]
    obtain ⟨fuel, rfl⟩ : ∃ k, fuel = k + 1 := ⟨fuel - 1, by omega⟩
    cases ds with
    | nil =>
      obtain ⟨s₁, t, hrun, hs₁, hbalanced, hlist⟩ := h.leave_alone hn (by omega : _ < fuel)
      have hthread : Thread s₁ (flat A ++ x :: flat B) := by simpa using Owns.thread hs₁ h.thread
      obtain ⟨s', hrun', hs'⟩ := h.toListed.unlink (A ++ B) hthread (Owns.marks hs₁) hs₁.stands hbalanced hlist
        (flat_append A B) (by simp) (fun g hg => ⟨g, by
          rw [List.mem_append] at hg
          rw [List.mem_append, List.mem_cons]
          tauto, rfl, fun _ hy => hy⟩)
      refine ⟨s', _, flat A, flat B, ?_, hs', by simp, by simp⟩
      rw [Fault.bind_of_some hrun]
      exact hrun'
    | cons d ds =>
      obtain ⟨s₁, s₂, t, rfl, hrun, hs₂, hbalanced, hlist⟩ := h.leave_to_next hn (fuel + 1)
      have hthread₁ : Thread (s.touch (some d) fun n => { n with leader := true }) (flat (A ++ (x, d :: ds) :: B)) := by
        refine ⟨h.thread.nodup, h.thread.first, h.thread.last, h.thread.count, fun y hy => ?_⟩
        obtain ⟨m, hm, hlink⟩ := h.thread.link y hy
        rw [touch_nodes, hm]
        split
        · exact ⟨_, rfl, hlink⟩
        · exact ⟨m, rfl, hlink⟩
      have hthread₂ : Thread s₂ (flat A ++ x :: flat ((d, ds) :: B)) := by simpa using Owns.thread hs₂ hthread₁
      obtain ⟨s', hrun', hthread', hre⟩ := hthread₂.avl_remove
      refine ⟨s', A ++ (d, ds) :: B, flat A, flat ((d, ds) :: B), ?_, ⟨?_, t, hre.stands hs₂.stands, hbalanced, hlist⟩,
        by simp, by simp⟩
      · rw [Fault.bind_of_some hrun]
        exact hrun'
      · exact h.promote (fun y => (hre.marks y).trans (Owns.marks hs₂ y)) (by rwa [flat_append])
  · -- the node is not on the tree
    dsimp only at hxz
    obtain ⟨ds₁, ds₂, rfl⟩ := List.append_of_mem hxz
    rw [if_neg (by simp [h.follower (z, ds₁ ++ x :: ds₂) hg x (by simp) n hn]), Fault.bind_of_some rfl]
    obtain ⟨t, ht, hbalanced, hlist⟩ := h.tree
    have hthread : Thread s ((flat A ++ z :: ds₁) ++ x :: (ds₂ ++ flat B)) := by simpa using h.thread
    obtain ⟨s', hrun, hs'⟩ := h.toListed.unlink (A ++ (z, ds₁ ++ ds₂) :: B) hthread (fun _ => rfl) ht hbalanced
      (by rw [hlist]; simp) (by simp) (by simp) (fun g hg => by
        rw [List.mem_append, List.mem_cons] at hg
        rcases hg with hg | rfl | hg
        · exact ⟨g, by simp [hg], rfl, fun _ hy => hy⟩
        · exact ⟨(z, ds₁ ++ x :: ds₂), by simp, rfl, fun y hy => by
            simp only [List.mem_append, List.mem_cons] at hy ⊢
            tauto⟩
        · exact ⟨g, by simp [hg], rfl, fun _ hy => hy⟩)
    exact ⟨s', _, flat A ++ z :: ds₁, ds₂ ++ flat B, hrun, hs', by simp, by simp⟩

end Avl

end MpOlsr
