import MpOlsr.Olsr.AvlCells

/-!
# Rebalancing

When the tree at a place got higher or lower by one, `post_insert` and `avl_post_delete` go up from there until the
balances are right again, and keep the order of the nodes.  A node with a side that is too high by two is rotated once or
twice (`Turned`).
-/

namespace MpOlsr

namespace Avl

open AvlTree

variable {K : Type} {s₀ s : Avl K} {xs : List Ptr} {C : List (Frame Ptr)} {f : Frame Ptr} {t t' : BinTree Ptr}
  {side : Side} {a b c : BinTree Ptr} {x y : Ptr} {up down : ℤ} {fuel : ℕ}

theorem avl_rotate_eq : avl_rotate side s x = rotate side s x := by cases side <;> rfl

namespace Within

theorem top_get (h : Within s₀ xs s C (BinTree.graft side a x down b)) :
    ∃ n, s.nodes x = some n ∧ n.links = .of (above C) side a.top b.top down :=
  (graft_iff.1 h).get

theorem node_get {l r : BinTree Ptr} (h : Within s₀ xs s C (.node l x down r)) :
    ∃ n, s.nodes x = some n ∧ n.links = .of (above C) .left l.top r.top down :=
  top_get (show Within s₀ xs s C (BinTree.graft .left l x down r) from h)

theorem frame_get (h : Within s₀ xs s (f :: C) t) :
    ∃ p, s.nodes f.x = some p ∧ p.links = .of (above C) f.side t.top f.sibling.top f.balance :=
  top_get (cons_iff.1 h)

theorem plug_iff : Within s₀ xs s C t ↔ Within s₀ xs s [] (plug C t) := by
  rw [iff_plug, iff_plug, plug]

/-- The balance of a parent changes. -/
theorem setBalance (h : Within s₀ xs s (f :: C) t) (g : ℤ → ℤ) :
    ∃ s', s.modify f.x (fun p => { p with balance := g p.balance }) = some s' ∧
      Within s₀ xs s' ({ f with balance := g f.balance } :: C) t := by
  rw [cons_iff, Frame.attach, graft_iff] at h
  obtain ⟨s', hrun, hs'⟩ := h.modify (f := fun p => { p with balance := g p.balance })
    (j := .of (above C) f.side t.top f.sibling.top (g f.balance))
    (fun n hn => by
      rw [AvlLinks.balance_of hn]
      exact AvlLinks.setBalance_of hn _) fun _ => rfl
  refine ⟨s', hrun, ?_⟩
  rw [cons_iff, Frame.attach, graft_iff]
  exact hs'

/-- The way from a node to its parent. -/
theorem parent_get (h : Within s₀ xs s (f :: C) t) (ht : t.top = some x) : ∃ n p, s.nodes x = some n ∧
    n.parent = some f.x ∧ s.nodes f.x = some p ∧ (p.left = some x ↔ f.side = .left) := by
  cases t with
  | leaf => cases ht
  | node l y b r =>
    obtain rfl := Option.some_inj.1 ht
    obtain ⟨n, hn, hlinks⟩ := h.node_get
    obtain ⟨p, hp, hplinks⟩ := frame_get h
    refine ⟨n, p, hn, AvlLinks.parent_of hlinks, hp, AvlLinks.left_iff hplinks ?_⟩
    rw [cons_iff, Frame.attach, graft_iff] at h
    refine Owns.sibling_ne (x := f.x) (z := f.x) (m := around C (some f.x) + cells (some f.x) (.node l y b r))
      (by convert h using 1; abel) ?_
    rw [Multiset.map_add, map_cells]
    exact Multiset.mem_add.2 (Or.inr (Multiset.mem_coe.2 (BinTree.mem_of_top ht)))

end Within

/-! ### Rotations of a node that is too high on a side -/

/-- A tree was rotated around `x`, which is now below the new top. -/
structure Turned (s₀ : Avl K) (xs : List Ptr) (C : List (Frame Ptr)) (x : Ptr) (t : BinTree Ptr) (height : ℕ) (s : Avl K)
    (t' : BinTree Ptr) : Prop where
  within : Within s₀ xs s C t'
  balanced : t'.Balanced
  toList : t'.toList = t.toList
  height : t'.height = height
  parent : ∃ n y, s.nodes x = some n ∧ n.parent = some y ∧ t'.top = some y

theorem parent_rotated (h : Within s₀ xs s C (rotated side a y up b x down c)) :
    ∃ n z, s.nodes x = some n ∧ n.parent = some z ∧ (rotated side a y up b x down c).top = some z := by
  have h' : Within s₀ xs s (⟨side.other, y, raised side up (lowered side down up), a⟩ :: C)
      (BinTree.graft side b x (lowered side down up) c) := by
    rw [Within.cons_iff, Frame.attach, BinTree.graft_other]
    exact h
  obtain ⟨n, hn, hlinks⟩ := h'.top_get
  exact ⟨n, y, hn, AvlLinks.parent_of hlinks, BinTree.top_graft⟩

theorem Within.rotate_once (h : Within s₀ xs s C (BinTree.graft side (BinTree.graft side a y up b) x (2 * side.sign) c))
    (hchild : (BinTree.graft side a y up b).Balanced) (hc : c.Balanced)
    (hheight : (BinTree.graft side a y up b).height = c.height + 2) (hup : up ≠ -side.sign) :
    ∃ s' t', avl_rotate side s x = some s' ∧
      Turned s₀ xs C x (BinTree.graft side (BinTree.graft side a y up b) x (2 * side.sign) c)
        (if up = 0 then c.height + 3 else c.height + 2) s' t' := by
  obtain ⟨s', hrun, hs'⟩ := h.rotate
  obtain ⟨hbalanced, hheight'⟩ := balanced_rotated (x := x) hchild hc hheight hup
  rw [avl_rotate_eq]
  exact ⟨s', _, hrun, hs', hbalanced, toList_rotated _ _ _ _ _ _ _, hheight', parent_rotated hs'⟩

theorem Within.rotate_twice
    (h : Within s₀ xs s C (BinTree.graft side (BinTree.graft side a y (-side.sign) b) x (2 * side.sign) c))
    (hchild : (BinTree.graft side a y (-side.sign) b).Balanced) (hc : c.Balanced)
    (hheight : (BinTree.graft side a y (-side.sign) b).height = c.height + 2) : ∃ s₁ s' t',
    avl_rotate side.other s y = some s₁ ∧
      (∃ n z m, s₁.nodes y = some n ∧ n.parent = some z ∧ s₁.nodes z = some m ∧ m.parent = some x) ∧
      avl_rotate side s₁ x = some s' ∧
      Turned s₀ xs C x (BinTree.graft side (BinTree.graft side a y (-side.sign) b) x (2 * side.sign) c) (c.height + 2) s' t' := by
  obtain ⟨b₁, z, mid, b₂, rfl, first, second, hrotated, hbalanced, hheight'⟩ :=
    balanced_rotated_twice (x := x) hchild hc hheight
  have hplace : Within s₀ xs s (⟨side, x, 2 * side.sign, c⟩ :: C)
      (BinTree.graft side.other (BinTree.graft side.other b₂ z mid b₁) y (-side.sign) a) := by
    rw [Within.cons_iff, BinTree.graft_other, BinTree.graft_other]
    exact h
  obtain ⟨s₁, hrun₁, h₁⟩ := hplace.rotate
  have hlist : (rotated side.other b₂ z mid b₁ y (-side.sign) a).toList = _ := toList_rotated _ _ _ _ _ _ _
  rw [hrotated] at h₁ hlist
  -- the pointers from `y` up to `x`
  have hy : Within s₀ xs s₁ (⟨side, z, second, b₂⟩ :: ⟨side, x, 2 * side.sign, c⟩ :: C)
      (BinTree.graft side a y first b₁) := Within.cons_iff.2 h₁
  obtain ⟨n, hn, hlinks⟩ := hy.top_get
  obtain ⟨m, hm, hmlinks⟩ := h₁.top_get
  obtain ⟨s', hrun, hs'⟩ := (Within.cons_iff.1 h₁).rotate
  refine ⟨s₁, s', _, ?_, ⟨n, z, m, hn, AvlLinks.parent_of hlinks, hm, AvlLinks.parent_of hmlinks⟩, ?_, hs', hbalanced, ?_,
    hheight', parent_rotated hs'⟩
  · rw [avl_rotate_eq]
    exact hrun₁
  · rw [avl_rotate_eq]
    exact hrun
  · rw [toList_rotated, BinTree.toList_graft, hlist, BinTree.graft_other, BinTree.graft_other, ← BinTree.toList_graft]

/-! ### The way up -/

/-- A balanced tree with the nodes `l` is in memory. -/
def Done (s₀ : Avl K) (xs : List Ptr) (l : List Ptr) (s : Avl K) : Prop :=
  ∃ t, Within s₀ xs s [] t ∧ t.Balanced ∧ t.toList = l

theorem Within.done (h : Within s₀ xs s C t') (hbalanced : t'.Balanced) (hC : Fits C t'.height)
    (hlist : t'.toList = t.toList) : Done s₀ xs (plug C t).toList s :=
  ⟨plug C t', Within.plug_iff.1 h, balanced_plug.2 ⟨hbalanced, hC⟩, by rw [toList_plug, toList_plug, hlist]⟩

/-- The tree below a frame got higher by one. -/
theorem Within.grown (post_insert : Avl K → Ptr → Option (Avl K)) {k : ℕ}
    (hrec : ∀ s side a z b, Within s₀ xs s C (BinTree.graft side a z side.sign b) →
      (BinTree.graft side a z side.sign b).Balanced → Fits C (1 + max a.height b.height - 1) →
      ∃ s', post_insert s z = some s' ∧ Done s₀ xs (plug C (BinTree.graft side a z side.sign b)).toList s')
    (h : Within s₀ xs s (f :: C) (BinTree.graft side a x side.sign b))
    (ht : (BinTree.graft side a x side.sign b).Balanced) (hfits : Fits (f :: C) k)
    (hheight : (BinTree.graft side a x side.sign b).height = k + 1) : ∃ s', Avl.grown f.side post_insert s f.x x = some s' ∧
      Done s₀ xs (plug (f :: C) (BinTree.graft side a x side.sign b)).toList s' := by
  obtain ⟨hf, hlow, hhigh, hsibling, hC⟩ := hfits
  obtain ⟨s₁, hrun₁, h₁⟩ := h.setBalance fun balance => balance + f.side.sign
  obtain ⟨p, hp, hplinks⟩ := h₁.frame_get
  have hattach := Within.cons_iff.1 h₁
  have hlist : ∀ b', (Frame.attach { f with balance := b' } (BinTree.graft side a x side.sign b)).toList =
      (f.attach (BinTree.graft side a x side.sign b)).toList := by
    intro b'
    exact (BinTree.toList_graft _ _ _ _).trans (BinTree.toList_graft _ _ _ _).symm
  rw [Avl.grown, Fault.bind_of_some hrun₁, Fault.bind_of_some hp, AvlLinks.balance_of hplinks]
  dsimp only
  by_cases hzero : f.balance + f.side.sign = 0
  · rw [if_pos hzero]
    have hsame : k + 1 = f.sibling.height := by
      rcases f.side.sign_cases with hs | hs <;> rw [hs] at hf hzero <;> omega
    refine ⟨s₁, rfl, hattach.done ?_ ?_ (hlist _)⟩
    · rw [Frame.attach, BinTree.balanced_graft, hheight]
      refine ⟨?_, ?_, ?_, ht, hsibling⟩ <;> dsimp only <;> rcases f.side.sign_cases with hs | hs <;>
        rw [hs] at hf hzero ⊢ <;> omega
    · rw [Frame.attach, BinTree.height_graft, hheight, hsame, max_self]
      rwa [max_eq_right (by omega)] at hC
  · rw [if_neg hzero]
    by_cases hone : f.balance + f.side.sign = f.side.sign
    · rw [if_pos hone]
      have hsame : k = f.sibling.height := by
        rcases f.side.sign_cases with hs | hs <;> rw [hs] at hf hone <;> omega
      rw [Frame.attach] at hattach
      dsimp only at hattach
      rw [hone] at hattach
      obtain ⟨s', hrun, t', hs', hbalanced, htoList⟩ := hrec s₁ f.side _ f.x f.sibling hattach
        (BinTree.balanced_graft.2 ⟨by rw [hheight, ← hsame]; push_cast; omega,
          by rcases f.side.sign_cases with hs | hs <;> omega,
          by rcases f.side.sign_cases with hs | hs <;> omega, ht, hsibling⟩)
        (by
          rw [hheight]
          convert hC using 1
          omega)
      refine ⟨s', hrun, t', hs', hbalanced, ?_⟩
      rw [htoList, plug, toList_plug, toList_plug, ← hlist f.side.sign]
      rfl
    · rw [if_neg hone]
      have htwo : f.balance + f.side.sign = 2 * f.side.sign ∧ k = f.sibling.height + 1 := by
        rcases f.side.sign_cases with hs | hs <;> rw [hs] at hf hzero hone ⊢ <;> omega
      obtain ⟨htwo, hk⟩ := htwo
      rw [Frame.attach] at hattach
      dsimp only at hattach
      rw [htwo] at hattach
      have hC' : Fits C (f.sibling.height + 2) := by
        convert hC using 1
        omega
      have hheight' : (BinTree.graft side a x side.sign b).height = f.sibling.height + 2 := by omega
      obtain ⟨n, hn, hlinks⟩ := h₁.top_get
      rw [Fault.bind_of_some hn, AvlLinks.balance_of hlinks]
      by_cases hside : side = f.side
      · subst hside
        rw [if_pos rfl]
        obtain ⟨s', t', hrun, hturned⟩ := hattach.rotate_once ht hsibling hheight' (by
          rcases f.side.sign_cases with hs | hs <;> rw [hs] <;> decide)
        rw [if_neg (by rcases f.side.sign_cases with hs | hs <;> rw [hs] <;> decide)] at hturned
        refine ⟨s', hrun, ?_⟩
        rw [plug]
        exact hturned.within.done hturned.balanced (by rwa [hturned.height]) (hturned.toList.trans (hlist (2 * f.side.sign)))
      · -- the inner tree is the higher one
        have hother : side = f.side.other := by
          revert hside
          cases side <;> cases f.side <;> decide
        rw [hother, BinTree.graft_other, Side.sign_other] at hattach ht hheight'
        have hneg : side.sign ≠ f.side.sign := by
          rw [hother, Side.sign_other]
          rcases f.side.sign_cases with hs | hs <;> rw [hs] <;> decide
        rw [if_neg hneg]
        obtain ⟨s₂, s', t', hrun₂, ⟨m, z, m', hm, hz, hm', hx⟩, hrun, hturned⟩ :=
          hattach.rotate_twice ht hsibling hheight'
        refine ⟨s', ?_, ?_⟩
        · rw [Fault.bind_of_some hrun₂, Fault.bind_of_some hm, hz, Fault.bind_of_some rfl, Fault.bind_of_some hm', hx]
          exact hrun
        · rw [plug]
          refine hturned.within.done hturned.balanced (by rwa [hturned.height]) ?_
          rw [hturned.toList, ← hlist (2 * f.side.sign), hother, BinTree.graft_other, Side.sign_other]
          rfl

theorem Within.post_insert {k : ℕ} (h : Within s₀ xs s C (BinTree.graft side a x side.sign b))
    (ht : (BinTree.graft side a x side.sign b).Balanced) (hfits : Fits C k)
    (hheight : (BinTree.graft side a x side.sign b).height = k + 1) (hfuel : C.length < fuel) :
    ∃ s', Avl.post_insert fuel s x = some s' ∧ Done s₀ xs (plug C (BinTree.graft side a x side.sign b)).toList s' := by
  induction C generalizing s side a x b k fuel with
  | nil =>
    obtain ⟨fuel, rfl⟩ := Nat.exists_eq_add_of_lt hfuel
    obtain ⟨n, hn, hlinks⟩ := h.top_get
    refine ⟨s, ?_, _, h, ht, rfl⟩
    rw [Avl.post_insert, Fault.bind_of_some hn, AvlLinks.parent_of hlinks]
    rfl
  | cons f C ih =>
    cases fuel with
    | zero => simp at hfuel
    | succ fuel =>
      rw [List.length_cons, Nat.add_lt_add_iff_right] at hfuel
      obtain ⟨n, p, hn, hparent, hp, hleft⟩ := h.parent_get BinTree.top_graft
      obtain ⟨s', hrun, hdone⟩ := h.grown (Avl.post_insert fuel)
        (fun s side a z b hs hb hC => ih hs hb hC (by rw [BinTree.height_graft]; omega) hfuel) ht hfits hheight
      refine ⟨s', ?_, hdone⟩
      rw [Avl.post_insert, Fault.bind_of_some hn, hparent]
      dsimp only
      rw [Fault.bind_of_some hp]
      split
      · rename_i heq
        rw [← hleft.1 heq]
        exact hrun
      · rename_i heq
        have hright : f.side = .right := by
          cases hside : f.side with
          | left => exact absurd (hleft.2 hside) heq
          | right => rfl
        rw [← hright]
        exact hrun

/-- The tree on the other side got lower, and is two lower than the child with `y`. -/
theorem Within.rebalance (post_delete : Avl K → Ptr → Option (Avl K))
    (hrec : ∀ s t z, Within s₀ xs s C t → t.Balanced → Fits C (t.height + 1) → t.top = some z →
      ∃ s', post_delete s z = some s' ∧ Done s₀ xs (plug C t).toList s')
    (h : Within s₀ xs s C (BinTree.graft side (BinTree.graft side a y up b) x (2 * side.sign) c))
    (hchild : (BinTree.graft side a y up b).Balanced) (hc : c.Balanced)
    (hheight : (BinTree.graft side a y up b).height = c.height + 2) (hC : Fits C (c.height + 3)) : ∃ s', (do
      let n ← s.nodes y
      if n.balance = 0 then avl_rotate side s x
      else do
        let s ← if n.balance = side.sign then some s else avl_rotate side.other s y
        let s ← avl_rotate side s x
        let p ← s.nodes x
        let up ← p.parent
        post_delete s up) = some s' ∧
      Done s₀ xs (plug C (BinTree.graft side (BinTree.graft side a y up b) x (2 * side.sign) c)).toList s' := by
  have hsib : Within s₀ xs s (⟨side, x, 2 * side.sign, c⟩ :: C) (BinTree.graft side a y up b) := Within.cons_iff.2 h
  obtain ⟨n, hn, hlinks⟩ := hsib.top_get
  rw [Fault.bind_of_some hn, AvlLinks.balance_of hlinks]
  -- the tree that was rotated is lower than before
  have hlower : ∀ s₂ t', Turned s₀ xs C x
      (BinTree.graft side (BinTree.graft side a y up b) x (2 * side.sign) c) (c.height + 2) s₂ t' → ∃ s', (do
        let p ← s₂.nodes x
        let up ← p.parent
        post_delete s₂ up) = some s' ∧
        Done s₀ xs (plug C (BinTree.graft side (BinTree.graft side a y up b) x (2 * side.sign) c)).toList s' := by
    intro s₂ t' hturned
    obtain ⟨m, z, hm, hz, htop⟩ := hturned.parent
    obtain ⟨s', hrun, t'', hs', hbalanced, htoList⟩ := hrec s₂ t' z hturned.within hturned.balanced (by
      rw [hturned.height]
      exact hC) htop
    refine ⟨s', by rw [Fault.bind_of_some hm, Fault.bind_of_some hz]; exact hrun, t'', hs', hbalanced, ?_⟩
    rw [htoList, toList_plug, toList_plug, hturned.toList]
  by_cases hup : up = 0
  · rw [if_pos hup]
    obtain ⟨s', t', hrun, hturned⟩ := h.rotate_once hchild hc hheight (by
      rw [hup]
      rcases side.sign_cases with hs | hs <;> rw [hs] <;> decide)
    rw [if_pos hup] at hturned
    refine ⟨s', hrun, hturned.within.done hturned.balanced ?_ hturned.toList⟩
    rw [hturned.height]
    exact hC
  · rw [if_neg hup]
    by_cases hout : up = side.sign
    · rw [if_pos hout, Fault.bind_of_some rfl]
      obtain ⟨s', t', hrun, hturned⟩ := h.rotate_once hchild hc hheight (by
        rw [hout]
        rcases side.sign_cases with hs | hs <;> rw [hs] <;> decide)
      rw [if_neg hup] at hturned
      dsimp only
      rw [Fault.bind_of_some hrun]
      exact hlower s' t' hturned
    · -- the inner tree is the higher one
      rw [if_neg hout]
      obtain ⟨-, hlow, hhigh, -⟩ := BinTree.balanced_graft.1 hchild
      obtain rfl : up = -side.sign := by
        rcases side.sign_cases with hs | hs <;> rw [hs] at hout ⊢ <;> omega
      obtain ⟨s₂, s', t', hrun₂, -, hrun, hturned⟩ := h.rotate_twice hchild hc hheight
      rw [Fault.bind_of_some hrun₂]
      dsimp only
      rw [Fault.bind_of_some hrun]
      exact hlower s' t' hturned

/-- The tree below a frame got lower by one. -/
theorem Within.shrunk (post_delete : Avl K → Ptr → Option (Avl K))
    (hrec : ∀ s t z, Within s₀ xs s C t → t.Balanced → Fits C (t.height + 1) → t.top = some z →
      ∃ s', post_delete s z = some s' ∧ Done s₀ xs (plug C t).toList s')
    (h : Within s₀ xs s (f :: C) t) (ht : t.Balanced) (hfits : Fits (f :: C) (t.height + 1)) :
    ∃ s', Avl.shrunk f.side post_delete s f.x = some s' ∧ Done s₀ xs (plug (f :: C) t).toList s' := by
  obtain ⟨side, x, balance, sibling⟩ := f
  obtain ⟨hf, hlow, hhigh, hsibling, hC⟩ := hfits
  dsimp only at hf hlow hhigh hsibling hC ⊢
  obtain ⟨s₁, hrun₁, h₁⟩ := h.setBalance fun balance => balance - side.sign
  obtain ⟨p, hp, hplinks⟩ := h₁.frame_get
  have hattach := Within.cons_iff.1 h₁
  rw [Frame.attach] at hattach
  dsimp only at hattach hp hplinks
  have hlist : ∀ b', (BinTree.graft side t x b' sibling).toList = (Frame.attach ⟨side, x, balance, sibling⟩ t).toList := by
    intro b'
    exact (BinTree.toList_graft _ _ _ _).trans (BinTree.toList_graft _ _ _ _).symm
  have hplug : ∀ b', (plug C (BinTree.graft side t x b' sibling)).toList =
      (plug (⟨side, x, balance, sibling⟩ :: C) t).toList := by
    intro b'
    rw [plug, toList_plug, toList_plug, hlist]
  rw [Avl.shrunk, Fault.bind_of_some hrun₁, Fault.bind_of_some hp, AvlLinks.balance_of hplinks]
  by_cases hzero : balance - side.sign = 0
  · rw [if_pos hzero]
    have hsame : t.height = sibling.height := by
      rcases side.sign_cases with hs | hs <;> rw [hs] at hf hzero <;> omega
    rw [hzero] at hattach
    obtain ⟨s', hrun, hdone⟩ := hrec s₁ _ x hattach
      (BinTree.balanced_graft.2 ⟨by rw [hsame]; simp, by decide, by decide, ht, hsibling⟩)
      (by
        rw [BinTree.height_graft]
        convert hC using 1
        omega)
      BinTree.top_graft
    exact ⟨s', hrun, hplug 0 ▸ hdone⟩
  · rw [if_neg hzero]
    by_cases hone : balance - side.sign = -side.sign
    · rw [if_pos hone]
      have hsame : sibling.height = t.height + 1 := by
        rcases side.sign_cases with hs | hs <;> rw [hs] at hf hone <;> omega
      refine ⟨s₁, rfl, ?_⟩
      rw [plug]
      refine hattach.done ?_ ?_ (hlist _)
      · rw [BinTree.balanced_graft, hone, hsame]
        refine ⟨?_, ?_, ?_, ht, hsibling⟩ <;> rcases side.sign_cases with hs | hs <;> rw [hs] <;> omega
      · rw [BinTree.height_graft, hsame, max_eq_right (by omega)]
        rwa [hsame, max_self] at hC
    · rw [if_neg hone]
      have htwo : balance - side.sign = 2 * side.other.sign ∧ sibling.height = t.height + 2 := by
        rw [Side.sign_other]
        rcases side.sign_cases with hs | hs <;> rw [hs] at hf hzero hone ⊢ <;> omega
      obtain ⟨htwo, hheight⟩ := htwo
      rw [max_eq_right (by omega)] at hC
      cases sibling with
      | leaf => simp [BinTree.height] at hheight
      | node l y up r =>
        obtain ⟨a, b, hab⟩ := BinTree.exists_graft side.other l y up r
        rw [hab] at hattach hsibling hheight hC hplinks hlist hplug ⊢
        rw [htwo, ← BinTree.graft_other] at hattach
        rw [AvlLinks.other_of hplinks, BinTree.top_graft, Fault.bind_of_some rfl]
        obtain ⟨s', hrun, hdone⟩ := Within.rebalance post_delete hrec hattach hsibling ht hheight (by
          convert hC using 1
          omega)
        rw [Side.sign_other, Side.other_other] at hrun
        refine ⟨s', hrun, ?_⟩
        rw [← hplug (2 * side.other.sign), ← BinTree.graft_other]
        exact hdone

theorem Within.post_delete (h : Within s₀ xs s C t) (ht : t.Balanced) (hfits : Fits C (t.height + 1))
    (htop : t.top = some x) (hfuel : C.length < fuel) :
    ∃ s', Avl.avl_post_delete fuel s x = some s' ∧ Done s₀ xs (plug C t).toList s' := by
  induction C generalizing s t x fuel with
  | nil =>
    obtain ⟨fuel, rfl⟩ := Nat.exists_eq_add_of_lt hfuel
    cases t with
    | leaf => cases htop
    | node l y b r =>
      obtain rfl := Option.some_inj.1 htop
      obtain ⟨n, hn, hlinks⟩ := h.node_get
      refine ⟨s, ?_, _, h, ht, rfl⟩
      rw [Avl.avl_post_delete, Fault.bind_of_some hn, AvlLinks.parent_of hlinks]
      rfl
  | cons f C ih =>
    cases fuel with
    | zero => simp at hfuel
    | succ fuel =>
      rw [List.length_cons, Nat.add_lt_add_iff_right] at hfuel
      obtain ⟨n, p, hn, hparent, hp, hleft⟩ := h.parent_get htop
      obtain ⟨s', hrun, hdone⟩ := h.shrunk (Avl.avl_post_delete fuel)
        (fun s t z hs ht hC htop => ih hs ht hC htop hfuel) ht hfits
      refine ⟨s', ?_, hdone⟩
      rw [Avl.avl_post_delete, Fault.bind_of_some hn, hparent]
      dsimp only
      rw [Fault.bind_of_some hp]
      split
      · rename_i heq
        rw [← hleft.1 heq]
        exact hrun
      · rename_i heq
        have hright : f.side = .right := by
          cases hside : f.side with
          | left => exact absurd (hleft.2 hside) heq
          | right => rfl
        rw [← hright]
        exact hrun

end Avl

end MpOlsr
