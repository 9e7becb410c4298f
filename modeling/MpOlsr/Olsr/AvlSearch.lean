import Mathlib.Data.Nat.Fib.Basic
import MpOlsr.Olsr.AvlBalance
import MpOlsr.Olsr.AvlThread

/-!
# The nodes of an AVL tree

The nodes of a tree as groups: a leader, which is on the tree, with the other nodes that have its key (`Avl.Rep`).  The
groups are in the order of their keys.  A search goes down to the place of a key (`Avl.Within.avl_find_rec`).
-/

namespace MpOlsr

namespace Avl

open AvlTree DoublyLinked

/-- The leaders with the other nodes that have their keys. -/
abbrev Groups := List (Ptr × List Ptr)

def flat (G : Groups) : List Ptr := G.flatMap fun g => g.1 :: g.2

/-- A comparison of keys is that of their ranks. -/
structure Compares {K : Type} (comp : K → K → ℤ) (rank : K → ℕ) : Prop where
  neg : ∀ k k', comp k k' < 0 ↔ rank k < rank k'
  pos : ∀ k k', 0 < comp k k' ↔ rank k' < rank k

theorem Compares.zero {K : Type} {comp : K → K → ℤ} {rank : K → ℕ} (h : Compares comp rank) (k k' : K) :
    comp k k' = 0 ↔ rank k = rank k' := by
  have hneg := h.neg k k'
  have hpos := h.pos k k'
  omega

/-- A tree is in memory. -/
def Stands {K : Type} (s : Avl K) (t : BinTree Ptr) : Prop := Within s t.toList s [] t

/-- What the list, the keys and the leaders say; `live` are the blocks that are allocated, with their keys. -/
structure Listed {K : Type} (key : Ptr → K) (rank : K → ℕ) (live : Ptr → Prop) (s : Avl K) (G : Groups) : Prop where
  thread : Thread s (flat G)
  blocks : ∀ x, live x → ∃ n, s.nodes x = some n ∧ n.key = key x
  allLive : ∀ x ∈ flat G, live x
  leader : ∀ g ∈ G, ∀ n, s.nodes g.1 = some n → n.leader = true
  follower : ∀ g ∈ G, ∀ x ∈ g.2, ∀ n, s.nodes x = some n → n.leader = false
  sorted : G.Pairwise fun g g' => rank (key g.1) < rank (key g'.1)
  same : ∀ g ∈ G, ∀ x ∈ g.2, rank (key x) = rank (key g.1)

/-- The tree and the list belong to the groups. -/
structure Rep {K : Type} (key : Ptr → K) (rank : K → ℕ) (live : Ptr → Prop) (s : Avl K) (G : Groups) : Prop
    extends Listed key rank live s G where
  tree : ∃ t, Stands s t ∧ t.Balanced ∧ t.toList = G.map Prod.fst

variable {K : Type} {key : Ptr → K} {rank : K → ℕ} {live : Ptr → Prop} {comp : K → K → ℤ} {s₀ s s' : Avl K}
  {G A B : Groups} {xs : List Ptr} {C : List (Frame Ptr)} {t : BinTree Ptr} {x z new : Ptr} {ds : List Ptr} {k : K}
  {fuel : ℕ}

@[simp] theorem flat_nil : flat [] = [] := rfl

@[simp] theorem flat_cons (g : Ptr × List Ptr) (G : Groups) : flat (g :: G) = g.1 :: (g.2 ++ flat G) := rfl

@[simp] theorem flat_append (A B : Groups) : flat (A ++ B) = flat A ++ flat B := List.flatMap_append

theorem mem_flat : x ∈ flat G ↔ ∃ g ∈ G, x = g.1 ∨ x ∈ g.2 := by
  simp [flat]

theorem leaders_subset (G : Groups) : (G.map Prod.fst).Subset (flat G) := by
  intro x hx
  obtain ⟨g, hg, rfl⟩ := List.mem_map.1 hx
  exact mem_flat.2 ⟨g, hg, Or.inl rfl⟩

/-- The cells of a tree are owned from now on. -/
theorem Owns.restart {root : Option Ptr} {m : Multiset (Ptr × AvlLinks)} (h : Owns s₀ xs s root m) {ys : List Ptr}
    (hys : ∀ c ∈ m, c.1 ∈ ys) : Owns s ys s root m :=
  ⟨h.root, h.nodup, h.cell, hys, fun _ _ => rfl, fun _ => rfl, rfl, rfl, rfl⟩

theorem mem_of_cells (parent : Option Ptr) {c : Ptr × AvlLinks} (hc : c ∈ cells parent t) : c.1 ∈ t.toList := by
  rw [← Multiset.mem_coe, ← map_cells parent]
  exact Multiset.mem_map_of_mem _ hc

theorem Within.stands (h : Within s₀ xs s [] t) : Stands s t := by
  refine Owns.restart h fun c hc => mem_of_cells none ?_
  rw [around, zero_add] at hc
  exact hc

theorem Stands.within (h : Stands s t) (xs : List Ptr) (hxs : ∀ y ∈ t.toList, y ∈ xs) : Within s xs s [] t := by
  refine Owns.restart h fun c hc => hxs _ (mem_of_cells none ?_)
  rw [around, zero_add] at hc
  exact hc

/-- A tree stays in memory when other things change. -/
theorem Stands.congr (h : Stands s t) (hroot : s'.root = s.root)
    (hlinks : ∀ y ∈ t.toList, (s'.nodes y).map AvlNode.links = (s.nodes y).map AvlNode.links) : Stands s' t := by
  have hcell : ∀ c ∈ around [] t.top + cells (above []) t, ∃ n, s'.nodes c.1 = some n ∧ n.links = c.2 := by
    intro c hc
    obtain ⟨n, hn, hlinks'⟩ := h.cell c hc
    have hy := hlinks c.1 (mem_of_cells none (by
      rw [around, zero_add] at hc
      exact hc))
    rw [hn, Option.map_some, hlinks'] at hy
    obtain ⟨n', hn', heq⟩ := Option.map_eq_some_iff.1 hy
    exact ⟨n', hn', heq⟩
  exact ⟨hroot.trans h.root, h.nodup, hcell, h.mem, fun _ _ => rfl, fun _ => rfl, rfl, rfl, rfl⟩

theorem Stands.nodup (h : Stands s t) : t.toList.Nodup := by
  have hnodup := Owns.nodup h
  rw [around, zero_add, map_cells] at hnodup
  exact hnodup

/-- Only the tree changed. -/
theorem Listed.retree (h : Listed key rank live s G) (hs' : Done s xs (G.map Prod.fst) s') :
    Rep key rank live s' G := by
  obtain ⟨t, ht, hbalanced, hlist⟩ := hs'
  have hfields : ∀ y n, s.nodes y = some n → ∃ n', s'.nodes y = some n' ∧ n'.rest = n.rest := by
    intro y n hn
    have hrest := ht.rest y
    rw [hn, Option.map_some] at hrest
    exact Option.map_eq_some_iff.1 hrest
  have hback : ∀ y n', s'.nodes y = some n' → ∃ n, s.nodes y = some n ∧ n'.rest = n.rest := by
    intro y n' hn'
    have hrest := ht.rest y
    rw [hn', Option.map_some] at hrest
    obtain ⟨n, hn, heq⟩ := Option.map_eq_some_iff.1 hrest.symm
    exact ⟨n, hn, heq.symm⟩
  refine ⟨⟨⟨h.thread.nodup, ht.first.trans h.thread.first, ht.last.trans h.thread.last, ht.count.trans h.thread.count,
    fun y hy => ?_⟩, fun y hy => ?_, h.allLive, fun g hg n' hn' => ?_, fun g hg y hy n' hn' => ?_, h.sorted, h.same⟩,
    t, ht.stands, hbalanced, hlist⟩
  · obtain ⟨n, hn, hnext, hprev⟩ := h.thread.link y hy
    obtain ⟨n', hn', heq⟩ := hfields y n hn
    simp only [AvlNode.rest, Prod.mk.injEq] at heq
    exact ⟨n', hn', heq.1.trans hnext, heq.2.1.trans hprev⟩
  · obtain ⟨n, hn, hkey⟩ := h.blocks y hy
    obtain ⟨n', hn', heq⟩ := hfields y n hn
    simp only [AvlNode.rest, Prod.mk.injEq] at heq
    exact ⟨n', hn', heq.2.2.1.trans hkey⟩
  · obtain ⟨n, hn, heq⟩ := hback _ _ hn'
    simp only [AvlNode.rest, Prod.mk.injEq] at heq
    exact heq.2.2.2.trans (h.leader g hg n hn)
  · obtain ⟨n, hn, heq⟩ := hback _ _ hn'
    simp only [AvlNode.rest, Prod.mk.injEq] at heq
    exact heq.2.2.2.trans (h.follower g hg y hy n hn)

/-- The leaders are in the order of their keys. -/
theorem Listed.pairwise (h : Listed key rank live s G) :
    (G.map Prod.fst).Pairwise fun x y => rank (key x) < rank (key y) :=
  List.pairwise_map.2 h.sorted

/-! ### Search -/

/-- The search for a key ends at the node with the key, or at a node without a child on the side of the key. -/
theorem Within.avl_find_rec (hcomp : Compares comp rank) (hkeys : ∀ y ∈ t.toList, ∀ n, s.nodes y = some n → n.key = key y)
    (h : Within s₀ xs s C t) (htop : t.top = some x) (hfuel : t.height ≤ fuel)
    (hsorted : t.toList.Pairwise fun y z => rank (key y) < rank (key z))
    (hbefore : ∀ y ∈ before C, rank (key y) < rank k) (hbehind : ∀ y ∈ behind C, rank k < rank (key y)) :
    ∃ C' l z b r, Avl.avl_find_rec comp s k fuel x = some z ∧ plug C' (.node l z b r) = plug C t ∧
      (∀ y ∈ before C', rank (key y) < rank k) ∧ (∀ y ∈ behind C', rank k < rank (key y)) ∧
      (rank k = rank (key z) ∨ rank k < rank (key z) ∧ l = .leaf ∨ rank (key z) < rank k ∧ r = .leaf) := by
  induction t generalizing C x fuel with
  | leaf => cases htop
  | node l y b r ihl ihr =>
    obtain rfl := Option.some_inj.1 htop
    cases fuel with
    | zero => simp [BinTree.height] at hfuel
    | succ fuel =>
      rw [BinTree.height] at hfuel
      obtain ⟨n, hn, hlinks⟩ := Within.node_get h
      have hkey : n.key = key y := hkeys y (by simp [BinTree.toList]) n hn
      have hleft : n.left = l.top := AvlLinks.child_of hlinks
      have hright : n.right = r.top := AvlLinks.other_of hlinks
      rw [BinTree.toList, List.pairwise_append, List.pairwise_cons] at hsorted
      obtain ⟨hl, ⟨hyr, hr⟩, hlr⟩ := hsorted
      have hcmp := hcomp.neg k (key y)
      have hcmp' := hcomp.pos k (key y)
      rw [Avl.avl_find_rec, Fault.bind_of_some hn, hkey, hleft, hright]
      dsimp only
      split
      · rename_i hlt
        have hky := hcmp.1 hlt
        cases hltop : l.top with
        | none => exact ⟨C, l, y, b, r, rfl, rfl, hbefore, hbehind, Or.inr (Or.inl ⟨hky, BinTree.eq_leaf_iff.2 hltop⟩)⟩
        | some x' =>
          obtain ⟨C', l', z, b', r', hrun, hplug, hrest⟩ := ihl (C := ⟨.left, y, b, r⟩ :: C)
            (fun w hw => hkeys w (by simp [BinTree.toList, hw])) (Within.cons_iff.2 h) hltop (by omega : l.height ≤ fuel) hl
            (fun w hw => hbefore w (by simpa [before] using hw))
            (fun w hw => by
              simp only [behind, List.cons_append, List.mem_cons, List.mem_append] at hw
              rcases hw with rfl | hw | hw
              · exact hky
              · exact hky.trans (hyr w hw)
              · exact hbehind w hw)
          exact ⟨C', l', z, b', r', hrun, hplug, hrest⟩
      · rename_i hge
        split
        · rename_i hgt
          have hyk := hcmp'.1 hgt
          cases hrtop : r.top with
          | none => exact ⟨C, l, y, b, r, rfl, rfl, hbefore, hbehind, Or.inr (Or.inr ⟨hyk, BinTree.eq_leaf_iff.2 hrtop⟩)⟩
          | some x' =>
            obtain ⟨C', l', z, b', r', hrun, hplug, hrest⟩ := ihr (C := ⟨.right, y, b, l⟩ :: C)
              (fun w hw => hkeys w (by simp [BinTree.toList, hw])) (Within.cons_iff.2 h) hrtop (by omega : r.height ≤ fuel) hr
              (fun w hw => by
                simp only [before, List.mem_append, List.mem_singleton] at hw
                rcases hw with hw | hw | rfl
                · exact hbefore w hw
                · exact (hlr w hw y List.mem_cons_self).trans hyk
                · exact hyk)
              (fun w hw => hbehind w (by simpa [behind] using hw))
            exact ⟨C', l', z, b', r', hrun, hplug, hrest⟩
        · rename_i hle
          exact ⟨C, l, y, b, r, rfl, rfl, hbefore, hbehind, Or.inl (by omega)⟩

theorem exists_group {P Q : List Ptr} (h : G.map Prod.fst = P ++ z :: Q) :
    ∃ A ds B, G = A ++ (z, ds) :: B ∧ A.map Prod.fst = P ∧ B.map Prod.fst = Q := by
  obtain ⟨A, G', rfl, hA, hG'⟩ := List.map_eq_append_iff.1 h
  obtain ⟨g, B, rfl, rfl, hB⟩ := List.map_eq_cons_iff.1 hG'
  exact ⟨A, g.2, B, rfl, hA, hB⟩

/-- The nodes of a group have the key of its leader. -/
theorem Listed.rank_leader (h : Listed key rank live s G) {g : Ptr × List Ptr} (hg : g ∈ G) (hx : x = g.1 ∨ x ∈ g.2) :
    rank (key x) = rank (key g.1) := by
  rcases hx with rfl | hx
  · rfl
  · exact h.same g hg x hx

/-- The groups before and behind the place where a search ended. -/
theorem Listed.place {l r : BinTree Ptr} (h : Listed key rank live s (A ++ (z, ds) :: B))
    (hA : A.map Prod.fst = before C ++ l.toList) (hB : B.map Prod.fst = r.toList ++ behind C)
    (hbefore : ∀ y ∈ before C, rank (key y) < rank k) (hbehind : ∀ y ∈ behind C, rank k < rank (key y))
    (hcases : rank k = rank (key z) ∨ rank k < rank (key z) ∧ l = .leaf ∨ rank (key z) < rank k ∧ r = .leaf) :
    (∀ g ∈ A, rank (key g.1) < rank k) ∧ ∀ g ∈ B, rank k < rank (key g.1) := by
  have hsorted := h.sorted
  rw [List.pairwise_append, List.pairwise_cons] at hsorted
  constructor
  · intro g hg
    have hlt := hsorted.2.2 g hg (z, ds) List.mem_cons_self
    rcases hcases with heq | ⟨-, rfl⟩ | ⟨hzk, -⟩
    · rw [heq]
      exact hlt
    · rw [BinTree.toList, List.append_nil] at hA
      exact hbefore _ (hA ▸ List.mem_map_of_mem hg)
    · exact hlt.trans hzk
  · intro g hg
    have hlt := hsorted.2.1.1 g hg
    rcases hcases with heq | ⟨hkz, -⟩ | ⟨-, rfl⟩
    · rw [heq]
      exact hlt
    · exact hkz.trans hlt
    · rw [BinTree.toList, List.nil_append] at hB
      exact hbehind _ (hB ▸ List.mem_map_of_mem hg)

/-- What holds of the keys of leaders holds of those of their groups. -/
theorem Listed.forall_flat (h : Listed key rank live s G) {E : Groups} (hE : E.Subset G) {p : ℕ → Prop}
    (hp : ∀ g ∈ E, p (rank (key g.1))) : ∀ y ∈ flat E, p (rank (key y)) := by
  intro y hy
  obtain ⟨g, hg, hyg⟩ := mem_flat.1 hy
  rw [h.rank_leader (hE hg) hyg]
  exact hp g hg

/-- No node has a key if the node where the search ended has another one. -/
theorem Listed.absent (h : Listed key rank live s (A ++ (z, ds) :: B)) (hA : ∀ g ∈ A, rank (key g.1) < rank k)
    (hB : ∀ g ∈ B, rank k < rank (key g.1)) (hne : rank k ≠ rank (key z)) :
    ∀ y ∈ flat (A ++ (z, ds) :: B), rank (key y) ≠ rank k := by
  refine h.forall_flat (p := fun i => i ≠ rank k) (List.Subset.refl _) fun g hg => ?_
  rw [List.mem_append, List.mem_cons] at hg
  rcases hg with hg | rfl | hg
  · exact (hA g hg).ne
  · exact hne.symm
  · exact (hB g hg).ne'

theorem length_leaders_le (G : Groups) : (G.map Prod.fst).length ≤ (flat G).length := by
  induction G with
  | nil => exact Nat.le_refl 0
  | cons g G ih =>
    rw [List.map_cons, List.length_cons, flat_cons, List.length_cons, List.length_append]
    omega

theorem Rep.root_eq_none_iff (h : Rep key rank live s G) : s.root = none ↔ G = [] := by
  obtain ⟨t, ht, -, hlist⟩ := h.tree
  have hroot : s.root = t.top := Owns.root ht
  rw [hroot, ← BinTree.eq_leaf_iff, ← BinTree.toList_eq_nil_iff, hlist, List.map_eq_nil_iff]

/-- A search ends at a leader, and tells the place of a key among the groups; the number of its steps is logarithmic. -/
theorem Rep.search (hcomp : Compares comp rank) (h : Rep key rank live s G) (hroot : s.root = some x)
    (hfuel : (flat G).length + 1 < Nat.fib (fuel + 3)) (k : K) : ∃ A z ds B C l b r,
    G = A ++ (z, ds) :: B ∧ Avl.avl_find_rec comp s k fuel x = some z ∧ Stands s (plug C (.node l z b r)) ∧
      (plug C (.node l z b r)).Balanced ∧ (plug C (.node l z b r)).toList = G.map Prod.fst ∧
      (∀ g ∈ A, rank (key g.1) < rank k) ∧ (∀ g ∈ B, rank k < rank (key g.1)) ∧
      (rank k = rank (key z) ∨ rank k < rank (key z) ∧ l = .leaf ∨ rank (key z) < rank k ∧ r = .leaf) := by
  obtain ⟨t, ht, hbalanced, hlist⟩ := h.tree
  have htop : t.top = some x := (Owns.root ht).symm.trans hroot
  have hheight : t.height ≤ fuel := by
    have hfib := hbalanced.fib_le
    have hle := length_leaders_le G
    rw [hlist] at hfib
    by_contra hlt
    have hmono : Nat.fib (fuel + 3) ≤ Nat.fib (t.height + 2) := Nat.fib_mono (by omega)
    omega
  obtain ⟨C, l, z, b, r, hfind, hplug, hbefore, hbehind, hcases⟩ :=
    Within.avl_find_rec (k := k) hcomp (fun y hy n hn => by
      obtain ⟨n', hn', hkey⟩ := h.blocks y (h.allLive y (leaders_subset G (hlist ▸ hy)))
      obtain rfl := Option.some_inj.1 (hn.symm.trans hn')
      exact hkey) ht htop hheight (hlist ▸ h.pairwise) (by simp [before]) (by simp [behind])
  have hplug' : plug C (.node l z b r) = t := hplug
  have hsplit : G.map Prod.fst = (before C ++ l.toList) ++ z :: (r.toList ++ behind C) := by
    rw [← hlist, ← hplug', toList_plug, BinTree.toList]
    simp
  obtain ⟨A, ds, B, rfl, hA, hB⟩ := exists_group hsplit
  obtain ⟨hAk, hBk⟩ := h.place hA hB hbefore hbehind hcases
  exact ⟨A, z, ds, B, C, l, b, r, rfl, hfind, hplug' ▸ ht, hplug' ▸ hbalanced, hplug' ▸ hlist, hAk, hBk, hcases⟩

/-- The nodes behind a leader that have its key. -/
theorem lastDuplicate_eq {P Q : List Ptr} (h : Thread s (P ++ x :: (ds ++ Q)))
    (hds : ∀ y ∈ ds, ∀ n, s.nodes y = some n → n.leader = false)
    (hQ : ∀ y, Q.head? = some y → ∀ n, s.nodes y = some n → n.leader = true) (hfuel : ds.length < fuel) :
    ∃ ds' last, x :: ds = ds' ++ [last] ∧ s.lastDuplicate fuel x = some last := by
  induction ds generalizing P x fuel with
  | nil =>
    cases fuel with
    | zero => simp at hfuel
    | succ fuel =>
      obtain ⟨n, hn, hnext, -⟩ := h.link x (by simp)
      have hx : x ∉ P := by
        have hnodup := h.nodup
        rw [List.nodup_middle, List.nodup_cons, List.mem_append, not_or] at hnodup
        exact hnodup.1.1
      rw [nextIn_append hx, List.nil_append] at hnext
      refine ⟨[], x, rfl, ?_⟩
      rw [lastDuplicate, Fault.bind_of_some hn, hnext]
      cases hhead : Q.head? with
      | none => rfl
      | some y =>
        obtain ⟨m, hm⟩ := h.exists_node (x := y) (by simp [List.mem_of_head? hhead])
        dsimp only
        rw [Fault.bind_of_some hm, if_pos (hQ y hhead m hm)]
        rfl
  | cons d ds ih =>
    cases fuel with
    | zero => simp at hfuel
    | succ fuel =>
      obtain ⟨n, hn, hnext, -⟩ := h.link x (by simp)
      have hx : x ∉ P := by
        have hnodup := h.nodup
        rw [List.nodup_middle, List.nodup_cons, List.mem_append, not_or] at hnodup
        exact hnodup.1.1
      rw [nextIn_append hx, List.cons_append, List.head?_cons] at hnext
      obtain ⟨m, hm⟩ := h.exists_node (x := d) (by simp)
      have hlist : P ++ x :: (d :: ds ++ Q) = (P ++ [x]) ++ d :: (ds ++ Q) := by simp
      obtain ⟨ds', last, heq, hrun⟩ := ih (hlist ▸ h) (fun y hy => hds y (List.mem_cons_of_mem _ hy))
        (by simpa using hfuel : ds.length < fuel)
      refine ⟨x :: ds', last, by rw [heq]; rfl, ?_⟩
      rw [lastDuplicate, Fault.bind_of_some hn, hnext]
      dsimp only
      rw [Fault.bind_of_some hm, if_neg (by simp [hds d List.mem_cons_self m hm])]
      exact hrun

end Avl

end MpOlsr
