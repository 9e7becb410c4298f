import Mathlib.Algebra.Order.Group.Multiset
import Mathlib.Data.Multiset.UnionInter
import Mathlib.Tactic.Abel
import MpOlsr.Lib.Fault
import MpOlsr.Olsr.Avl

/-!
# AVL trees in memory

A tree is in memory if the blocks of its nodes contain their parents, their children and their balances (`cells`).  The
cells of a tree are those of the frames around a place, and those of the tree that is there.  `Avl.Owns` says that some
cells are in memory, that nothing but the cells and the root changed since an earlier state, and that the list did not
change at all.  A rotation in memory is one of trees (`Avl.Within.rotate`).
-/

namespace MpOlsr

open AvlTree

/-- What a block says about the tree. -/
@[ext]
structure AvlLinks where
  parent : Option Ptr
  left : Option Ptr
  right : Option Ptr
  balance : ℤ

namespace AvlNode

variable {K : Type} (n : AvlNode K)

def links : AvlLinks := ⟨n.parent, n.left, n.right, n.balance⟩

/-- What a block says about other things. -/
def rest : Option Ptr × Option Ptr × K × Bool := (n.next, n.prev, n.key, n.leader)

end AvlNode

namespace AvlLinks

/-- The links of a node with the child `c` on a side and `d` on the other one. -/
def of (parent : Option Ptr) (side : Side) (c d : Option Ptr) (balance : ℤ) : AvlLinks :=
  match side with
  | .left => ⟨parent, c, d, balance⟩
  | .right => ⟨parent, d, c, balance⟩

variable {K : Type} {n : AvlNode K} {parent c d e : Option Ptr} {side : Side} {b : ℤ}

theorem parent_of (h : n.links = of parent side c d b) : n.parent = parent := by
  have hparent : n.links.parent = n.parent := rfl
  rw [← hparent, h]
  cases side <;> rfl

theorem balance_of (h : n.links = of parent side c d b) : n.balance = b := by
  have hbalance : n.links.balance = n.balance := rfl
  rw [← hbalance, h]
  cases side <;> rfl

theorem child_of (h : n.links = of parent side c d b) : n.child side = c := by
  obtain ⟨p, l, r, _, _, _, _, _⟩ := n
  cases side <;> simp_all [of, AvlNode.links, AvlNode.child]

theorem other_of (h : n.links = of parent side c d b) : n.child side.other = d := by
  obtain ⟨p, l, r, _, _, _, _, _⟩ := n
  cases side <;> simp_all [of, AvlNode.links, AvlNode.child, Side.other]

theorem setParent_of (h : n.links = of parent side c d b) (p : Option Ptr) :
    ({ n with parent := p } : AvlNode K).links = of p side c d b := by
  obtain ⟨p, l, r, _, _, _, _, _⟩ := n
  cases side <;> simp_all [of, AvlNode.links]

theorem setParent (h : n.links = ⟨parent, c, d, b⟩) (p : Option Ptr) :
    ({ n with parent := p } : AvlNode K).links = ⟨p, c, d, b⟩ :=
  setParent_of (show n.links = of parent .left c d b from h) p

theorem setBalance_of (h : n.links = of parent side c d b) (b' : ℤ) :
    ({ n with balance := b' } : AvlNode K).links = of parent side c d b' := by
  obtain ⟨p, l, r, _, _, _, _, _⟩ := n
  cases side <;> simp_all [of, AvlNode.links]

theorem setChild_of (h : n.links = of parent side c d b) (e : Option Ptr) :
    (n.setChild side e).links = of parent side e d b := by
  obtain ⟨p, l, r, _, _, _, _, _⟩ := n
  cases side <;> simp_all [of, AvlNode.links, AvlNode.setChild]

theorem setOther_of (h : n.links = of parent side c d b) (e : Option Ptr) :
    (n.setChild side.other e).links = of parent side c e b := by
  obtain ⟨p, l, r, _, _, _, _, _⟩ := n
  cases side <;> simp_all [of, AvlNode.links, AvlNode.setChild, Side.other]

/-- On which side a child is, unless it is on both. -/
theorem left_iff {node : Ptr} (h : n.links = of parent side (some node) d b) (hd : d ≠ some node) :
    n.left = some node ↔ side = .left := by
  cases side with
  | left => exact iff_of_true (child_of h) rfl
  | right =>
    have hleft : n.left = d := other_of h
    rw [hleft]
    exact iff_of_false hd (by decide)

end AvlLinks

@[simp] theorem AvlNode.rest_setChild {K : Type} (n : AvlNode K) (side : Side) (c : Option Ptr) :
    (n.setChild side c).rest = n.rest := by
  cases side <;> rfl

namespace Avl

/-! ### Cells -/

/-- The blocks of a tree below a parent. -/
def cells : Option Ptr → BinTree Ptr → Multiset (Ptr × AvlLinks)
  | _, .leaf => 0
  | parent, .node l x b r => {(x, ⟨parent, l.top, r.top, b⟩)} + (cells (some x) l + cells (some x) r)

/-- The parent of a place. -/
def above (C : List (Frame Ptr)) : Option Ptr := C.head?.map Frame.x

@[simp] theorem above_cons (f : Frame Ptr) (C : List (Frame Ptr)) : above (f :: C) = some f.x := rfl

/-- The blocks of the nodes around a place, if a tree with this top is there. -/
def around : List (Frame Ptr) → Option Ptr → Multiset (Ptr × AvlLinks)
  | [], _ => 0
  | f :: C, top => {(f.x, .of (above C) f.side top f.sibling.top f.balance)} +
      (cells (some f.x) f.sibling + around C (some f.x))

/-- The root of a tree with this top at a place. -/
def rootOf : List (Frame Ptr) → Option Ptr → Option Ptr
  | [], top => top
  | f :: C, _ => rootOf C (some f.x)

theorem cells_graft (parent : Option Ptr) (side : Side) (c : BinTree Ptr) (x : Ptr) (b : ℤ) (d : BinTree Ptr) :
    cells parent (BinTree.graft side c x b d) =
      {(x, .of parent side c.top d.top b)} + (cells (some x) c + cells (some x) d) := by
  cases side
  · rfl
  · rw [BinTree.graft, cells, AvlLinks.of, add_comm (cells (some x) c)]

theorem top_plug (C : List (Frame Ptr)) (t : BinTree Ptr) : (plug C t).top = rootOf C t.top := by
  induction C generalizing t with
  | nil => rfl
  | cons f C ih => rw [plug, ih, rootOf, Frame.attach, BinTree.top_graft]

theorem cells_plug (C : List (Frame Ptr)) (t : BinTree Ptr) :
    cells none (plug C t) = around C t.top + cells (above C) t := by
  induction C generalizing t with
  | nil => rw [plug, around, zero_add, above, List.head?_nil, Option.map_none]
  | cons f C ih =>
    rw [plug, ih, Frame.attach, BinTree.top_graft, cells_graft, around, above_cons]
    abel

theorem map_cells (parent : Option Ptr) (t : BinTree Ptr) : (cells parent t).map Prod.fst = t.toList := by
  induction t generalizing parent with
  | leaf => rfl
  | node l x b r ihl ihr =>
    rw [cells, Multiset.map_add, Multiset.map_add, Multiset.map_singleton, ihl, ihr, BinTree.toList,
      ← Multiset.coe_add, ← Multiset.cons_coe, ← Multiset.singleton_add]
    abel

variable {K : Type}

/-- In `s`, the root and some cells are as given; the cells belong to nodes of `xs`, outside of which no block is other
than in `s₀`; and the list is that of `s₀`. -/
structure Owns (s₀ : Avl K) (xs : List Ptr) (s : Avl K) (root : Option Ptr) (m : Multiset (Ptr × AvlLinks)) :
    Prop where
  root : s.root = root
  nodup : (m.map Prod.fst).Nodup
  cell : ∀ c ∈ m, ∃ n, s.nodes c.1 = some n ∧ n.links = c.2
  mem : ∀ c ∈ m, c.1 ∈ xs
  frame : ∀ x ∉ xs, s.nodes x = s₀.nodes x
  rest : ∀ x, (s.nodes x).map AvlNode.rest = (s₀.nodes x).map AvlNode.rest
  first : s.first = s₀.first
  last : s.last = s₀.last
  count : s.count = s₀.count

namespace Owns

variable {s₀ s : Avl K} {xs : List Ptr} {root p : Option Ptr} {m m' : Multiset (Ptr × AvlLinks)} {x y : Ptr}
  {j k : AvlLinks} {C : List (Frame Ptr)} {t : BinTree Ptr}

theorem get (h : Owns s₀ xs s root ({(x, k)} + m)) : ∃ n, s.nodes x = some n ∧ n.links = k :=
  h.cell (x, k) (Multiset.mem_add.2 (Or.inl (Multiset.mem_singleton_self _)))

theorem notMem (h : Owns s₀ xs s root ({(x, k)} + m)) : x ∉ m.map Prod.fst := by
  have hnodup := h.nodup
  rw [Multiset.map_add, Multiset.map_singleton, Multiset.singleton_add, Multiset.nodup_cons] at hnodup
  exact hnodup.1

theorem drop (h : Owns s₀ xs s root (m + m')) : Owns s₀ xs s root m' :=
  ⟨h.root, (Multiset.nodup_add.1 (Multiset.map_add _ _ _ ▸ h.nodup)).2.1,
    fun c hc => h.cell c (Multiset.mem_add.2 (Or.inr hc)), fun c hc => h.mem c (Multiset.mem_add.2 (Or.inr hc)),
    h.frame, h.rest, h.first, h.last, h.count⟩

/-- The links of a block change. -/
theorem modify (h : Owns s₀ xs s root ({(x, k)} + m)) {f : AvlNode K → AvlNode K}
    (hlinks : ∀ n : AvlNode K, n.links = k → (f n).links = j) (hrest : ∀ n, (f n).rest = n.rest) :
    ∃ s', s.modify x f = some s' ∧ Owns s₀ xs s' root ({(x, j)} + m) := by
  obtain ⟨n, hn, hk⟩ := h.get
  have hx := h.notMem
  have hmem : x ∈ xs := h.mem (x, k) (Multiset.mem_add.2 (Or.inl (Multiset.mem_singleton_self _)))
  refine ⟨{ s with nodes := Function.update s.nodes x (some (f n)) }, by rw [Avl.modify, hn, Option.map_some], h.root,
    ?_, ?_, ?_, ?_, ?_, h.first, h.last, h.count⟩
  · have hnodup := h.nodup
    rw [Multiset.map_add, Multiset.map_singleton] at hnodup ⊢
    exact hnodup
  · intro c hc
    rcases Multiset.mem_add.1 hc with hc | hc
    · obtain rfl := Multiset.mem_singleton.1 hc
      exact ⟨f n, Function.update_self _ _ _, hlinks n hk⟩
    · have hne : c.1 ≠ x := fun heq => hx (heq ▸ Multiset.mem_map_of_mem _ hc)
      dsimp only
      rw [Function.update_of_ne hne]
      exact h.cell c (Multiset.mem_add.2 (Or.inr hc))
  · intro c hc
    rcases Multiset.mem_add.1 hc with hc | hc
    · obtain rfl := Multiset.mem_singleton.1 hc
      exact hmem
    · exact h.mem c (Multiset.mem_add.2 (Or.inr hc))
  · intro y hy
    dsimp only
    have hne : y ≠ x := fun heq => hy (heq ▸ hmem)
    rw [Function.update_of_ne hne]
    exact h.frame y hy
  · intro y
    by_cases hy : y = x
    · subst hy
      dsimp only
      rw [Function.update_self, Option.map_some, hrest, ← h.rest, hn, Option.map_some]
    · dsimp only
      rw [Function.update_of_ne hy]
      exact h.rest y

/-- A tree gets a parent. -/
theorem adopt (h : Owns s₀ xs s root (cells p t + m)) (parent : Option Ptr) :
    ∃ s', s.adopt t.top parent = some s' ∧ Owns s₀ xs s' root (cells parent t + m) := by
  cases t with
  | leaf => exact ⟨s, rfl, h⟩
  | node l x b r =>
    rw [cells, add_assoc] at h
    obtain ⟨s', hrun, hs'⟩ := h.modify (f := fun n => { n with parent := parent }) (j := ⟨parent, l.top, r.top, b⟩)
      (fun n hn => AvlLinks.setParent hn parent) fun _ => rfl
    refine ⟨s', hrun, ?_⟩
    rw [cells, add_assoc]
    exact hs'

/-- A node is on one side of its parent only. -/
theorem sibling_ne {z : Ptr} (h : Owns s₀ xs s root ({(x, k)} + (cells (some z) t + m)))
    (hy : y ∈ m.map Prod.fst) : t.top ≠ some y := by
  intro heq
  have hnodup := h.nodup
  rw [Multiset.map_add, Multiset.map_add, map_cells] at hnodup
  have hdisjoint := (Multiset.nodup_add.1 (Multiset.nodup_add.1 hnodup).2.1).2.2
  exact Multiset.disjoint_left.1 hdisjoint (Multiset.mem_coe.2 (BinTree.mem_of_top heq)) hy

/-- The pointer to the top at a place changes. -/
theorem relink (h : Owns s₀ xs s (rootOf C (some y)) (around C (some y) + m))
    (hy : y ∈ m.map Prod.fst) (new : Option Ptr) :
    ∃ s', s.relink (above C) y new = some s' ∧ Owns s₀ xs s' (rootOf C new) (around C new + m) := by
  cases C with
  | nil =>
    refine ⟨{ s with root := new }, rfl, ?_⟩
    rw [around, zero_add] at h ⊢
    exact ⟨rfl, h.nodup, h.cell, h.mem, h.frame, h.rest, h.first, h.last, h.count⟩
  | cons f C =>
    rw [around, add_assoc, add_assoc] at h
    have hne : f.sibling.top ≠ some y := by
      refine h.sibling_ne ?_
      rw [Multiset.map_add]
      exact Multiset.mem_add.2 (Or.inr hy)
    have hlinks : ∀ n : AvlNode K, n.links = .of (above C) f.side (some y) f.sibling.top f.balance →
        (n.setChild (if n.left = some y then Side.left else Side.right) new).links =
          .of (above C) f.side new f.sibling.top f.balance := by
      intro n hn
      have hside : (if n.left = some y then Side.left else Side.right) = f.side := by
        have hiff := AvlLinks.left_iff hn hne
        cases hf : f.side with
        | left => rw [if_pos (hiff.2 hf)]
        | right => rw [if_neg (by simp [hiff, hf])]
      rw [hside]
      exact AvlLinks.setChild_of hn new
    obtain ⟨s', hrun, hs'⟩ := h.modify hlinks fun n => n.rest_setChild _ _
    refine ⟨s', hrun, ?_⟩
    rw [around, add_assoc, add_assoc]
    exact hs'

end Owns

/-- A tree is at a place in memory. -/
def Within (s₀ : Avl K) (xs : List Ptr) (s : Avl K) (C : List (Frame Ptr)) (t : BinTree Ptr) : Prop :=
  Owns s₀ xs s (rootOf C t.top) (around C t.top + cells (above C) t)

namespace Within

variable {s₀ s : Avl K} {xs : List Ptr} {C : List (Frame Ptr)} {f : Frame Ptr} {t : BinTree Ptr} {side : Side}
  {a b c : BinTree Ptr} {x y : Ptr} {up down : ℤ}

theorem iff_plug : Within s₀ xs s C t ↔ Owns s₀ xs s (plug C t).top (cells none (plug C t)) := by
  rw [Within, top_plug, cells_plug]

theorem cons_iff : Within s₀ xs s (f :: C) t ↔ Within s₀ xs s C (f.attach t) := by
  rw [iff_plug, iff_plug, plug]

/-- The block at the top of the tree, and the others. -/
theorem graft_iff : Within s₀ xs s C (BinTree.graft side a x down b) ↔ Owns s₀ xs s (rootOf C (some x))
    ({(x, .of (above C) side a.top b.top down)} + (around C (some x) + (cells (some x) a + cells (some x) b))) := by
  rw [Within, BinTree.top_graft, cells_graft, add_left_comm]

theorem rotate (h : Within s₀ xs s C (BinTree.graft side (BinTree.graft side a y up b) x down c)) :
    ∃ s', Avl.rotate side s x = some s' ∧ Within s₀ xs s' C (rotated side a y up b x down c) := by
  rw [graft_iff, BinTree.top_graft, cells_graft] at h
  obtain ⟨n, hn, hlinks⟩ := h.get
  rw [Avl.rotate, Fault.bind_of_some hn, AvlLinks.child_of hlinks, Fault.bind_of_some rfl, AvlLinks.parent_of hlinks]
  -- `y` gets the parent of `x`, and `x` the parent `y`
  obtain ⟨s₁, hrun₁, h₁⟩ := Owns.modify (x := y) (m := {(x, .of (above C) side (some y) c.top down)} +
      (around C (some x) + (cells (some y) a + (cells (some y) b + cells (some x) c))))
    (by convert h using 1; abel) (f := fun c => { c with parent := above C })
    (fun m hm => AvlLinks.setParent_of hm _) fun _ => rfl
  obtain ⟨s₂, hrun₂, h₂⟩ := Owns.modify (x := x) (m := {(y, .of (above C) side a.top b.top up)} +
      (around C (some x) + (cells (some y) a + (cells (some y) b + cells (some x) c))))
    (by convert h₁ using 1; abel) (f := fun n => { n with parent := some y })
    (fun m hm => AvlLinks.setParent_of hm _) fun _ => rfl
  obtain ⟨s₃, hrun₃, h₃⟩ := Owns.relink (C := C) (y := x) (m := {(x, .of (some y) side (some y) c.top down)} +
      ({(y, .of (above C) side a.top b.top up)} + (cells (some y) a + (cells (some y) b + cells (some x) c))))
    (by convert h₂ using 1; abel) (by simp) (some y)
  obtain ⟨m, hm, hmlinks⟩ := Owns.get (x := y) (k := .of (above C) side a.top b.top up)
    (m := around C (some y) + ({(x, .of (some y) side (some y) c.top down)} +
      (cells (some y) a + (cells (some y) b + cells (some x) c)))) (by convert h₃ using 1; abel)
  rw [Fault.bind_of_some hrun₁, Fault.bind_of_some hrun₂, Fault.bind_of_some hrun₃, Fault.bind_of_some hm,
    AvlLinks.other_of hmlinks, AvlLinks.balance_of hmlinks]
  -- the inner tree goes over
  obtain ⟨s₄, hrun₄, h₄⟩ := Owns.modify (x := x) (m := {(y, .of (above C) side a.top b.top up)} +
      (around C (some y) + (cells (some y) a + (cells (some y) b + cells (some x) c))))
    (by convert h₃ using 1; abel) (f := fun n => n.setChild side b.top)
    (fun m hm => AvlLinks.setChild_of hm _) fun n => n.rest_setChild _ _
  obtain ⟨s₅, hrun₅, h₅⟩ := Owns.modify (x := y) (m := {(x, .of (some y) side b.top c.top down)} +
      (around C (some y) + (cells (some y) a + (cells (some y) b + cells (some x) c))))
    (by convert h₄ using 1; abel) (f := fun n => n.setChild side.other (some x))
    (fun m hm => AvlLinks.setOther_of hm _) fun n => n.rest_setChild _ _
  obtain ⟨s₆, hrun₆, h₆⟩ := Owns.adopt (t := b) (p := some y)
    (m := {(y, .of (above C) side a.top (some x) up)} + ({(x, .of (some y) side b.top c.top down)} +
      (around C (some y) + (cells (some y) a + cells (some x) c)))) (by convert h₅ using 1; abel) (some x)
  -- the balances
  obtain ⟨s₇, hrun₇, h₇⟩ := Owns.modify (x := x) (m := {(y, .of (above C) side a.top (some x) up)} +
      (around C (some y) + (cells (some y) a + (cells (some x) b + cells (some x) c))))
    (by convert h₆ using 1; abel) (f := fun n => { n with balance := lowered side n.balance up })
    (j := .of (some y) side b.top c.top (lowered side down up))
    (fun m hm => by
      rw [AvlLinks.balance_of hm]
      exact AvlLinks.setBalance_of hm _) fun _ => rfl
  obtain ⟨n', hn', hlinks'⟩ := h₇.get
  obtain ⟨s₈, hrun₈, h₈⟩ := Owns.modify (x := y) (m := {(x, .of (some y) side b.top c.top (lowered side down up))} +
      (around C (some y) + (cells (some y) a + (cells (some x) b + cells (some x) c))))
    (by convert h₇ using 1; abel)
    (f := fun c => { c with balance := raised side c.balance (lowered side down up) })
    (j := .of (above C) side a.top (some x) (raised side up (lowered side down up)))
    (fun m hm => by
      rw [AvlLinks.balance_of hm]
      exact AvlLinks.setBalance_of hm _) fun _ => rfl
  refine ⟨s₈, ?_, ?_⟩
  · rw [Fault.bind_of_some hrun₄, Fault.bind_of_some hrun₅, Fault.bind_of_some hrun₆, Fault.bind_of_some hrun₇,
      Fault.bind_of_some hn', AvlLinks.balance_of hlinks']
    exact hrun₈
  · rw [rotated, graft_iff, BinTree.top_graft, cells_graft]
    convert h₈ using 1
    abel

end Within

end Avl

end MpOlsr
