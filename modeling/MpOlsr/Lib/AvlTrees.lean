import Mathlib.Data.Nat.Fib.Basic
import Mathlib.Algebra.Order.Group.Int

/-!
# Balanced trees

Binary trees whose nodes store their balance: the height on the right less the height on the left.  A tree is balanced
if the balances are right and at most one.  The two sides of a node play the same part, so that a node is described by
what is on a `Side` of it and what is on the other one (`graft`).

A place in a tree is given by the frames around it, the innermost first; the tree below can be exchanged for another one
with the same height (`balanced_plug`).  A rotation keeps the order of the nodes and the right balances.
-/

namespace AvlTree

inductive Side where
  | left
  | right
deriving DecidableEq

namespace Side

def other : Side → Side
  | left => right
  | right => left

/-- The balance of a node that is higher on this side. -/
def sign : Side → ℤ
  | left => -1
  | right => 1

@[simp] theorem other_other (side : Side) : side.other.other = side := by cases side <;> rfl

@[simp] theorem sign_other (side : Side) : side.other.sign = -side.sign := by cases side <;> rfl

theorem sign_cases (side : Side) : side.sign = -1 ∨ side.sign = 1 := by
  cases side
  · exact Or.inl rfl
  · exact Or.inr rfl

end Side

inductive BinTree (α : Type) where
  | leaf
  | node (l : BinTree α) (x : α) (balance : ℤ) (r : BinTree α)

namespace BinTree

variable {α : Type}

def top : BinTree α → Option α
  | leaf => none
  | node _ x _ _ => some x

def height : BinTree α → ℕ
  | leaf => 0
  | node l _ _ r => 1 + max l.height r.height

/-- The nodes from left to right. -/
def toList : BinTree α → List α
  | leaf => []
  | node l x _ r => l.toList ++ x :: r.toList

/-- The stored balances are right, and at most one. -/
def Balanced : BinTree α → Prop
  | leaf => True
  | node l _ balance r => balance = r.height - l.height ∧ -1 ≤ balance ∧ balance ≤ 1 ∧ l.Balanced ∧ r.Balanced

/-- A node with the tree `c` on the side and `d` on the other one. -/
def graft (side : Side) (c : BinTree α) (x : α) (balance : ℤ) (d : BinTree α) : BinTree α :=
  match side with
  | .left => node c x balance d
  | .right => node d x balance c

variable {side : Side} {c d t : BinTree α} {x y : α} {b : ℤ}

theorem graft_other : graft side.other c x b d = graft side d x b c := by cases side <;> rfl

@[simp] theorem top_graft : (graft side c x b d).top = some x := by cases side <;> rfl

@[simp] theorem height_graft : (graft side c x b d).height = 1 + max c.height d.height := by
  cases side
  · rfl
  · rw [graft, height, max_comm]

theorem balanced_graft : (graft side c x b d).Balanced ↔
    b = side.sign * (c.height - d.height) ∧ -1 ≤ b ∧ b ≤ 1 ∧ c.Balanced ∧ d.Balanced := by
  cases side
  · rw [graft, Balanced, Side.sign]
    have hsame : ((d.height : ℤ) - c.height) = -1 * (c.height - d.height) := by omega
    rw [hsame]
  · rw [graft, Balanced, Side.sign, one_mul, and_comm (a := d.Balanced)]

/-- What is on the sides of a node, seen from one of them. -/
theorem exists_graft (side : Side) (l : BinTree α) (x : α) (b : ℤ) (r : BinTree α) :
    ∃ c d, node l x b r = graft side c x b d := by
  cases side
  · exact ⟨l, r, rfl⟩
  · exact ⟨r, l, rfl⟩

theorem eq_leaf_iff : t = leaf ↔ t.top = none := by
  cases t <;> simp [top]

theorem toList_eq_nil_iff : t.toList = [] ↔ t = leaf := by
  cases t <;> simp [toList]

theorem mem_of_top (h : t.top = some x) : x ∈ t.toList := by
  cases t with
  | leaf => cases h
  | node l y b r =>
    obtain rfl := Option.some_inj.1 h
    simp [toList]

theorem height_le_length (t : BinTree α) : t.height ≤ t.toList.length := by
  induction t with
  | leaf => exact Nat.le_refl 0
  | node l x b r ihl ihr =>
    rw [height, toList, List.length_append, List.length_cons]
    omega

/-- A balanced tree of height `n` has at least `fib (n + 2) - 1` nodes. -/
theorem Balanced.fib_le (h : t.Balanced) : Nat.fib (t.height + 2) ≤ t.toList.length + 1 := by
  induction t with
  | leaf => simp [height, toList]
  | node l x b r ihl ihr =>
    obtain ⟨hb, hlow, hup, hl, hr⟩ := h
    have hfib : ∀ m n : ℕ, m ≤ n + 1 → n ≤ m + 1 →
        Nat.fib (1 + max m n + 2) ≤ Nat.fib (m + 2) + Nat.fib (n + 2) := by
      intro m n hmn hnm
      rcases Nat.le_total m n with hle | hle
      · rw [Nat.max_eq_right hle, Nat.add_comm 1 n, Nat.fib_add_two (n := n + 1)]
        exact Nat.add_le_add_right (Nat.fib_mono (by omega)) _
      · rw [Nat.max_eq_left hle, Nat.add_comm 1 m, Nat.fib_add_two (n := m + 1), Nat.add_comm]
        exact Nat.add_le_add_left (Nat.fib_mono (by omega)) _
    have hle := hfib l.height r.height (by omega) (by omega)
    have ihl := ihl hl
    have ihr := ihr hr
    rw [height, toList, List.length_append, List.length_cons]
    omega

end BinTree

/-! ### Orders of three parts -/

section Around

variable {α : Type} {side : Side}

/-- The lists on the two sides of an element. -/
def around (side : Side) (xs : List α) (x : α) (ys : List α) : List α :=
  match side with
  | .left => xs ++ x :: ys
  | .right => ys ++ x :: xs

theorem around_assoc (A B C : List α) (x y : α) :
    around side (around side A x B) y C = around side A x (around side B y C) := by
  cases side <;> simp [around]

theorem BinTree.toList_graft (c d : BinTree α) (x : α) (b : ℤ) :
    (BinTree.graft side c x b d).toList = around side c.toList x d.toList := by
  cases side <;> rfl

end Around

/-! ### Places -/

/-- A node above a place, with what is on its other side. -/
structure Frame (α : Type) where
  side : Side
  x : α
  balance : ℤ
  sibling : BinTree α

section Places

variable {α : Type}

/-- The node with a tree at the place. -/
def Frame.attach (f : Frame α) (t : BinTree α) : BinTree α := BinTree.graft f.side t f.x f.balance f.sibling

def plug : List (Frame α) → BinTree α → BinTree α
  | [], t => t
  | f :: C, t => plug C (f.attach t)

/-- The frames are those of a balanced tree, if a balanced tree of height `k` is at the place. -/
def Fits : List (Frame α) → ℕ → Prop
  | [], _ => True
  | f :: C, k => f.balance = f.side.sign * (k - f.sibling.height) ∧ -1 ≤ f.balance ∧ f.balance ≤ 1 ∧
      f.sibling.Balanced ∧ Fits C (1 + max k f.sibling.height)

/-- The nodes to the left of the place. -/
def before : List (Frame α) → List α
  | [] => []
  | f :: C => before C ++ match f.side with
    | .left => []
    | .right => f.sibling.toList ++ [f.x]

/-- The nodes to the right of the place. -/
def behind : List (Frame α) → List α
  | [] => []
  | f :: C => (match f.side with
    | .left => f.x :: f.sibling.toList
    | .right => []) ++ behind C

variable {C : List (Frame α)} {f : Frame α} {t : BinTree α} {x : α}

theorem toList_plug (C : List (Frame α)) (t : BinTree α) : (plug C t).toList = before C ++ t.toList ++ behind C := by
  induction C generalizing t with
  | nil => simp [plug, before, behind]
  | cons f C ih =>
    obtain ⟨side, x, b, sibling⟩ := f
    rw [plug, ih, Frame.attach, BinTree.toList_graft, before, behind]
    cases side <;> simp [around]

theorem balanced_plug : (plug C t).Balanced ↔ t.Balanced ∧ Fits C t.height := by
  induction C generalizing t with
  | nil => simp [plug, Fits]
  | cons f C ih =>
    rw [plug, ih, Frame.attach, BinTree.balanced_graft, BinTree.height_graft, Fits]
    constructor
    · rintro ⟨⟨hb, hlow, hup, ht, hsibling⟩, hC⟩
      exact ⟨ht, hb, hlow, hup, hsibling, hC⟩
    · rintro ⟨ht, hb, hlow, hup, hsibling, hC⟩
      exact ⟨⟨hb, hlow, hup, ht, hsibling⟩, hC⟩

theorem length_frames_le (C : List (Frame α)) : C.length ≤ (before C).length + (behind C).length := by
  induction C with
  | nil => exact Nat.le_refl 0
  | cons f C ih =>
    obtain ⟨side, x, b, sibling⟩ := f
    cases side <;> simp only [before, behind, List.length_append, List.length_cons, List.length_nil] <;> omega

/-- Every node of a tree has a place. -/
theorem exists_plug (h : x ∈ t.toList) : ∃ C l b r, t = plug C (BinTree.node l x b r) := by
  have hplace : ∀ C : List (Frame α), ∃ C' l b r, plug C t = plug C' (BinTree.node l x b r) := by
    induction t with
    | leaf => simp [BinTree.toList] at h
    | node l y b r ihl ihr =>
      intro C
      rw [BinTree.toList, List.mem_append, List.mem_cons] at h
      rcases h with hl | rfl | hr
      · exact ihl hl (⟨.left, y, b, r⟩ :: C)
      · exact ⟨C, l, b, r, rfl⟩
      · exact ihr hr (⟨.right, y, b, l⟩ :: C)
  exact hplace []

end Places

/-! ### Rotations -/

section Rotations

variable {α : Type} {side : Side}

/-- The balance of the node that goes down, from its balance and that of the node that goes up. -/
def lowered (side : Side) (down up : ℤ) : ℤ :=
  match side with
  | .left => down + (1 - min up 0)
  | .right => down - (1 + max up 0)

/-- The balance of the node that goes up, from its balance and the new one of the node that goes down. -/
def raised (side : Side) (up down : ℤ) : ℤ :=
  match side with
  | .left => up + (1 + max down 0)
  | .right => up - (1 - min down 0)

/-- The rotation of `graft side (graft side a y up b) x down c`. -/
def rotated (side : Side) (a : BinTree α) (y : α) (up : ℤ) (b : BinTree α) (x : α) (down : ℤ) (c : BinTree α) : BinTree α :=
  BinTree.graft side a y (raised side up (lowered side down up)) (BinTree.graft side b x (lowered side down up) c)

theorem toList_rotated (a : BinTree α) (y : α) (up : ℤ) (b : BinTree α) (x : α) (down : ℤ) (c : BinTree α) :
    (rotated side a y up b x down c).toList = (BinTree.graft side (BinTree.graft side a y up b) x down c).toList := by
  rw [rotated, BinTree.toList_graft, BinTree.toList_graft, BinTree.toList_graft, BinTree.toList_graft, around_assoc]

/-- If the balances before a rotation are the differences of heights, those after it are, too. -/
theorem lowered_eq (side : Side) (a b c : ℕ) :
    lowered side (side.sign * ((1 + max a b : ℕ) - c)) (side.sign * (a - b)) = side.sign * (b - c) := by
  cases side
  · rw [lowered, Side.sign]
    omega
  · rw [lowered, Side.sign]
    omega

theorem raised_eq (side : Side) (a b c : ℕ) :
    raised side (side.sign * (a - b)) (side.sign * (b - c)) = side.sign * (a - (1 + max b c : ℕ)) := by
  cases side
  · rw [raised, Side.sign]
    omega
  · rw [raised, Side.sign]
    omega

variable {a b c : BinTree α} {x y : α} {up : ℤ}

/-- A node whose one side is too high by one is rotated, if the outer tree of this side is not the lower one. -/
theorem balanced_rotated (hchild : (BinTree.graft side a y up b).Balanced) (hc : c.Balanced)
    (hheight : (BinTree.graft side a y up b).height = c.height + 2) (hup : up ≠ -side.sign) :
    (rotated side a y up b x (2 * side.sign) c).Balanced ∧
      (rotated side a y up b x (2 * side.sign) c).height = if up = 0 then c.height + 3 else c.height + 2 := by
  obtain ⟨hbalance, hlow, hhigh, ha, hb⟩ := BinTree.balanced_graft.1 hchild
  rw [BinTree.height_graft] at hheight
  have hdown : 2 * side.sign = side.sign * ((1 + max a.height b.height : ℕ) - c.height) := by
    rcases side.sign_cases with h | h <;> rw [h] <;> omega
  rw [rotated, hdown, hbalance, lowered_eq, raised_eq]
  have hzero : side.sign * ((a.height : ℤ) - b.height) = 0 ↔ a.height = b.height := by
    rcases side.sign_cases with h | h <;> rw [h] <;> omega
  have hheights : b.height ≤ a.height ∧ a.height ≤ b.height + 1 := by
    rcases side.sign_cases with h | h <;> rw [h] at hbalance hup <;> omega
  constructor
  · rw [BinTree.balanced_graft, BinTree.balanced_graft, BinTree.height_graft]
    refine ⟨rfl, ?_, ?_, ha, rfl, ?_, ?_, hb, hc⟩ <;> rcases side.sign_cases with h | h <;> rw [h] <;> omega
  · rw [BinTree.height_graft, BinTree.height_graft]
    split <;> rename_i heq <;> rw [hzero] at heq <;> omega

/-- Otherwise the inner tree of this side is rotated out first. -/
theorem balanced_rotated_twice (hchild : (BinTree.graft side a y (-side.sign) b).Balanced) (hc : c.Balanced)
    (hheight : (BinTree.graft side a y (-side.sign) b).height = c.height + 2) : ∃ b₁ z mid b₂,
    b = BinTree.graft side b₁ z mid b₂ ∧ ∃ first second,
      rotated side.other b₂ z mid b₁ y (-side.sign) a = BinTree.graft side (BinTree.graft side a y first b₁) z second b₂ ∧
      (rotated side (BinTree.graft side a y first b₁) z second b₂ x (2 * side.sign) c).Balanced ∧
      (rotated side (BinTree.graft side a y first b₁) z second b₂ x (2 * side.sign) c).height = c.height + 2 := by
  obtain ⟨hbalance, -, -, ha, hb⟩ := BinTree.balanced_graft.1 hchild
  rw [BinTree.height_graft] at hheight
  have hheights : a.height = c.height ∧ b.height = c.height + 1 := by
    rcases side.sign_cases with h | h <;> rw [h] at hbalance <;> omega
  cases b with
  | leaf => simp [BinTree.height] at hheights
  | node l z mid r =>
    obtain ⟨b₁, b₂, hb'⟩ := BinTree.exists_graft side l z mid r
    rw [hb'] at hb hheights hbalance ⊢
    obtain ⟨hmid, hlow, hhigh, hb₁, hb₂⟩ := BinTree.balanced_graft.1 hb
    rw [BinTree.height_graft] at hheights hbalance
    refine ⟨b₁, z, mid, b₂, rfl, side.sign * (a.height - b₁.height),
      side.sign * ((1 + max a.height b₁.height : ℕ) - b₂.height), ?_, ?_⟩
    · -- the balances of the first rotation
      have hmid' : mid = side.other.sign * (b₂.height - b₁.height) := by
        rw [hmid, Side.sign_other]
        rcases side.sign_cases with h | h <;> rw [h] <;> omega
      have hdown : -side.sign = side.other.sign * ((1 + max b₂.height b₁.height : ℕ) - a.height) := by
        rw [Side.sign_other]
        rcases side.sign_cases with h | h <;> rw [h] <;> omega
      have hneg : ∀ m n : ℤ, side.other.sign * (m - n) = side.sign * (n - m) := by
        intro m n
        rw [Side.sign_other]
        rcases side.sign_cases with h | h <;> rw [h] <;> omega
      rw [rotated, hdown, hmid', lowered_eq, raised_eq, BinTree.graft_other, BinTree.graft_other, hneg, hneg,
        max_comm b₁.height]
    · have hdown : 2 * side.sign =
          side.sign * ((1 + max (1 + max a.height b₁.height) b₂.height : ℕ) - c.height) := by
        rcases side.sign_cases with h | h <;> rw [h] at hmid ⊢ <;> omega
      rw [rotated, hdown, lowered_eq, raised_eq]
      constructor
      · rw [BinTree.balanced_graft, BinTree.balanced_graft, BinTree.balanced_graft, BinTree.height_graft, BinTree.height_graft]
        refine ⟨rfl, ?_, ?_, ⟨rfl, ?_, ?_, ha, hb₁⟩, rfl, ?_, ?_, hb₂, hc⟩ <;>
          rcases side.sign_cases with h | h <;> rw [h] at hmid ⊢ <;> omega
      · rw [BinTree.height_graft, BinTree.height_graft, BinTree.height_graft]
        rcases side.sign_cases with h | h <;> rw [h] at hmid <;> omega

end Rotations

end AvlTree
