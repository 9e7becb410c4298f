import MpOlsr.Lib.AvlTrees
import MpOlsr.Topology.Store

/-!
# AVL trees

`common/avl.c` of olsrd.  The nodes are blocks that belong to the caller.  They are on a search tree and on a list in the
order of their keys; of the nodes with the same key, only the first one, the leader, is on the tree.  An access to a block
that is not allocated, or through a null pointer, is a fault (`none`); the fuel bounds the steps of loops and recursions.
The comparison of a tree is a parameter.  The code for the two sides of a node is one definition with the side as a
parameter.
-/

namespace MpOlsr

open AvlTree

/-- `struct avl_node` -/
structure AvlNode (K : Type) where
  parent : Option Ptr
  left : Option Ptr
  right : Option Ptr
  next : Option Ptr
  prev : Option Ptr
  key : K
  balance : ℤ
  leader : Bool

namespace AvlNode

variable {K : Type}

def child (n : AvlNode K) : Side → Option Ptr
  | .left => n.left
  | .right => n.right

def setChild (n : AvlNode K) (side : Side) (c : Option Ptr) : AvlNode K :=
  match side with
  | .left => { n with left := c }
  | .right => { n with right := c }

end AvlNode

/-- `struct avl_tree`, and the blocks of the nodes. -/
structure Avl (K : Type) where
  nodes : Ptr → Option (AvlNode K)
  root : Option Ptr
  first : Option Ptr
  last : Option Ptr
  count : BitVec 32

namespace Avl

variable {K : Type}

def modify (s : Avl K) (x : Ptr) (f : AvlNode K → AvlNode K) : Option (Avl K) :=
  (s.nodes x).map fun n => { s with nodes := Function.update s.nodes x (some (f n)) }

def avl_init (s : Avl K) : Avl K :=
  { s with
    root := none
    first := none
    last := none
    count := 0 }

/-! ### Search -/

def avl_find_rec (comp : K → K → ℤ) (s : Avl K) (key : K) : ℕ → Ptr → Option Ptr
  | 0, _ => none
  | fuel + 1, node => do
    let n ← s.nodes node
    let diff := comp key n.key
    if diff < 0 then
      match n.left with
      | some left => avl_find_rec comp s key fuel left
      | none => return node
    else if 0 < diff then
      match n.right with
      | some right => avl_find_rec comp s key fuel right
      | none => return node
    else return node

def avl_find (comp : K → K → ℤ) (fuel : ℕ) (s : Avl K) (key : K) : Option (Option Ptr) :=
  match s.root with
  | none => some none
  | some root => do
    let node ← avl_find_rec comp s key fuel root
    let n ← s.nodes node
    return if comp n.key key ≠ 0 then none else some node

/-! ### Rotations -/

/-- The pointer to a node, in its parent or at the root, becomes another one. -/
def relink (s : Avl K) (parent : Option Ptr) (node : Ptr) (new : Option Ptr) : Option (Avl K) :=
  match parent with
  | none => some { s with root := new }
  | some parent => s.modify parent fun p => p.setChild (if p.left = some node then .left else .right) new

/-- A child, if there is one, gets a parent. -/
def adopt (s : Avl K) (child : Option Ptr) (parent : Option Ptr) : Option (Avl K) :=
  match child with
  | none => some s
  | some c => s.modify c fun n => { n with parent := parent }

/-- The child on the side goes up, and `node` goes down to the other side. -/
def rotate (side : Side) (s : Avl K) (node : Ptr) : Option (Avl K) := do
  let n ← s.nodes node
  let child ← n.child side
  let s ← s.modify child fun c => { c with parent := n.parent }
  let s ← s.modify node fun n => { n with parent := some child }
  let s ← s.relink n.parent node (some child)
  let c ← s.nodes child
  let s ← s.modify node fun n => n.setChild side (c.child side.other)
  let s ← s.modify child fun c => c.setChild side.other (some node)
  let s ← s.adopt (c.child side.other) (some node)
  let s ← s.modify node fun n => { n with balance := lowered side n.balance c.balance }
  let n ← s.nodes node
  s.modify child fun c => { c with balance := raised side c.balance n.balance }

def avl_rotate_right (s : Avl K) (node : Ptr) : Option (Avl K) := s.rotate .left node

def avl_rotate_left (s : Avl K) (node : Ptr) : Option (Avl K) := s.rotate .right node

/-- The rotation that lifts the child on the side. -/
def avl_rotate (side : Side) : Avl K → Ptr → Option (Avl K) :=
  match side with
  | .left => avl_rotate_right
  | .right => avl_rotate_left

/-! ### Insertion -/

/-- `post_insert`, if `node` is on the side of its parent. -/
def grown (side : Side) (post_insert : Avl K → Ptr → Option (Avl K)) (s : Avl K) (parent node : Ptr) :
    Option (Avl K) := do
  let s ← s.modify parent fun p => { p with balance := p.balance + side.sign }
  let p ← s.nodes parent
  if p.balance = 0 then return s
  else if p.balance = side.sign then post_insert s parent
  else do
    let n ← s.nodes node
    if n.balance = side.sign then avl_rotate side s parent
    else do
      let s ← avl_rotate side.other s node
      let n ← s.nodes node
      let z ← n.parent
      let z ← s.nodes z
      let parent ← z.parent
      avl_rotate side s parent

def post_insert : ℕ → Avl K → Ptr → Option (Avl K)
  | 0, _, _ => none
  | fuel + 1, s, node => do
    let n ← s.nodes node
    match n.parent with
    | none => return s
    | some parent => do
      let p ← s.nodes parent
      if p.left = some node then grown .left (post_insert fuel) s parent node
      else grown .right (post_insert fuel) s parent node

/-- A neighbour on the list, if there is one, changes. -/
def modifyOr (s : Avl K) (x : Option Ptr) (f : AvlNode K → AvlNode K) (otherwise : Avl K) : Option (Avl K) :=
  match x with
  | some x => s.modify x f
  | none => some otherwise

def avl_insert_before (s : Avl K) (pos_node node : Ptr) : Option (Avl K) := do
  let pos ← s.nodes pos_node
  let s ← s.modifyOr pos.prev (fun n => { n with next := some node }) { s with first := some node }
  let s ← s.modify node fun n => { n with prev := pos.prev, next := some pos_node }
  let s ← s.modify pos_node fun n => { n with prev := some node }
  return { s with count := s.count + 1 }

def avl_insert_after (s : Avl K) (pos_node node : Ptr) : Option (Avl K) := do
  let pos ← s.nodes pos_node
  let s ← s.modifyOr pos.next (fun n => { n with prev := some node }) { s with last := some node }
  let s ← s.modify node fun n => { n with prev := some pos_node, next := pos.next }
  let s ← s.modify pos_node fun n => { n with next := some node }
  return { s with count := s.count + 1 }

def avl_remove (s : Avl K) (node : Ptr) : Option (Avl K) := do
  let n ← s.nodes node
  let s ← s.modifyOr n.prev (fun p => { p with next := n.next }) { s with first := n.next }
  let s ← s.modifyOr n.next (fun p => { p with prev := n.prev }) { s with last := n.prev }
  return { s with count := s.count - 1 }

/-- The last node with the key of a leader. -/
def lastDuplicate (s : Avl K) : ℕ → Ptr → Option Ptr
  | 0, _ => none
  | fuel + 1, last => do
    let n ← s.nodes last
    match n.next with
    | none => return last
    | some next => do
      let x ← s.nodes next
      if x.leader then return last
      else lastDuplicate s fuel next

/-- Before a leader, or behind the last node with its key. -/
def avl_insert_beside (side : Side) (s : Avl K) (node last new : Ptr) : Option (Avl K) :=
  match side with
  | .left => s.avl_insert_before node new
  | .right => s.avl_insert_after last new

/-- The new node becomes a child of `node`. -/
def attach (side : Side) (balance : ℤ) (s : Avl K) (node last new : Ptr) : Option (Avl K) := do
  let s ← avl_insert_beside side s node last new
  let s ← s.modify node fun n => { n with balance := balance }
  let s ← s.modify new fun n => { n with parent := some node }
  s.modify node fun n => n.setChild side (some new)

def avl_insert (comp : K → K → ℤ) (fuel : ℕ) (s : Avl K) (new : Ptr) (allow_duplicates : Bool) :
    Option (Avl K × ℤ) := do
  let s ← s.modify new fun n => ⟨none, none, none, none, none, n.key, 0, true⟩
  match s.root with
  | none =>
    return ({ s with
      root := some new
      first := some new
      last := some new
      count := 1 }, 0)
  | some root => do
    let n ← s.nodes new
    let node ← avl_find_rec comp s n.key fuel root
    let last ← s.lastDuplicate fuel node
    let p ← s.nodes node
    let diff := comp n.key p.key
    if diff = 0 then
      if allow_duplicates then do
        let s ← s.modify new fun n => { n with leader := false }
        let s ← s.avl_insert_after last new
        return (s, 0)
      else return (s, -1)
    else if p.balance = 1 then do
      let s ← attach .left 0 s node last new
      return (s, 0)
    else if p.balance = -1 then do
      let s ← attach .right 0 s node last new
      return (s, 0)
    else if diff < 0 then do
      let s ← attach .left (-1) s node last new
      let s ← post_insert fuel s node
      return (s, 0)
    else do
      let s ← attach .right 1 s node last new
      let s ← post_insert fuel s node
      return (s, 0)

/-! ### Deletion -/

/-- `avl_post_delete`, if the tree on the side of `parent` got lower; `avl_delete_worker` has the same code, with the first
two tests in the other order. -/
def shrunk (side : Side) (post_delete : Avl K → Ptr → Option (Avl K)) (s : Avl K) (parent : Ptr) : Option (Avl K) := do
  let s ← s.modify parent fun p => { p with balance := p.balance - side.sign }
  let p ← s.nodes parent
  if p.balance = 0 then post_delete s parent
  else if p.balance = -side.sign then return s
  else do
    let sibling ← p.child side.other
    let b ← s.nodes sibling
    if b.balance = 0 then avl_rotate side.other s parent
    else do
      let s ← if b.balance = -side.sign then some s else avl_rotate side s sibling
      let s ← avl_rotate side.other s parent
      let p ← s.nodes parent
      let up ← p.parent
      post_delete s up

def avl_post_delete : ℕ → Avl K → Ptr → Option (Avl K)
  | 0, _, _ => none
  | fuel + 1, s, node => do
    let n ← s.nodes node
    match n.parent with
    | none => return s
    | some parent => do
      let p ← s.nodes parent
      if p.left = some node then shrunk .left (avl_post_delete fuel) s parent
      else shrunk .right (avl_post_delete fuel) s parent

def avl_local_min (s : Avl K) : ℕ → Ptr → Option Ptr
  | 0, _ => none
  | fuel + 1, node => do
    let n ← s.nodes node
    match n.left with
    | some left => avl_local_min s fuel left
    | none => return node

/-- The only child takes the place of a node. -/
def bypass (post_delete : Avl K → Ptr → Option (Avl K)) (s : Avl K) (parent : Option Ptr) (node child : Ptr) :
    Option (Avl K) := do
  let s ← s.adopt (some child) parent
  let s ← s.relink parent node (some child)
  match parent with
  | none => return s
  | some _ => post_delete s child

/-- A node takes the place of another one; `avl_delete` has the same code, with the pointer to the node first. -/
def replace (s : Avl K) (node new : Ptr) : Option (Avl K) := do
  let n ← s.nodes node
  let s ← s.modify new fun m => { m with balance := n.balance, parent := n.parent, left := n.left, right := n.right }
  let s ← s.adopt n.left (some new)
  let s ← s.adopt n.right (some new)
  s.relink n.parent node (some new)

def avl_delete_worker : ℕ → Avl K → Ptr → Option (Avl K)
  | 0, _, _ => none
  | fuel + 1, s, node => do
    let n ← s.nodes node
    match n.left, n.right with
    | none, none =>
      match n.parent with
      | none => return { s with root := none }
      | some parent => do
        let p ← s.nodes parent
        if p.left = some node then do
          let s ← s.modify parent fun p => { p with left := none }
          shrunk .left (avl_post_delete fuel) s parent
        else if p.right = some node then do
          let s ← s.modify parent fun p => { p with right := none }
          shrunk .right (avl_post_delete fuel) s parent
        else none -- `node->right->parent`
    | none, some right => bypass (avl_post_delete fuel) s n.parent node right
    | some left, none => bypass (avl_post_delete fuel) s n.parent node left
    | some _, some right => do
      let min ← s.avl_local_min fuel right
      let s ← avl_delete_worker fuel s min
      s.replace node min

/-- A leader leaves the tree; the next node with its key, if there is one, becomes the leader. -/
def leave (fuel : ℕ) (s : Avl K) (node : Ptr) (next : Option Ptr) : Option (Avl K) :=
  match next with
  | none => avl_delete_worker fuel s node
  | some next => do
    let x ← s.nodes next
    if x.leader then avl_delete_worker fuel s node
    else do
      let s ← s.modify next fun x => { x with leader := true }
      s.replace node next

def avl_delete (fuel : ℕ) (s : Avl K) (node : Ptr) : Option (Avl K) := do
  let n ← s.nodes node
  let s ← if n.leader then leave fuel s node n.next else some s
  s.avl_remove node

end Avl

end MpOlsr
