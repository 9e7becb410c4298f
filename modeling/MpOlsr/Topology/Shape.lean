import Mathlib.Data.List.Find
import MpOlsr.Topology.Commands

/-!
# The shape of the store

A store represents a shape: the nodes, the address entries and the links, each with the name of its block, the most
recent first.  The chains of the hash table and the link lists of the nodes are groups of these lists (`Rep`).  The
lookups of the daemon are lookups in the shape (`tc_get_node_spec`).
-/

namespace MpOlsr

open DoublyLinked

variable {ws : WordSize}

/-- An address entry: the block, the address, and its node and position. -/
structure AddrInfo (ws : WordSize) where
  name : Ptr
  addr_ip : ip_v4_addr ws
  node : Ptr
  pos : Slot
  deriving DecidableEq

/-- A link: the block, the end nodes and the cost. -/
structure LinkInfo (ws : WordSize) where
  name : Ptr
  src : Ptr
  dst : Ptr
  cost : ULong ws
  deriving DecidableEq

def AddrInfo.key (e : AddrInfo ws) : Byte := get_hash_key e.addr_ip

def AddrInfo.block (e : AddrInfo ws) : OlsrNodeAddr ws := ⟨e.addr_ip, e.pos, some e.node⟩

def LinkInfo.block (l : LinkInfo ws) : OlsrNodeLink ws := ⟨some l.src, some l.dst, l.cost⟩

/-- The entry of an address, the most recent one. -/
def resolve (A : List (AddrInfo ws)) (a : ip_v4_addr ws) : Option (AddrInfo ws) := A.find? fun e => e.addr_ip = a

/-- The entry at a position of the table of a node. -/
def entryAt (A : List (AddrInfo ws)) (n : Ptr) (i : Slot) : Option (AddrInfo ws) :=
  A.find? fun e => e.node = n ∧ e.pos = i

/-! ### What a store represents -/

/-- The nodes `N` are on the node list, and the nodes `M` are allocated. -/
structure NodesRep (h : Store ws) (N M : List Ptr) : Prop where
  list : Holds h.node_lst fun _ => N
  live : ∀ p, h.liveNode p = true ↔ p ∈ M
  listed : ∀ p ∈ N, p ∈ M
  bound : ∀ p ∈ M, p < h.brk

/-- The entries `A` are in the hash table and in the tables of their nodes. -/
structure AddrsRep (h : Store ws) (M : List Ptr) (A : List (AddrInfo ws)) : Prop where
  chains : Holds h.hash (group AddrInfo.key AddrInfo.name A)
  blocks : ∀ e ∈ A, h.node_addrs e.name = some e.block
  tab : ∀ n ∈ M, ∀ nd, h.nodes n = some nd → ∀ i, nd.addr_tab i = (entryAt A n i).map AddrInfo.name
  names : (A.map AddrInfo.name).Nodup
  slots : ∀ e ∈ A, ∀ e' ∈ A, e.node = e'.node → e.pos = e'.pos → e = e'
  nodes : ∀ e ∈ A, e.node ∈ M
  bound : ∀ e ∈ A, e.name < h.brk

/-- The links `L` are allocated; `S` are on the lists of their sources, and `D` on those of their destinations. -/
structure LinksRep (h : Store ws) (L S D : List (LinkInfo ws)) : Prop where
  src : Holds h.src (group LinkInfo.src LinkInfo.name S)
  dst : Holds h.dst (group LinkInfo.dst LinkInfo.name D)
  blocks : ∀ l ∈ L, h.link_blocks l.name = some l.block
  live : ∀ p, h.liveLink p = true → ∃ l ∈ L, l.name = p
  names : (L.map LinkInfo.name).Nodup
  bound : ∀ l ∈ L, l.name < h.brk

/-- The shape of a store. -/
structure Shape (ws : WordSize) where
  nodes : List Ptr
  addrs : List (AddrInfo ws)
  links : List (LinkInfo ws)

/-- The store represents the shape; every node has a main address, and links have their ends in the store. -/
structure Rep (h : Store ws) (g : Shape ws) : Prop where
  nodesRep : NodesRep h g.nodes g.nodes
  addrsRep : AddrsRep h g.nodes g.addrs
  linksRep : LinksRep h g.links g.links g.links
  main : ∀ n ∈ g.nodes, ∃ e ∈ g.addrs, e.node = n ∧ e.pos = 0
  ends : ∀ l ∈ g.links, l.src ∈ g.nodes ∧ l.dst ∈ g.nodes

/-- What is left of a representation when a main address was removed as an alias, or a node without its entries: a node
may have no main address, and an entry may refer to a block that is freed. -/
structure WeakRep (h : Store ws) (g : Shape ws) : Prop where
  nodesRep : NodesRep h g.nodes g.nodes
  addrsRep : AddrsRep h (List.range h.brk) g.addrs
  linksRep : LinksRep h g.links g.links g.links
  ends : ∀ l ∈ g.links, l.src ∈ g.nodes ∧ l.dst ∈ g.nodes

/-- Blocks may be added that are no nodes, and those without entries may be left out. -/
theorem AddrsRep.rebase {h : Store ws} {M M' : List Ptr} {A : List (AddrInfo ws)} (hr : AddrsRep h M A)
    (hlive : ∀ n nd, h.nodes n = some nd → n ∈ M) (hA : ∀ e ∈ A, e.node ∈ M') : AddrsRep h M' A where
  chains := hr.chains
  blocks := hr.blocks
  tab := fun n _ nd hnd => hr.tab n (hlive n nd hnd) nd hnd
  names := hr.names
  slots := hr.slots
  nodes := hA
  bound := hr.bound

theorem Rep.weak {h : Store ws} {g : Shape ws} (hr : Rep h g) : WeakRep h g where
  nodesRep := hr.nodesRep
  addrsRep := by
    refine hr.addrsRep.rebase (fun n nd hnd => (hr.nodesRep.live n).1 ?_) fun e he => List.mem_range.2 ?_
    · rw [Store.liveNode, hnd]
      rfl
    · exact hr.nodesRep.bound _ (hr.addrsRep.nodes e he)
  linksRep := hr.linksRep
  ends := hr.ends

/-! ### Names -/

theorem eq_of_name {β : Type} {name : β → Ptr} {L : List β} (h : (L.map name).Nodup) {x y : β} (hx : x ∈ L)
    (hy : y ∈ L) (hxy : name x = name y) : x = y :=
  List.inj_on_of_nodup_map h hx hy hxy

/-- A list of names is at most as long as the number of blocks. -/
theorem length_le_of_bound {xs : List Ptr} (h : xs.Nodup) {n : ℕ} (hb : ∀ x ∈ xs, x < n) : xs.length ≤ n := by
  have hsub : xs ⊆ List.range n := fun x hx => List.mem_range.2 (hb x hx)
  simpa using (h.subperm hsub).length_le

section Lookup

variable {h : Store ws} {M : List Ptr} {A : List (AddrInfo ws)}

theorem AddrsRep.eq_of_name (hr : AddrsRep h M A) {e e' : AddrInfo ws} (he : e ∈ A) (he' : e' ∈ A)
    (hn : e.name = e'.name) : e = e' := MpOlsr.eq_of_name hr.names he he' hn

theorem AddrsRep.live (hr : AddrsRep h M A) {e : AddrInfo ws} (he : e ∈ A) : h.liveAddr e.name = true := by
  rw [Store.liveAddr, hr.blocks e he]
  rfl

theorem AddrsRep.chain_live (hr : AddrsRep h M A) {k : Byte} : ∀ y ∈ group AddrInfo.key AddrInfo.name A k,
    h.liveAddr y = true := by
  intro y hy
  obtain ⟨e, he, -, rfl⟩ := mem_group.1 hy
  exact hr.live he

theorem AddrsRep.chain_length (hr : AddrsRep h M A) {k : Byte} :
    (group AddrInfo.key AddrInfo.name A k).length ≤ h.brk := by
  refine length_le_of_bound (hr.chains.nodup k) fun y hy => ?_
  obtain ⟨e, he, -, rfl⟩ := mem_group.1 hy
  exact hr.bound e he

/-- A search along a hash chain is a search in the entries. -/
theorem AddrsRep.search (hr : AddrsRep h M A) (p : OlsrNodeAddr ws → Bool) (k : Byte) :
    DoublyLinked.search (h.hash.getNext h.liveAddr) (fun q => (h.node_addrs q).map p) h.brk (h.hash.head k) =
      some ((A.find? fun e => e.key = k && p e.block).map AddrInfo.name) := by
  let q : Ptr → Bool := fun y => ((h.node_addrs y).map p).getD false
  have hq : ∀ e ∈ A, q e.name = p e.block := by
    intro e he
    simp only [q, hr.blocks e he, Option.map_some, Option.getD_some]
  have htest : ∀ y ∈ group AddrInfo.key AddrInfo.name A k, (h.node_addrs y).map p = some (q y) := by
    intro y hy
    obtain ⟨e, he, -, rfl⟩ := mem_group.1 hy
    rw [hq e he, hr.blocks e he, Option.map_some]
  rw [hr.chains.search hr.chain_live htest hr.chain_length]
  congr 1
  rw [group, List.find?_map, List.find?_filter]
  congr 1
  refine List.find?_congr fun e he => ?_
  rw [Function.comp_apply, hq e he]
  by_cases hk : e.key = k <;> simp [hk]

theorem tc_find_addr_spec (hr : AddrsRep h M A) (a : ip_v4_addr ws) :
    tc_find_addr h a = some ((resolve A a).map AddrInfo.name) := by
  rw [tc_find_addr, hr.search (fun b => decide (b.addr_ip = a)), resolve]
  congr 2
  refine List.find?_congr fun e _ => ?_
  by_cases ha : e.addr_ip = a
  · simp [AddrInfo.key, AddrInfo.block, ha]
  · simp [AddrInfo.block, ha]

theorem tc_get_node_spec (hr : AddrsRep h M A) (a : ip_v4_addr ws) :
    tc_get_node h a = some ((resolve A a).map AddrInfo.node) := by
  rw [tc_get_node, tc_find_addr_spec hr, Option.bind_eq_bind, Option.bind_some]
  cases hres : resolve A a with
  | none => rfl
  | some e =>
    show (h.node_addrs e.name).map OlsrNodeAddr.node = _
    rw [hr.blocks e (List.mem_of_find?_eq_some hres)]
    rfl

theorem resolve_mem {a : ip_v4_addr ws} {e : AddrInfo ws} (h : resolve A a = some e) : e ∈ A ∧ e.addr_ip = a :=
  ⟨List.mem_of_find?_eq_some h, by simpa using List.find?_some h⟩

theorem entryAt_mem {n : Ptr} {i : Slot} {e : AddrInfo ws} (h : entryAt A n i = some e) :
    e ∈ A ∧ e.node = n ∧ e.pos = i := by
  have hp := List.find?_some h
  simp only [decide_eq_true_eq] at hp
  exact ⟨List.mem_of_find?_eq_some h, hp⟩

theorem AddrsRep.entryAt_eq (hr : AddrsRep h M A) {e : AddrInfo ws} (he : e ∈ A) : entryAt A e.node e.pos = some e := by
  cases hf : entryAt A e.node e.pos with
  | none =>
    have := List.find?_eq_none.1 hf e he
    simp at this
  | some e' =>
    obtain ⟨he', hn, hp⟩ := entryAt_mem hf
    rw [hr.slots e' he' e he hn hp]

end Lookup

/-! ### Frame -/

/-- The fields of a store that a representation depends on. -/
theorem NodesRep.congr {h h' : Store ws} {N M : List Ptr} (hr : NodesRep h N M)
    (hhead : h'.node_lst.head = h.node_lst.head) (hnext : ∀ p ∈ N, h'.node_lst.next p = h.node_lst.next p)
    (hprev : ∀ p ∈ N, h'.node_lst.prev p = h.node_lst.prev p) (hlive : ∀ p, h'.liveNode p = h.liveNode p)
    (hbrk : h.brk ≤ h'.brk) : NodesRep h' N M where
  list := hr.list.congr (fun k => congrFun hhead k) (fun _ => hnext) (fun _ => hprev)
  live := fun p => by rw [hlive]; exact hr.live p
  listed := hr.listed
  bound := fun p hp => lt_of_lt_of_le (hr.bound p hp) hbrk

theorem AddrsRep.congr {h h' : Store ws} {M : List Ptr} {A : List (AddrInfo ws)} (hr : AddrsRep h M A)
    (hhead : h'.hash.head = h.hash.head) (hnext : ∀ e ∈ A, h'.hash.next e.name = h.hash.next e.name)
    (hprev : ∀ e ∈ A, h'.hash.prev e.name = h.hash.prev e.name)
    (hblock : ∀ e ∈ A, h'.node_addrs e.name = h.node_addrs e.name) (htab : ∀ n ∈ M, h'.nodes n = h.nodes n)
    (hbrk : h.brk ≤ h'.brk) : AddrsRep h' M A where
  chains := by
    refine hr.chains.congr (fun k => congrFun hhead k) ?_ ?_
    · intro k x hx
      obtain ⟨e, he, -, rfl⟩ := mem_group.1 hx
      exact hnext e he
    · intro k x hx
      obtain ⟨e, he, -, rfl⟩ := mem_group.1 hx
      exact hprev e he
  blocks := fun e he => (hblock e he).trans (hr.blocks e he)
  tab := fun n hn nd hnd => hr.tab n hn nd ((htab n hn).symm.trans hnd)
  names := hr.names
  slots := hr.slots
  nodes := hr.nodes
  bound := fun e he => lt_of_lt_of_le (hr.bound e he) hbrk

theorem LinksRep.congr {h h' : Store ws} {L S D : List (LinkInfo ws)} (hr : LinksRep h L S D) (hS : S ⊆ L)
    (hD : D ⊆ L) (hsrc : h'.src.head = h.src.head) (hsnext : ∀ l ∈ L, h'.src.next l.name = h.src.next l.name)
    (hsprev : ∀ l ∈ L, h'.src.prev l.name = h.src.prev l.name) (hdst : h'.dst.head = h.dst.head)
    (hdnext : ∀ l ∈ L, h'.dst.next l.name = h.dst.next l.name)
    (hdprev : ∀ l ∈ L, h'.dst.prev l.name = h.dst.prev l.name)
    (hblock : ∀ p, h'.link_blocks p = h.link_blocks p) (hbrk : h.brk ≤ h'.brk) : LinksRep h' L S D where
  src := by
    refine hr.src.congr (fun k => congrFun hsrc k) ?_ ?_
    · intro k x hx
      obtain ⟨l, hl, -, rfl⟩ := mem_group.1 hx
      exact hsnext l (hS hl)
    · intro k x hx
      obtain ⟨l, hl, -, rfl⟩ := mem_group.1 hx
      exact hsprev l (hS hl)
  dst := by
    refine hr.dst.congr (fun k => congrFun hdst k) ?_ ?_
    · intro k x hx
      obtain ⟨l, hl, -, rfl⟩ := mem_group.1 hx
      exact hdnext l (hD hl)
    · intro k x hx
      obtain ⟨l, hl, -, rfl⟩ := mem_group.1 hx
      exact hdprev l (hD hl)
  blocks := fun l hl => (hblock l.name).trans (hr.blocks l hl)
  live := fun p hp => hr.live p (by rw [Store.liveLink, ← hblock]; exact hp)
  names := hr.names
  bound := fun l hl => lt_of_lt_of_le (hr.bound l hl) hbrk

end MpOlsr
