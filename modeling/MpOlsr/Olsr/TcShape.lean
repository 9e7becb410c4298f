import MpOlsr.Lib.Opposites
import MpOlsr.Olsr.TcSet

/-!
# The shape of the TC set

What every operation on the TC set keeps (`Shape`): the trees contain exactly the blocks that are allocated, in the order
of their keys, the reference counts are exact, and every edge points to the edge in the other direction if and only if
there is one.  The trees, the counts and these pointers are determined by the rest, the view of the set (`TcView`); what
an operation does is a function of the view.
-/

namespace MpOlsr

/-- The data of a node, without its edges and the number of its references. -/
def TcEntry.data {Q : Type} (tc : TcEntry Q) : TcEntry Q := { tc with edge_tree := [], refcount := 0 }

/-- The data of an edge, without the pointer to the other direction. -/
def TcEdgeEntry.data {Q : Type} (edge : TcEdgeEntry Q) : TcEdgeEntry Q := { edge with edge_inv := none }

/-- The contents of a TC set. -/
structure TcView (Q : Type) where
  node : Ptr → Option (TcEntry Q)
  link : Ptr → Option (TcEdgeEntry Q)
  tc_myself : Option Ptr
  validity_timer : Ptr → Bool
  edge_gc_timer : Ptr → Bool

namespace TcView

variable {Q : Type} (V : TcView Q)

def setNode (x : Ptr) (f : TcEntry Q → TcEntry Q) : TcView Q :=
  { V with node := Function.update V.node x ((V.node x).map f) }

def setLink (e : Ptr) (f : TcEdgeEntry Q → TcEdgeEntry Q) : TcView Q :=
  { V with link := Function.update V.link e ((V.link e).map f) }

def addNode (x : Ptr) (adr : OlsrIpAddr) : TcView Q :=
  { V with
    node := Function.update V.node x
      (some { TcEntry.ofAddr adr with prefix_tree := [((adr, maxplen), OLSR_RT_ORIGIN_INT)] }) }

def addr (x : Ptr) : Option OlsrIpAddr := (V.node x).map TcEntry.addr

/-- The node of an edge and the destination. -/
def arc (e : Ptr) : Option (Ptr × OlsrIpAddr) := (V.link e).map fun edge => (edge.tc, edge.T_dest_addr)

/-- The ends of an edge. -/
def ends (e : Ptr) : Option (OlsrIpAddr × OlsrIpAddr) := do
  let (x, b) ← V.arc e
  let a ← V.addr x
  return (a, b)

variable {V V' : TcView Q} {x e : Ptr} {a b : OlsrIpAddr}

theorem ends_iff : V.ends e = some (a, b) ↔ ∃ x, V.arc e = some (x, b) ∧ V.addr x = some a := by
  unfold ends
  cases V.arc e with
  | none => simp
  | some l =>
    obtain ⟨x, b'⟩ := l
    cases hx : V.addr x with
    | none => simp [hx]
    | some a' => simp [hx, and_comm]

theorem ends_congr (haddr : V'.addr = V.addr) (harc : V'.arc = V.arc) : V'.ends = V.ends := by
  funext e
  unfold ends
  rw [haddr, harc]

theorem addr_setNode {f : TcEntry Q → TcEntry Q} (hf : ∀ d, (f d).addr = d.addr) : (V.setNode x f).addr = V.addr := by
  funext y
  unfold setNode addr
  by_cases hy : y = x
  · subst hy
    cases V.node y <;> simp [hf]
  · simp [hy]

theorem setNode_self {d : TcEntry Q} {f : TcEntry Q → TcEntry Q} (hx : V.node x = some d) (hf : f d = d) :
    V.setNode x f = V := by
  unfold setNode
  rw [hx, Option.map_some, hf, ← hx, Function.update_eq_self]

theorem arc_setLink {f : TcEdgeEntry Q → TcEdgeEntry Q} (hf : ∀ d, (f d).tc = d.tc ∧ (f d).T_dest_addr = d.T_dest_addr) :
    (V.setLink e f).arc = V.arc := by
  funext e'
  unfold setLink arc
  by_cases he : e' = e
  · subst he
    cases V.link e' <;> simp [hf]
  · simp [he]

end TcView

namespace TcSet

open SearchTree

variable {Q : Type} {cnf : OlsrCnf} {H : LqHandler Q} {s : TcSet Q}

def view (s : TcSet Q) : TcView Q where
  node x := (s.entries x).map TcEntry.data
  link e := (s.edges e).map TcEdgeEntry.data
  tc_myself := s.tc_myself
  validity_timer := s.validity_timer
  edge_gc_timer := s.edge_gc_timer

/-- The trees and the counts are those of the blocks. -/
structure Trees (s : TcSet Q) : Prop where
  sorted : Sorted BitVec.toNat s.tc_tree
  mem_tree : ∀ a x, (a, x) ∈ s.tc_tree ↔ s.view.addr x = some a
  sorted_edges : ∀ x tc, s.entries x = some tc → Sorted BitVec.toNat tc.edge_tree
  mem_edges : ∀ x tc, s.entries x = some tc → ∀ b e, (b, e) ∈ tc.edge_tree ↔ s.view.arc e = some (x, b)
  owner : ∀ e x b, s.view.arc e = some (x, b) → ∃ a, s.view.addr x = some a
  refcount : ∀ x tc, s.entries x = some tc → tc.refcount = 1 + tc.edge_tree.length + tc.prefix_tree.length
  fresh : ∀ x, s.brk ≤ x → s.entries x = none ∧ s.edges x = none
  timers : ∀ x, (s.validity_timer x || s.edge_gc_timer x) = true → ∃ a, s.view.addr x = some a

/-- The pointers of the edges. -/
def inv (s : TcSet Q) (e : Ptr) : Option (Option Ptr) := (s.edges e).map TcEdgeEntry.edge_inv

/-- What every operation keeps: every edge points to the edge in the other direction, if there is one. -/
structure Shape (s : TcSet Q) : Prop extends Trees s where
  inverse : Opposites.Paired Prod.swap s.inv s.view.ends

/-! ### Blocks -/

theorem node_eq {x : Ptr} {tc : TcEntry Q} (hx : s.entries x = some tc) : s.view.node x = some tc.data := by
  simp [view, hx]

theorem addr_eq {x : Ptr} {tc : TcEntry Q} (hx : s.entries x = some tc) : s.view.addr x = some tc.addr := by
  simp [view, TcView.addr, hx, TcEntry.data]

theorem arc_eq {e : Ptr} {edge : TcEdgeEntry Q} (he : s.edges e = some edge) :
    s.view.arc e = some (edge.tc, edge.T_dest_addr) := by
  simp [view, TcView.arc, he, TcEdgeEntry.data]

theorem exists_entry {x : Ptr} {a : OlsrIpAddr} (h : s.view.addr x = some a) :
    ∃ tc, s.entries x = some tc ∧ tc.addr = a := by
  simpa [view, TcView.addr, TcEntry.data] using h

theorem exists_edge {e x : Ptr} {b : OlsrIpAddr} (h : s.view.arc e = some (x, b)) :
    ∃ edge, s.edges e = some edge ∧ edge.tc = x ∧ edge.T_dest_addr = b := by
  simpa [view, TcView.arc, TcEdgeEntry.data] using h

/-- The entries and the edges that a tree of the set contains are allocated. -/
theorem Trees.liveTree (h : Trees s) : (s.tc_tree.all fun p => s.liveEntry p.2) = true := by
  rw [List.all_eq_true]
  rintro ⟨a, x⟩ hp
  obtain ⟨tc, hx, -⟩ := exists_entry ((h.mem_tree a x).1 hp)
  simp [liveEntry, hx]

theorem Trees.liveEdges (h : Trees s) {x : Ptr} {tc : TcEntry Q} (hx : s.entries x = some tc) :
    (tc.edge_tree.all fun p => s.liveEdge p.2) = true := by
  rw [List.all_eq_true]
  rintro ⟨b, e⟩ hp
  obtain ⟨edge, he, -⟩ := exists_edge ((h.mem_edges x tc hx b e).1 hp)
  simp [liveEdge, he]

theorem Trees.lookup_tree (h : Trees s) (a : OlsrIpAddr) (x : Ptr) :
    s.tc_tree.lookup a = some x ↔ s.view.addr x = some a := by
  rw [← h.sorted.mem_iff, h.mem_tree]

theorem Trees.lookup_edges (h : Trees s) {x : Ptr} {tc : TcEntry Q} (hx : s.entries x = some tc) (b : OlsrIpAddr)
    (e : Ptr) : tc.edge_tree.lookup b = some e ↔ s.view.arc e = some (x, b) := by
  rw [← (h.sorted_edges x tc hx).mem_iff, h.mem_edges x tc hx]

/-- Nodes with the same address are the same. -/
theorem Trees.addr_inj (h : Trees s) {x y : Ptr} {a : OlsrIpAddr} (hx : s.view.addr x = some a)
    (hy : s.view.addr y = some a) : x = y :=
  h.sorted.unique ((h.mem_tree a x).2 hx) ((h.mem_tree a y).2 hy)

/-- Edges with the same ends are the same. -/
theorem Trees.ends_inj (h : Trees s) : Opposites.Injective s.view.ends := by
  rintro e e' ⟨a, b⟩ he he'
  obtain ⟨x, harc, hx⟩ := TcView.ends_iff.1 he
  obtain ⟨y, harc', hy⟩ := TcView.ends_iff.1 he'
  obtain rfl := h.addr_inj hx hy
  obtain ⟨tc, hentry, -⟩ := exists_entry hx
  have hmem := h.mem_edges x tc hentry b
  exact (h.sorted_edges x tc hentry).unique ((hmem e).2 harc) ((hmem e').2 harc')

theorem Trees.olsr_lookup_tc_entry (h : Trees s) (a : OlsrIpAddr) : ∃ found, s.olsr_lookup_tc_entry a = some found ∧
    ∀ x, found = some x ↔ s.view.addr x = some a := by
  refine ⟨s.tc_tree.lookup a, ?_, h.lookup_tree a⟩
  rw [TcSet.olsr_lookup_tc_entry, avl_find, if_pos h.liveTree]

theorem Trees.olsr_lookup_tc_edge (h : Trees s) {x : Ptr} {tc : TcEntry Q} (hx : s.entries x = some tc)
    (b : OlsrIpAddr) : ∃ found, s.olsr_lookup_tc_edge x b = some found ∧
      ∀ e, found = some e ↔ s.view.arc e = some (x, b) := by
  refine ⟨tc.edge_tree.lookup b, ?_, h.lookup_edges hx b⟩
  rw [TcSet.olsr_lookup_tc_edge, Fault.bind_of_some hx, avl_find, if_pos (h.liveEdges hx)]

/-! ### Changes of one block -/

theorem map_update {α β : Type} (f : Ptr → Option α) (x : Ptr) (v : Option α) (g : α → β) :
    (fun y => (Function.update f x v y).map g) = Function.update (fun y => (f y).map g) x (v.map g) := by
  funext y
  by_cases hy : y = x
  · subst hy
    simp
  · simp [hy]

theorem setEntry_eq {x : Ptr} {tc : TcEntry Q} (hx : s.entries x = some tc) (f : TcEntry Q → TcEntry Q) :
    s.setEntry x f = some { s with entries := Function.update s.entries x (some (f tc)) } := by
  rw [setEntry, hx, Option.map_some]

theorem setEdge_eq {e : Ptr} {edge : TcEdgeEntry Q} (he : s.edges e = some edge)
    (f : TcEdgeEntry Q → TcEdgeEntry Q) :
    s.setEdge e f = some { s with edges := Function.update s.edges e (some (f edge)) } := by
  rw [setEdge, he, Option.map_some]

theorem setEntry_setEntry {x : Ptr} (f g : TcEntry Q → TcEntry Q) :
    ((s.setEntry x f).bind fun s => s.setEntry x g) = s.setEntry x (g ∘ f) := by
  cases hx : s.entries x <;> simp [setEntry, hx]

/-- The data of a node change, but neither its address nor its edges. -/
theorem Shape.setEntry (h : Shape s) {x : Ptr} {tc : TcEntry Q} (hx : s.entries x = some tc)
    {f g : TcEntry Q → TcEntry Q} (haddr : ∀ d, (g d).addr = d.addr) (hdata : (f tc).data = g tc.data)
    (htree : (f tc).edge_tree = tc.edge_tree)
    (hcount : (f tc).refcount = 1 + tc.edge_tree.length + (f tc).prefix_tree.length) :
    ∃ s', s.setEntry x f = some s' ∧ Shape s' ∧ s'.view = s.view.setNode x g := by
  have hview : ({ s with entries := Function.update s.entries x (some (f tc)) } : TcSet Q).view =
      s.view.setNode x g := by
    simp only [view, TcView.setNode, map_update, hx, Option.map_some, hdata]
  have haddr' : (s.view.setNode x g).addr = s.view.addr := TcView.addr_setNode haddr
  have hentry : ∀ y tc', Function.update s.entries x (some (f tc)) y = some tc' →
      ∃ tc, s.entries y = some tc ∧ tc'.edge_tree = tc.edge_tree ∧
        tc'.refcount = 1 + tc'.edge_tree.length + tc'.prefix_tree.length := by
    intro y tc' hy
    by_cases hxy : y = x
    · subst hxy
      simp only [Function.update_self, Option.some.injEq] at hy
      subst hy
      exact ⟨tc, hx, htree, by rw [htree]; exact hcount⟩
    · rw [Function.update_of_ne hxy] at hy
      exact ⟨tc', hy, rfl, h.refcount y tc' hy⟩
  refine ⟨_, setEntry_eq hx f, ⟨⟨h.sorted, ?_, ?_, ?_, ?_, ?_, ?_, ?_⟩, ?_⟩, hview⟩
  · rw [hview, haddr']
    exact h.mem_tree
  · intro y tc' hy
    obtain ⟨tc'', hy', hedges, -⟩ := hentry y tc' hy
    rw [hedges]
    exact h.sorted_edges y tc'' hy'
  · rw [hview]
    intro y tc' hy
    obtain ⟨tc'', hy', hedges, -⟩ := hentry y tc' hy
    rw [hedges]
    exact h.mem_edges y tc'' hy'
  · rw [hview, haddr']
    exact h.owner
  · intro y tc' hy
    obtain ⟨-, -, -, hcount'⟩ := hentry y tc' hy
    exact hcount'
  · intro y hy
    obtain ⟨hnone, hedge⟩ := h.fresh y hy
    refine ⟨?_, hedge⟩
    have hne : y ≠ x := by
      rintro rfl
      simp [hx] at hnone
    simp [hne, hnone]
  · rw [hview, haddr']
    exact h.timers
  · rw [hview, TcView.ends_congr haddr' rfl]
    exact h.inverse

/-- The data of an edge change, but neither its ends nor its pointer. -/
theorem Shape.setEdge (h : Shape s) {e : Ptr} {edge : TcEdgeEntry Q} (he : s.edges e = some edge)
    {f : TcEdgeEntry Q → TcEdgeEntry Q} (hends : ∀ d, (f d).tc = d.tc ∧ (f d).T_dest_addr = d.T_dest_addr)
    (hinv : (f edge).edge_inv = edge.edge_inv) (hdata : (f edge).data = f edge.data) :
    ∃ s', s.setEdge e f = some s' ∧ Shape s' ∧ s'.view = s.view.setLink e f := by
  have hview : ({ s with edges := Function.update s.edges e (some (f edge)) } : TcSet Q).view =
      s.view.setLink e f := by
    simp only [view, TcView.setLink, map_update, he, Option.map_some, hdata]
  have harc : (s.view.setLink e f).arc = s.view.arc := TcView.arc_setLink hends
  refine ⟨_, setEdge_eq he f, ⟨⟨h.sorted, ?_, h.sorted_edges, ?_, ?_, h.refcount, ?_, ?_⟩, ?_⟩, hview⟩
  · rw [hview]
    exact h.mem_tree
  · rw [hview, harc]
    exact h.mem_edges
  · rw [hview, harc]
    exact h.owner
  · intro y hy
    obtain ⟨hentry, hnone⟩ := h.fresh y hy
    have hne : y ≠ e := by
      rintro rfl
      simp [he] at hnone
    simp [hne, hnone, hentry]
  · rw [hview]
    exact h.timers
  · have hsame : (s.view.setLink e f).ends = s.view.ends := TcView.ends_congr rfl harc
    have hptr : ({ s with edges := Function.update s.edges e (some (f edge)) } : TcSet Q).inv = s.inv := by
      funext e'
      by_cases hne : e' = e
      · subst hne
        simp [TcSet.inv, he, hinv]
      · simp [TcSet.inv, hne]
    rw [hview, hsame, hptr]
    exact h.inverse

theorem Shape.flags (h : Shape s) (topology hna : Bool) :
    Shape { s with changes_topology := topology, changes_hna := hna } :=
  ⟨⟨h.sorted, h.mem_tree, h.sorted_edges, h.mem_edges, h.owner, h.refcount, h.fresh, h.timers⟩, h.inverse⟩

/-! ### Prefixes -/

theorem Shape.insertPrefix (h : Shape s) {x : Ptr} {tc : TcEntry Q} (hx : s.entries x = some tc)
    (p : OlsrIpAddr × Byte) (origin : Byte) : ∃ s', s.insertPrefix x p origin = some s' ∧ Shape s' ∧
      s'.view = s.view.setNode x fun d =>
        { d with prefix_tree := (SearchTree.insert prefixRank p origin d.prefix_tree).1 } := by
  rw [TcSet.insertPrefix, Fault.bind_of_some hx]
  by_cases hp : (tc.prefix_tree.lookup p).isSome = true
  · rw [if_pos hp]
    refine ⟨s, rfl, h, (TcView.setNode_self (node_eq hx) ?_).symm⟩
    simp [TcEntry.data, SearchTree.insert, hp]
  · rw [if_neg hp]
    have hnone : tc.prefix_tree.lookup p = none := by
      rwa [Bool.not_eq_true, Option.isSome_eq_false_iff, Option.isNone_iff_eq_none] at hp
    obtain ⟨s', hrun, hs', hview⟩ := h.setEntry hx
      (f := (fun tc => { tc with refcount := tc.refcount + 1 }) ∘
        fun tc => { tc with prefix_tree := (SearchTree.insert prefixRank p origin tc.prefix_tree).1 })
      (g := fun d => { d with prefix_tree := (SearchTree.insert prefixRank p origin d.prefix_tree).1 })
      (fun _ => rfl) rfl rfl (by
        simp only [Function.comp_apply, SearchTree.length_insert hnone, h.refcount x tc hx]
        omega)
    rw [← setEntry_setEntry] at hrun
    obtain ⟨s₁, hs₁, hlock⟩ := Option.bind_eq_some_iff.1 hrun
    refine ⟨{ s' with changes_hna := true }, ?_, hs'.flags _ _, hview⟩
    rw [Fault.bind_of_some hs₁, olsr_lock_tc_entry, Fault.bind_of_some hlock]
    rfl

theorem Trees.fresh_addr (h : Trees s) : s.view.addr s.brk = none := by
  simp [view, TcView.addr, (h.fresh _ (le_refl _)).1]

theorem Trees.fresh_arc (h : Trees s) : s.view.arc s.brk = none := by
  simp [view, TcView.arc, (h.fresh _ (le_refl _)).2]

theorem toNat_injective : Function.Injective (BitVec.toNat : OlsrIpAddr → ℕ) := fun _ _ => BitVec.eq_of_toNat_eq

/-- A new node, which only the tree refers to. -/
theorem Shape.addEntry (h : Shape s) {adr : OlsrIpAddr} (hnew : ∀ x, s.view.addr x ≠ some adr) :
    Shape { s with
      entries := Function.update s.entries s.brk (some { TcEntry.ofAddr adr with refcount := 1 })
      brk := s.brk + 1
      tc_tree := (SearchTree.insert BitVec.toNat adr s.brk s.tc_tree).1 } := by
  generalize hs' : ({ s with
      entries := Function.update s.entries s.brk (some { TcEntry.ofAddr adr with refcount := 1 })
      brk := s.brk + 1
      tc_tree := (SearchTree.insert BitVec.toNat adr s.brk s.tc_tree).1 } : TcSet Q) = s'
  have haddr : s'.view.addr = Function.update s.view.addr s.brk (some adr) := by
    subst hs'
    funext y
    by_cases hy : y = s.brk
    · subst hy
      simp [view, TcView.addr, TcEntry.data, TcEntry.ofAddr]
    · simp [view, TcView.addr, hy]
  have harc : s'.view.arc = s.view.arc := by
    subst hs'
    rfl
  have hold : ∀ x a, s.view.addr x = some a → s'.view.addr x = some a := by
    intro x a hx
    have hne : x ≠ s.brk := by
      rintro rfl
      simp [h.fresh_addr] at hx
    rw [haddr, Function.update_of_ne hne, hx]
  have hends : s'.view.ends = s.view.ends := by
    funext e
    cases hl : s.view.arc e with
    | none => simp [TcView.ends, harc, hl]
    | some l =>
      obtain ⟨x, b⟩ := l
      obtain ⟨a, ha⟩ := h.owner e x b hl
      simp [TcView.ends, harc, hl, ha, hold x a ha]
  have hnone : s.tc_tree.lookup adr = none := by
    rw [lookup_eq_none_iff]
    exact fun x hx => hnew x ((h.mem_tree adr x).1 hx)
  have hentry : ∀ y tc, s'.entries y = some tc → y = s.brk ∧ tc = { TcEntry.ofAddr adr with refcount := 1 } ∨
      y ≠ s.brk ∧ s.entries y = some tc := by
    intro y tc hy
    subst hs'
    by_cases hxy : y = s.brk
    · subst hxy
      simp only [Function.update_self, Option.some.injEq] at hy
      exact Or.inl ⟨rfl, hy.symm⟩
    · simp only [Function.update_of_ne hxy] at hy
      exact Or.inr ⟨hxy, hy⟩
  refine ⟨⟨?_, ?_, ?_, ?_, ?_, ?_, ?_, ?_⟩, ?_⟩
  · subst hs'
    exact h.sorted.insert toNat_injective adr s.brk
  · intro a x
    have hmem : (a, x) ∈ s'.tc_tree ↔ (a, x) = (adr, s.brk) ∨ (a, x) ∈ s.tc_tree := by
      subst hs'
      exact mem_insert hnone
    rw [hmem, haddr, h.mem_tree]
    by_cases hx : x = s.brk
    · subst hx
      simp [h.fresh_addr, eq_comm]
    · simp [hx]
  · intro x tc hx
    rcases hentry x tc hx with ⟨-, rfl⟩ | ⟨-, hx'⟩
    · exact sorted_nil
    · exact h.sorted_edges x tc hx'
  · intro x tc hx b e
    rw [harc]
    rcases hentry x tc hx with ⟨rfl, rfl⟩ | ⟨-, hx'⟩
    · refine iff_of_false List.not_mem_nil fun he => ?_
      obtain ⟨a, ha⟩ := h.owner e _ b he
      simp [h.fresh_addr] at ha
    · exact h.mem_edges x tc hx' b e
  · intro e x b he
    rw [harc] at he
    obtain ⟨a, ha⟩ := h.owner e x b he
    exact ⟨a, hold x a ha⟩
  · intro x tc hx
    rcases hentry x tc hx with ⟨-, rfl⟩ | ⟨-, hx'⟩
    · rfl
    · exact h.refcount x tc hx'
  · intro y hy
    have hlt : s.brk < y := by
      subst hs'
      exact hy
    subst hs'
    simpa [Nat.ne_of_gt hlt] using h.fresh y (Nat.le_of_lt hlt)
  · intro x hx
    obtain ⟨a, ha⟩ := h.timers x (by subst hs'; exact hx)
    exact ⟨a, hold x a ha⟩
  · rw [hends]
    subst hs'
    exact h.inverse

theorem Shape.olsr_add_tc_entry (h : Shape s) (hmain : cnf.main_addr ≠ 0) {adr : OlsrIpAddr}
    (hnew : ∀ x, s.view.addr x ≠ some adr) : ∃ s', s.olsr_add_tc_entry cnf adr = some (s', some s.brk) ∧ Shape s' ∧
      s'.view = s.view.addNode s.brk adr := by
  have hs₁ := h.addEntry hnew
  generalize hst : ({ s with
      entries := Function.update s.entries s.brk (some { TcEntry.ofAddr adr with refcount := 1 })
      brk := s.brk + 1
      tc_tree := (SearchTree.insert BitVec.toNat adr s.brk s.tc_tree).1 } : TcSet Q) = s₁ at hs₁
  have hentry : s₁.entries s.brk = some { TcEntry.ofAddr adr with refcount := 1 } := by
    subst hst
    simp
  have hview₁ : s₁.view = { s.view with node := Function.update s.view.node s.brk (some (TcEntry.ofAddr adr)) } := by
    subst hst
    simp only [view, map_update, Option.map_some]
    rfl
  obtain ⟨s', hrun, hs', hview⟩ := hs₁.insertPrefix hentry (adr, maxplen) OLSR_RT_ORIGIN_INT
  obtain ⟨found, hlookup, hfound⟩ := hs₁.olsr_lookup_tc_entry adr
  obtain rfl := (hfound s.brk).2 (addr_eq hentry)
  refine ⟨s', ?_, hs', ?_⟩
  · have hlive : (s.tc_tree.all fun p => (s.allocEntry adr).liveEntry p.2) = true := by
      rw [List.all_eq_true]
      intro p hp
      have hp' := List.all_eq_true.1 h.liveTree p hp
      by_cases hne : p.2 = s.brk
      · simp [liveEntry, allocEntry, hne]
      · simpa [liveEntry, allocEntry, hne] using hp'
    have hinsert : avl_insert BitVec.toNat (s.allocEntry adr).liveEntry (s.allocEntry adr).tc_tree adr s.brk =
        some (SearchTree.insert BitVec.toNat adr s.brk s.tc_tree).1 := if_pos hlive
    have hlock : ({ s.allocEntry adr with
        tc_tree := (SearchTree.insert BitVec.toNat adr s.brk s.tc_tree).1 } : TcSet Q).olsr_lock_tc_entry s.brk =
          some s₁ := by
      subst hst
      simp [olsr_lock_tc_entry, TcSet.setEntry, allocEntry, TcEntry.ofAddr]
    rw [TcSet.olsr_add_tc_entry, if_neg hmain]
    dsimp only
    rw [Fault.bind_of_some hinsert, Fault.bind_of_some hlock, Fault.bind_of_some hlookup, Fault.bind_of_some rfl,
      Fault.bind_of_some hrun]
    rfl
  · rw [hview, hview₁]
    simp [TcView.addNode, TcView.setNode, TcEntry.ofAddr, SearchTree.insert, place]

end TcSet

end MpOlsr
