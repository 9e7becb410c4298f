import Mathlib.Data.List.Nodup

/-!
# Multigraphs with aliases

A set of nodes, each known under its main address and a bounded number of aliases, with a sequence of links.  The
operations are partial in their arguments: an operation with an address that nobody owns changes nothing.  Run on
addresses that are not shared, the operations keep the graph well formed (`WF`).
-/

/-- Nodes by their main addresses, aliases with the main addresses, and links, the most recent first. -/
structure Multigraph (α κ : Type) where
  nodes : List α
  aliases : List (α × α)
  links : List (α × α × κ)
  deriving DecidableEq

namespace Multigraph

variable {α κ : Type} [DecidableEq α] {G : Multigraph α κ} {k : ℕ}

def empty : Multigraph α κ := ⟨[], [], []⟩

/-- The node that an address belongs to. -/
def owner (G : Multigraph α κ) (a : α) : Option α :=
  if a ∈ G.nodes then some a else (G.aliases.find? fun p => p.1 = a).map Prod.snd

def addNode (G : Multigraph α κ) (a : α) : Multigraph α κ :=
  match G.owner a with
  | some _ => G
  | none => { G with nodes := a :: G.nodes }

/-- Remove a node with its aliases and all its links. -/
def removeNode (G : Multigraph α κ) (a : α) : Multigraph α κ :=
  match G.owner a with
  | none => G
  | some n => ⟨G.nodes.filter (· ≠ n), G.aliases.filter (·.2 ≠ n), G.links.filter fun l => l.1 ≠ n ∧ l.2.1 ≠ n⟩

/-- Add an alias, unless the node has `k` of them already. -/
def addAlias (k : ℕ) (G : Multigraph α κ) (a b : α) : Multigraph α κ :=
  match G.owner a with
  | none => G
  | some n => if G.aliases.countP (·.2 = n) < k then { G with aliases := (b, n) :: G.aliases } else G

def removeAlias (G : Multigraph α κ) (a b : α) : Multigraph α κ :=
  match G.owner a with
  | none => G
  | some _ => { G with aliases := G.aliases.filter (·.1 ≠ b) }

def addLink (G : Multigraph α κ) (s d : α) (c : κ) : Multigraph α κ :=
  match G.owner s, G.owner d with
  | some m, some n => { G with links := (m, n, c) :: G.links }
  | _, _ => G

/-- Remove the most recent link from the owner of `s` to the node with the main address `d`. -/
def removeLink (G : Multigraph α κ) (s d : α) : Multigraph α κ :=
  match G.owner s with
  | none => G
  | some m => { G with links := G.links.eraseP fun l => l.1 = m ∧ l.2.1 = d }

/-- Every address has one owner, a node has at most `k` aliases, and links have their ends among the nodes. -/
structure WF (k : ℕ) (G : Multigraph α κ) : Prop where
  nodes : G.nodes.Nodup
  aliases : (G.aliases.map Prod.fst).Nodup
  main : ∀ p ∈ G.aliases, p.1 ∉ G.nodes
  owned : ∀ p ∈ G.aliases, p.2 ∈ G.nodes
  bound : ∀ n, G.aliases.countP (·.2 = n) ≤ k
  ends : ∀ l ∈ G.links, l.1 ∈ G.nodes ∧ l.2.1 ∈ G.nodes

theorem WF.empty : WF k (empty : Multigraph α κ) :=
  ⟨List.nodup_nil, List.nodup_nil, by simp [Multigraph.empty], by simp [Multigraph.empty], by simp [Multigraph.empty],
    by simp [Multigraph.empty]⟩

theorem owner_eq_none {a : α} : G.owner a = none ↔ a ∉ G.nodes ∧ ∀ p ∈ G.aliases, p.1 ≠ a := by
  rw [owner]
  by_cases ha : a ∈ G.nodes
  · simp [ha]
  · simp [ha, List.find?_eq_none]

theorem WF.owner_mem (h : WF k G) {a n : α} (ha : G.owner a = some n) : n ∈ G.nodes := by
  rw [owner] at ha
  by_cases hmem : a ∈ G.nodes
  · rw [if_pos hmem] at ha
    exact Option.some_inj.1 ha ▸ hmem
  · rw [if_neg hmem] at ha
    obtain ⟨p, hp, rfl⟩ := Option.map_eq_some_iff.1 ha
    exact h.owned p (List.mem_of_find?_eq_some hp)

theorem WF.addNode (h : WF k G) (a : α) : WF k (G.addNode a) := by
  rw [Multigraph.addNode]
  cases ha : G.owner a with
  | some n => exact h
  | none =>
    obtain ⟨hnode, halias⟩ := owner_eq_none.1 ha
    refine ⟨List.nodup_cons.2 ⟨hnode, h.nodes⟩, h.aliases, ?_, ?_, h.bound, ?_⟩
    · intro p hp hmem
      rcases List.mem_cons.1 hmem with hpa | hmem
      · exact halias p hp hpa
      · exact h.main p hp hmem
    · exact fun p hp => List.mem_cons_of_mem _ (h.owned p hp)
    · exact fun l hl => ⟨List.mem_cons_of_mem _ (h.ends l hl).1, List.mem_cons_of_mem _ (h.ends l hl).2⟩

theorem WF.removeNode (h : WF k G) (a : α) : WF k (G.removeNode a) := by
  rw [Multigraph.removeNode]
  cases ha : G.owner a with
  | none => exact h
  | some n =>
    refine ⟨h.nodes.filter _, h.aliases.sublist (List.filter_sublist.map _), ?_, ?_, ?_, ?_⟩
    · intro p hp hmem
      exact h.main p (List.mem_filter.1 hp).1 (List.mem_filter.1 hmem).1
    · intro p hp
      obtain ⟨hp, hpn⟩ := List.mem_filter.1 hp
      exact List.mem_filter.2 ⟨h.owned p hp, hpn⟩
    · exact fun m => Nat.le_trans (List.Sublist.countP_le List.filter_sublist) (h.bound m)
    · intro l hl
      obtain ⟨hl, hln⟩ := List.mem_filter.1 hl
      have hln := of_decide_eq_true hln
      exact ⟨List.mem_filter.2 ⟨(h.ends l hl).1, decide_eq_true hln.1⟩,
        List.mem_filter.2 ⟨(h.ends l hl).2, decide_eq_true hln.2⟩⟩

/-- An alias must be an address that nobody owns. -/
theorem WF.addAlias (h : WF k G) {a b : α} (hb : G.owner b = none) : WF k (G.addAlias k a b) := by
  rw [Multigraph.addAlias]
  cases ha : G.owner a with
  | none => exact h
  | some n =>
    show WF k (if _ then _ else _)
    split
    · next hlt =>
      obtain ⟨hnode, halias⟩ := owner_eq_none.1 hb
      refine ⟨h.nodes, ?_, ?_, ?_, ?_, h.ends⟩
      · rw [List.map_cons, List.nodup_cons]
        refine ⟨fun hmem => ?_, h.aliases⟩
        obtain ⟨p, hp, hpb⟩ := List.mem_map.1 hmem
        exact halias p hp hpb
      · intro p hp
        rcases List.mem_cons.1 hp with rfl | hp
        · exact hnode
        · exact h.main p hp
      · intro p hp
        rcases List.mem_cons.1 hp with rfl | hp
        · exact h.owner_mem ha
        · exact h.owned p hp
      · intro m
        rw [List.countP_cons]
        by_cases hnm : n = m
        · subst hnm
          rw [if_pos (decide_eq_true rfl)]
          exact hlt
        · simpa [hnm] using h.bound m
    · exact h

theorem WF.removeAlias (h : WF k G) (a b : α) : WF k (G.removeAlias a b) := by
  rw [Multigraph.removeAlias]
  cases ha : G.owner a with
  | none => exact h
  | some n =>
    exact ⟨h.nodes, h.aliases.sublist (List.filter_sublist.map _), fun p hp => h.main p (List.mem_filter.1 hp).1,
      fun p hp => h.owned p (List.mem_filter.1 hp).1, fun m => Nat.le_trans (List.Sublist.countP_le List.filter_sublist) (h.bound m),
      h.ends⟩

theorem WF.addLink (h : WF k G) (s d : α) (c : κ) : WF k (G.addLink s d c) := by
  rw [Multigraph.addLink]
  cases hs : G.owner s with
  | none => exact h
  | some m =>
    cases hd : G.owner d with
    | none => exact h
    | some n =>
      refine ⟨h.nodes, h.aliases, h.main, h.owned, h.bound, ?_⟩
      intro l hl
      rcases List.mem_cons.1 hl with rfl | hl
      · exact ⟨h.owner_mem hs, h.owner_mem hd⟩
      · exact h.ends l hl

theorem WF.removeLink (h : WF k G) (s d : α) : WF k (G.removeLink s d) := by
  rw [Multigraph.removeLink]
  cases hs : G.owner s with
  | none => exact h
  | some m => exact ⟨h.nodes, h.aliases, h.main, h.owned, h.bound, fun l hl => h.ends l (List.mem_of_mem_eraseP hl)⟩

end Multigraph
