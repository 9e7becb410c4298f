import MpOlsr.Lib.MarkSweep
import MpOlsr.Lib.Multigraph

/-!
# Updates of a multigraph

A multigraph that is told what to add and what to remove.  An update is safe if it gives no address a second owner and
takes an alias only from its own node; safe updates keep the multigraph well formed (`Leads.wf`).  What nodes and links,
aliases and removals lead to, when they are told one after the other, is in `leads_additions`, `leads_addAliases` and
`WF.leads_removals`.
-/

namespace Multigraph

open MarkSweep

/-- What a multigraph is told. -/
inductive Update (α κ : Type) where
  | addNode (a : α)
  | removeNode (a : α)
  | addLink (s d : α) (c : κ)
  | removeLink (s d : α)
  | addAlias (a b : α)
  | removeAlias (a b : α)

variable {α κ : Type} [DecidableEq α] {G H : Multigraph α κ} {k : ℕ}

/-- Take an update; a node has at most `k` aliases. -/
def update (k : ℕ) (G : Multigraph α κ) : Update α κ → Multigraph α κ
  | .addNode a => G.addNode a
  | .removeNode a => G.removeNode a
  | .addLink s d c => G.addLink s d c
  | .removeLink s d => G.removeLink s d
  | .addAlias a b => G.addAlias k a b
  | .removeAlias a b => G.removeAlias a b

/-- The update gives no address a second owner, and takes an alias only from its own node. -/
def Safe (G : Multigraph α κ) : Update α κ → Prop
  | .addAlias a b => G.owner a = none ∨ G.owner b = none
  | .removeAlias a b => ∀ n, G.owner a = some n → G.owner b = none ∨ (b, n) ∈ G.aliases
  | _ => True

/-- Updates that are safe when their turn comes. -/
inductive Leads (k : ℕ) : Multigraph α κ → List (Update α κ) → Multigraph α κ → Prop
  | nil {G : Multigraph α κ} : Leads k G [] G
  | cons {G H : Multigraph α κ} {u : Update α κ} {us : List (Update α κ)} (hu : Safe G u)
    (h : Leads k (G.update k u) us H) : Leads k G (u :: us) H

/-- The ends of the links. -/
def ends (G : Multigraph α κ) : List (α × α) := G.links.map fun l => (l.1, l.2.1)

/-- The address is no alias. -/
def Free (G : Multigraph α κ) (a : α) : Prop := ∀ p ∈ G.aliases, p.1 ≠ a

theorem WF.update (h : WF k G) {u : Update α κ} (hu : Safe G u) : WF k (G.update k u) := by
  cases u with
  | addNode a => exact h.addNode a
  | removeNode a => exact h.removeNode a
  | addLink s d c => exact h.addLink s d c
  | removeLink s d => exact h.removeLink s d
  | addAlias a b =>
    rcases hu with ha | hb
    · rw [Multigraph.update, Multigraph.addAlias, ha]
      exact h
    · exact h.addAlias hb
  | removeAlias a b => exact h.removeAlias a b

theorem Leads.wf {us : List (Update α κ)} (h : Leads k G us H) (hwf : WF k G) : WF k H := by
  induction h with
  | nil => exact hwf
  | cons hu _ ih => exact ih (hwf.update hu)

theorem Leads.append {us us' : List (Update α κ)} {I : Multigraph α κ} (h : Leads k G us H) (h' : Leads k H us' I) :
    Leads k G (us ++ us') I := by
  induction h with
  | nil => exact h'
  | cons hu _ ih => exact .cons hu (ih h')

/-! ### Owners -/

theorem owner_of_mem {a : α} (ha : a ∈ G.nodes) : G.owner a = some a := if_pos ha

theorem owner_of_free {a : α} (ha : G.Free a) (hn : a ∉ G.nodes) : G.owner a = none := owner_eq_none.2 ⟨hn, ha⟩

theorem eq_of_owner {a n : α} (ha : G.Free a) (hn : G.owner a = some n) : n = a := by
  by_cases hmem : a ∈ G.nodes
  · rw [owner_of_mem hmem] at hn
    exact (Option.some_inj.1 hn).symm
  · rw [owner_of_free ha hmem] at hn
    cases hn

theorem WF.alias_unique (h : WF k G) {b m m' : α} (hm : (b, m) ∈ G.aliases) (hm' : (b, m') ∈ G.aliases) : m = m' :=
  congrArg Prod.snd (List.inj_on_of_nodup_map h.aliases hm hm' rfl)

/-! ### One addition -/

@[simp]
theorem addNode_links (a : α) : (G.addNode a).links = G.links := by
  rw [addNode]
  cases G.owner a <;> rfl

@[simp]
theorem addNode_aliases (a : α) : (G.addNode a).aliases = G.aliases := by
  rw [addNode]
  cases G.owner a <;> rfl

theorem mem_addNode {a x : α} (ha : G.Free a) : x ∈ (G.addNode a).nodes ↔ x = a ∨ x ∈ G.nodes := by
  rw [addNode]
  by_cases hmem : a ∈ G.nodes
  · rw [owner_of_mem hmem]
    exact ⟨Or.inr, fun hx => hx.elim (fun hxa => hxa ▸ hmem) id⟩
  · rw [owner_of_free ha hmem]
    exact List.mem_cons

@[simp]
theorem addLink_nodes (s d : α) (c : κ) : (G.addLink s d c).nodes = G.nodes := by
  rw [addLink]
  cases G.owner s <;> cases G.owner d <;> rfl

@[simp]
theorem addLink_aliases (s d : α) (c : κ) : (G.addLink s d c).aliases = G.aliases := by
  rw [addLink]
  cases G.owner s <;> cases G.owner d <;> rfl

theorem ends_addLink {s d : α} (hs : s ∈ G.nodes) (hd : d ∈ G.nodes) (c : κ) :
    (G.addLink s d c).ends = (s, d) :: G.ends := by
  rw [addLink, owner_of_mem hs, owner_of_mem hd]
  rfl

@[simp]
theorem addAlias_nodes (a b : α) : (G.addAlias k a b).nodes = G.nodes := by
  rw [addAlias]
  cases G.owner a with
  | none => rfl
  | some n => exact (apply_ite Multigraph.nodes _ _ _).trans (ite_self _)

@[simp]
theorem addAlias_links (a b : α) : (G.addAlias k a b).links = G.links := by
  rw [addAlias]
  cases G.owner a with
  | none => rfl
  | some n => exact (apply_ite Multigraph.links _ _ _).trans (ite_self _)

/-- An alias of an address that is not registered is ignored. -/
theorem addAlias_unknown {a : α} (ha : G.Free a) (hn : a ∉ G.nodes) (b : α) : G.addAlias k a b = G := by
  rw [addAlias, owner_of_free ha hn]

/-- An alias of a node is added if there is room. -/
theorem addAlias_known {a : α} (hn : a ∈ G.nodes) (b : α) : (G.addAlias k a b).aliases =
    if G.aliases.countP (·.2 = a) < k then (b, a) :: G.aliases else G.aliases := by
  rw [addAlias, owner_of_mem hn]
  exact apply_ite Multigraph.aliases _ _ _

/-! ### Additions -/

/-- What is told of edges that are touched one after the other, each with its ends. -/
def additions (c : κ) (N : List (α × Bool)) (L : List ((α × α) × Bool)) : List (α × α) → List (Update α κ)
  | [] => []
  | e :: es => (newcomers N [e.1, e.2]).map .addNode ++ (newcomers L [e]).map (fun e => .addLink e.1 e.2 c) ++
      additions c (touch (touch N e.1) e.2) (touch L e) es

omit [DecidableEq α] in
theorem Free.congr {a : α} (h : H.aliases = G.aliases) : H.Free a ↔ G.Free a := by
  rw [Free, Free, h]

/-- Nodes that are told become nodes. -/
theorem leads_addNodes {as : List α} (hfree : ∀ a ∈ as, G.Free a) : ∃ H, Leads k G (as.map .addNode) H ∧
    H.links = G.links ∧ H.aliases = G.aliases ∧ ∀ x, x ∈ H.nodes ↔ x ∈ as ∨ x ∈ G.nodes := by
  induction as generalizing G with
  | nil => exact ⟨G, .nil, rfl, rfl, by simp⟩
  | cons a as ih =>
    have hfree' : ∀ x ∈ as, (G.addNode a).Free x := fun x hx =>
      (Free.congr (addNode_aliases a)).2 (hfree x (List.mem_cons_of_mem _ hx))
    obtain ⟨H, hH, hlinks, haliases, hnodes⟩ := ih hfree'
    refine ⟨H, .cons trivial hH, hlinks.trans (addNode_links a), haliases.trans (addNode_aliases a), fun x => ?_⟩
    rw [hnodes, mem_addNode (hfree a List.mem_cons_self), List.mem_cons]
    tauto

/-- Links between nodes that are told become links. -/
theorem leads_addLinks {es : List (α × α)} (c : κ) (hends : ∀ e ∈ es, e.1 ∈ G.nodes ∧ e.2 ∈ G.nodes) : ∃ H,
    Leads k G (es.map fun e => .addLink e.1 e.2 c) H ∧ H.nodes = G.nodes ∧ H.aliases = G.aliases ∧
      H.ends = es.reverse ++ G.ends := by
  induction es generalizing G with
  | nil => exact ⟨G, .nil, rfl, rfl, rfl⟩
  | cons e es ih =>
    have he := hends e List.mem_cons_self
    have hends' : ∀ e' ∈ es, e'.1 ∈ (G.addLink e.1 e.2 c).nodes ∧ e'.2 ∈ (G.addLink e.1 e.2 c).nodes := by
      intro e' he'
      rw [addLink_nodes]
      exact hends e' (List.mem_cons_of_mem _ he')
    obtain ⟨H, hH, hnodes, haliases, hlinks⟩ := ih hends'
    refine ⟨H, .cons trivial hH, hnodes.trans (addLink_nodes ..), haliases.trans (addLink_aliases ..), ?_⟩
    rw [hlinks, ends_addLink he.1 he.2]
    simp

/-- Edges that are touched become links, and their ends nodes. -/
theorem leads_additions {c : κ} {N : List (α × Bool)} {L : List ((α × α) × Bool)} {es : List (α × α)}
    (hN : ∀ a ∈ keys N, a ∈ G.nodes) (honce : G.ends.Nodup) (hL : ∀ e, e ∈ G.ends ↔ e ∈ keys L)
    (hfree : ∀ e ∈ es, G.Free e.1 ∧ G.Free e.2) : ∃ H, Leads k G (additions c N L es) H ∧ H.aliases = G.aliases ∧
      H.ends.Nodup ∧ (∀ e, e ∈ H.ends ↔ e ∈ es ∨ e ∈ G.ends) ∧
      ∀ a, a ∈ H.nodes ↔ (∃ e ∈ es, a = e.1 ∨ a = e.2) ∨ a ∈ G.nodes := by
  induction es generalizing G N L with
  | nil => exact ⟨G, .nil, rfl, honce, by simp, by simp⟩
  | cons e es ih =>
    obtain ⟨hs, hd⟩ := hfree e List.mem_cons_self
    have hfreeNew : ∀ a ∈ newcomers N [e.1, e.2], G.Free a := by
      intro a ha
      have hmem := (mem_newcomers.1 ha).1
      simp only [List.mem_cons, List.not_mem_nil, or_false] at hmem
      rcases hmem with rfl | rfl
      · exact hs
      · exact hd
    obtain ⟨G₁, h₁, hlinks₁, haliases₁, hnodes₁⟩ := leads_addNodes (k := k) hfreeNew
    have hmem₁ : ∀ a, a ∈ G₁.nodes ↔ (a = e.1 ∨ a = e.2) ∨ a ∈ G.nodes := by
      intro a
      rw [hnodes₁, mem_newcomers]
      simp only [List.mem_cons, List.not_mem_nil, or_false]
      have := hN a
      tauto
    have hends₁ : G₁.ends = G.ends := by rw [ends, hlinks₁, ends]
    have hknown : ∀ e' ∈ newcomers L [e], e'.1 ∈ G₁.nodes ∧ e'.2 ∈ G₁.nodes := by
      intro e' he'
      obtain rfl : e' = e := by simpa using (mem_newcomers.1 he').1
      exact ⟨(hmem₁ _).2 (Or.inl (Or.inl rfl)), (hmem₁ _).2 (Or.inl (Or.inr rfl))⟩
    obtain ⟨G₂, h₂, hnodes₂, haliases₂, hends₂⟩ := leads_addLinks (k := k) c hknown
    have hmem₂ : ∀ e', e' ∈ G₂.ends ↔ e' = e ∨ e' ∈ G.ends := by
      intro e'
      rw [hends₂, hends₁, List.mem_append, List.mem_reverse, mem_newcomers, List.mem_singleton, ← hL]
      tauto
    have honce₂ : G₂.ends.Nodup := by
      rw [hends₂, hends₁]
      by_cases he : e ∈ keys L
      · simpa [newcomers, he] using honce
      · simpa [newcomers, he, hL] using honce
    obtain ⟨H, hH, haliases, honceH, hendsH, hnodesH⟩ := ih (G := G₂) (N := touch (touch N e.1) e.2) (L := touch L e)
      (fun a ha => by
        rw [hnodes₂, hmem₁]
        rw [mem_keys_touch, mem_keys_touch] at ha
        have := hN a
        tauto)
      honce₂ (fun e' => by rw [hmem₂, hL, mem_keys_touch])
      fun e' he' => by
        rw [Free.congr (haliases₂.trans haliases₁), Free.congr (haliases₂.trans haliases₁)]
        exact hfree e' (List.mem_cons_of_mem _ he')
    refine ⟨H, (h₁.append h₂).append hH, haliases.trans (haliases₂.trans haliases₁), honceH, fun e' => ?_, fun a => ?_⟩
    · rw [hendsH, hmem₂, List.mem_cons]
      tauto
    · rw [hnodesH, hnodes₂, hmem₁]
      simp only [List.mem_cons, exists_eq_or_imp]
      rw [← or_assoc]
      exact or_congr_left or_comm

/-! ### Aliases -/

/-- Aliases that are told become aliases of their nodes, all of them where there is room. -/
theorem leads_addAliases {qs : List (α × α)} (hnodup : qs.Nodup) (hfree : ∀ q ∈ qs, G.Free q.1)
    (hnew : ∀ q ∈ qs, q.1 ∈ G.nodes → q.2 ∉ G.nodes ∧ G.Free q.2)
    (hsingle : ∀ q ∈ qs, ∀ q' ∈ qs, q.1 ∈ G.nodes → q'.1 ∈ G.nodes → q.2 = q'.2 → q.1 = q'.1)
    (hstray : ∀ q ∈ qs, q.1 ∈ G.nodes → ∀ q' ∈ qs, q'.1 ≠ q.2) : ∃ H,
    Leads k G (qs.map fun q => .addAlias q.1 q.2) H ∧ H.nodes = G.nodes ∧ H.links = G.links ∧
      G.aliases ⊆ H.aliases ∧ (∀ p ∈ H.aliases, p ∈ G.aliases ∨ p.swap ∈ qs ∧ p.2 ∈ G.nodes) ∧
      ∀ m ∈ G.nodes, G.aliases.countP (·.2 = m) + qs.countP (·.1 = m) ≤ k → ∀ q ∈ qs, q.1 = m → q.swap ∈ H.aliases := by
  induction qs generalizing G with
  | nil => exact ⟨G, .nil, rfl, rfl, List.Subset.refl _, fun p hp => Or.inl hp, by simp⟩
  | cons q qs ih =>
    obtain ⟨hq, hnodup⟩ := List.nodup_cons.1 hnodup
    have hmem : ∀ {q'}, q' ∈ qs → q' ∈ q :: qs := fun hq' => List.mem_cons_of_mem _ hq'
    have hhead : q ∈ q :: qs := List.mem_cons_self
    let G₁ := G.addAlias k q.1 q.2
    have hnodes₁ : G₁.nodes = G.nodes := addAlias_nodes ..
    -- the new alias is the only one that may come
    have hsub : ∀ p ∈ G₁.aliases, p ∈ G.aliases ∨ p = q.swap ∧ q.1 ∈ G.nodes := by
      intro p hp
      by_cases hk : q.1 ∈ G.nodes
      · rw [addAlias_known hk] at hp
        split at hp
        · exact (List.mem_cons.1 hp).symm.imp_right fun h => ⟨h, hk⟩
        · exact Or.inl hp
      · rw [show G₁ = G from addAlias_unknown (hfree q hhead) hk q.2] at hp
        exact Or.inl hp
    have hkeep : G.aliases ⊆ G₁.aliases := by
      by_cases hk : q.1 ∈ G.nodes
      · rw [addAlias_known hk]
        split
        · exact List.subset_cons_self ..
        · exact List.Subset.refl _
      · rw [show G₁ = G from addAlias_unknown (hfree q hhead) hk q.2]
        exact List.Subset.refl _
    have hsafe : Safe G (.addAlias q.1 q.2) := by
      by_cases hk : q.1 ∈ G.nodes
      · exact Or.inr (owner_of_free (hnew q hhead hk).2 (hnew q hhead hk).1)
      · exact Or.inl (owner_of_free (hfree q hhead) hk)
    have hfree₁ : ∀ q' ∈ qs, G₁.Free q'.1 := by
      intro q' hq' p hp
      rcases hsub p hp with hp | ⟨rfl, hk⟩
      · exact hfree q' (hmem hq') p hp
      · exact (hstray q hhead hk q' (hmem hq')).symm
    have hnew₁ : ∀ q' ∈ qs, q'.1 ∈ G₁.nodes → q'.2 ∉ G₁.nodes ∧ G₁.Free q'.2 := by
      intro q' hq' hk'
      rw [hnodes₁] at hk' ⊢
      refine ⟨(hnew q' (hmem hq') hk').1, fun p hp => ?_⟩
      rcases hsub p hp with hp | ⟨rfl, hk⟩
      · exact (hnew q' (hmem hq') hk').2 p hp
      · intro heq
        have hmain := hsingle q hhead q' (hmem hq') hk hk' heq
        exact hq (Prod.ext hmain heq ▸ hq')
    obtain ⟨H, hH, hnodes, hlinks, hkept, hfrom, hroom⟩ := ih hnodup hfree₁ hnew₁
      (fun x hx y hy hkx hky => hsingle x (hmem hx) y (hmem hy) (hnodes₁ ▸ hkx) (hnodes₁ ▸ hky))
      fun x hx hkx y hy => hstray x (hmem hx) (hnodes₁ ▸ hkx) y (hmem hy)
    refine ⟨H, .cons hsafe hH, hnodes.trans hnodes₁, hlinks.trans (addAlias_links ..),
      List.Subset.trans hkeep hkept, fun p hp => ?_, fun m hm hcount => ?_⟩
    · rcases hfrom p hp with hp | ⟨hp, hk⟩
      · rcases hsub p hp with hp | ⟨rfl, hk⟩
        · exact Or.inl hp
        · exact Or.inr ⟨by simp, hk⟩
      · exact Or.inr ⟨hmem hp, hnodes₁ ▸ hk⟩
    · -- the room for the aliases of `m` is taken by those that come
      have hcount₁ : G₁.aliases.countP (·.2 = m) + qs.countP (·.1 = m) ≤ k ∧ (q.1 = m → q.swap ∈ G₁.aliases) := by
        rw [List.countP_cons] at hcount
        by_cases hqm : q.1 = m
        · subst hqm
          have hlt : G.aliases.countP (·.2 = q.1) < k := by
            simp at hcount
            omega
          rw [addAlias_known hm, if_pos hlt, List.countP_cons]
          simp at hcount ⊢
          exact ⟨by omega, Or.inl rfl⟩
        · refine ⟨?_, fun h => absurd h hqm⟩
          have hsame : G₁.aliases.countP (·.2 = m) = G.aliases.countP (·.2 = m) := by
            by_cases hk : q.1 ∈ G.nodes
            · rw [addAlias_known hk]
              split
              · rw [List.countP_cons, if_neg (by simpa using hqm), Nat.add_zero]
              · rfl
            · rw [show G₁ = G from addAlias_unknown (hfree q hhead) hk q.2]
          simp [hqm] at hcount
          omega
      intro q' hq' hqm
      rcases List.mem_cons.1 hq' with rfl | hq'
      · exact hkept (hcount₁.2 hqm)
      · exact hroom m (hnodes₁ ▸ hm) hcount₁.1 q' hq' hqm

/-! ### Removals -/

/-- A removal that takes nothing from another node. -/
def Takes (G : Multigraph α κ) : Update α κ → Prop
  | .removeNode a => G.Free a
  | .removeLink s _ => G.Free s
  | .removeAlias a b => G.Free a ∧ (a ∈ G.nodes → b ∉ G.nodes ∧ ∀ m, (b, m) ∈ G.aliases → m = a)
  | _ => False

omit [DecidableEq α] in
theorem Takes.mono {u : Update α κ} (h : Takes G u) (hnodes : H.nodes ⊆ G.nodes) (haliases : H.aliases ⊆ G.aliases) :
    Takes H u := by
  have hfree : ∀ {a}, G.Free a → H.Free a := fun ha p hp => ha p (haliases hp)
  cases u with
  | removeNode a => exact hfree h
  | removeLink s d => exact hfree h
  | removeAlias a b =>
    refine ⟨hfree h.1, fun ha => ?_⟩
    obtain ⟨hb, hm⟩ := h.2 (hnodes ha)
    exact ⟨fun hbH => hb (hnodes hbH), fun m hmem => hm m (haliases hmem)⟩
  | addNode a => exact h
  | addLink s d c => exact h
  | addAlias a b => exact h

/-- What is left after removals. -/
structure Less (G : Multigraph α κ) (us : List (Update α κ)) (H : Multigraph α κ) : Prop where
  nodes : ∀ a, a ∈ H.nodes ↔ a ∈ G.nodes ∧ .removeNode a ∉ us
  once : H.ends.Nodup
  ends : ∀ e, e ∈ H.ends ↔ e ∈ G.ends ∧ .removeLink e.1 e.2 ∉ us ∧ .removeNode e.1 ∉ us ∧ .removeNode e.2 ∉ us
  aliases : ∀ b m, (b, m) ∈ H.aliases ↔ (b, m) ∈ G.aliases ∧ .removeAlias m b ∉ us ∧ .removeNode m ∉ us

theorem WF.ends_mem (h : WF k G) {e : α × α} (he : e ∈ G.ends) : e.1 ∈ G.nodes ∧ e.2 ∈ G.nodes := by
  obtain ⟨l, hl, rfl⟩ := List.mem_map.1 he
  exact h.ends l hl

omit [DecidableEq α] in
theorem Less.nil (honce : G.ends.Nodup) : Less G [] G :=
  ⟨by simp, honce, by simp, by simp⟩

/-- One removal. -/
theorem WF.less_removal (h : WF k G) (honce : G.ends.Nodup) {u : Update α κ} (hu : Takes G u) :
    Safe G u ∧ Less G [u] (G.update k u) := by
  cases u with
  | removeNode a =>
    refine ⟨trivial, ?_⟩
    rw [Multigraph.update, Multigraph.removeNode]
    by_cases ha : a ∈ G.nodes
    · rw [owner_of_mem ha]
      refine ⟨by simp, ?_, fun e => ?_, by simp⟩
      · exact List.Nodup.sublist (List.filter_sublist.map _) honce
      · rw [Multigraph.ends, Multigraph.ends, List.mem_map, List.mem_map]
        constructor
        · rintro ⟨l, hl, rfl⟩
          obtain ⟨hl, hne⟩ := List.mem_filter.1 hl
          simp only [decide_eq_true_eq] at hne
          exact ⟨⟨l, hl, rfl⟩, by simp, by simpa using hne.1, by simpa using hne.2⟩
        · rintro ⟨⟨l, hl, rfl⟩, -, hne, hne'⟩
          exact ⟨l, List.mem_filter.2 ⟨hl, by simpa using ⟨by simpa using hne, by simpa using hne'⟩⟩, rfl⟩
    · rw [owner_of_free hu ha]
      refine ⟨fun x => ?_, honce, fun e => ?_, fun b m => ?_⟩
      · exact ⟨fun hx => ⟨hx, by simpa using fun hxa : x = a => ha (hxa ▸ hx)⟩, And.left⟩
      · refine ⟨fun he => ⟨he, by simp, ?_, ?_⟩, And.left⟩
        · simpa using fun hxa : e.1 = a => ha (hxa ▸ (h.ends_mem he).1)
        · simpa using fun hxa : e.2 = a => ha (hxa ▸ (h.ends_mem he).2)
      · exact ⟨fun hm => ⟨hm, by simp, by simpa using fun hma : m = a => ha (hma ▸ h.owned _ hm)⟩, And.left⟩
  | removeLink s d =>
    refine ⟨trivial, ?_⟩
    rw [Multigraph.update, Multigraph.removeLink]
    by_cases hs : s ∈ G.nodes
    · rw [owner_of_mem hs]
      have herase : (G.links.eraseP fun l => l.1 = s ∧ l.2.1 = d).map (fun l => (l.1, l.2.1)) =
          G.ends.erase (s, d) := by
        rw [List.erase_eq_eraseP, Multigraph.ends, List.eraseP_map]
        congr 2
        funext l
        rw [Bool.eq_iff_iff, Function.comp_apply, decide_eq_true_eq, beq_iff_eq, Prod.mk.injEq]
        exact and_congr eq_comm eq_comm
      refine ⟨by simp, ?_, fun e => ?_, by simp⟩
      · show (List.map _ _).Nodup
        rw [herase]
        exact honce.erase _
      · show e ∈ List.map _ _ ↔ _
        rw [herase, honce.mem_erase_iff, and_comm, ne_eq, Prod.ext_iff]
        simp
    · rw [owner_of_free hu hs]
      refine ⟨by simp, honce, fun e => ⟨fun he => ⟨he, ?_, by simp, by simp⟩, And.left⟩, by simp⟩
      simpa using fun hes : e.1 = s => absurd (hes ▸ (h.ends_mem he).1) hs
  | removeAlias a b =>
    obtain ⟨hfree, hown⟩ := hu
    rw [Multigraph.update, Multigraph.removeAlias]
    by_cases ha : a ∈ G.nodes
    · obtain ⟨hb, hmain⟩ := hown ha
      refine ⟨fun n hn => ?_, ?_⟩
      · obtain rfl := eq_of_owner hfree hn
        by_cases halias : (b, n) ∈ G.aliases
        · exact Or.inr halias
        · refine Or.inl (owner_of_free (fun p hp hpb => halias ?_) hb)
          subst hpb
          exact hmain p.2 hp ▸ hp
      · rw [owner_of_mem ha]
        refine ⟨by simp, honce, fun e => ⟨fun he => ⟨he, by simp, by simp, by simp⟩, And.left⟩, fun b' m => ?_⟩
        rw [List.mem_filter]
        simp only [decide_eq_true_eq, List.mem_singleton, Update.removeAlias.injEq, reduceCtorEq, not_false_eq_true,
          and_true]
        refine and_congr_right fun hm => ⟨fun hne hh => hne hh.2, fun hne hh => ?_⟩
        subst hh
        exact hne ⟨hmain m hm, rfl⟩
    · have hnone : G.owner a = none := owner_of_free hfree ha
      refine ⟨fun n hn => ?_, ?_⟩
      · rw [hnone] at hn
        cases hn
      · rw [hnone]
        refine ⟨by simp, honce, by simp, fun b' m => ⟨fun hm => ⟨hm, ?_, by simp⟩, And.left⟩⟩
        simpa using fun hma : m = a => absurd (hma ▸ h.owned _ hm) ha
  | addNode a => exact hu.elim
  | addLink s d c => exact hu.elim
  | addAlias a b => exact hu.elim

omit [DecidableEq α] in
theorem Less.cons {I : Multigraph α κ} {u : Update α κ} {us : List (Update α κ)} (h : Less G [u] H) (h' : Less H us I) :
    Less G (u :: us) I := by
  refine ⟨fun a => ?_, h'.once, fun e => ?_, fun b m => ?_⟩
  · rw [h'.nodes, h.nodes]
    simp only [List.mem_cons, List.not_mem_nil, or_false, not_or]
    tauto
  · rw [h'.ends, h.ends]
    simp only [List.mem_cons, List.not_mem_nil, or_false, not_or]
    tauto
  · rw [h'.aliases, h.aliases]
    simp only [List.mem_cons, List.not_mem_nil, or_false, not_or]
    tauto

/-- Removals, in any order. -/
theorem WF.leads_removals (h : WF k G) (honce : G.ends.Nodup) {us : List (Update α κ)} (hus : ∀ u ∈ us, Takes G u) :
    ∃ H, Leads k G us H ∧ Less G us H := by
  induction us generalizing G with
  | nil => exact ⟨G, .nil, .nil honce⟩
  | cons u us ih =>
    obtain ⟨hsafe, hless⟩ := h.less_removal honce (hus u List.mem_cons_self)
    have hnodes : (G.update k u).nodes ⊆ G.nodes := fun a ha => ((hless.nodes a).1 ha).1
    have haliases : (G.update k u).aliases ⊆ G.aliases := fun p hp => ((hless.aliases p.1 p.2).1 hp).1
    obtain ⟨H, hH, hless'⟩ := ih (h.update hsafe) hless.once fun u' hu' =>
      (hus u' (List.mem_cons_of_mem _ hu')).mono hnodes haliases
    exact ⟨H, .cons hsafe hH, hless.cons hless'⟩

/-! ### Other names -/

variable {β ι : Type} [DecidableEq β] {f : α → β} {g : κ → ι}

omit [DecidableEq α] [DecidableEq β] in
/-- Rename the addresses and the labels of the links. -/
def map (f : α → β) (g : κ → ι) (G : Multigraph α κ) : Multigraph β ι :=
  ⟨G.nodes.map f, G.aliases.map fun p => (f p.1, f p.2), G.links.map fun l => (f l.1, f l.2.1, g l.2.2)⟩

omit [DecidableEq α] [DecidableEq β] in
def Update.map (f : α → β) (g : κ → ι) : Update α κ → Update β ι
  | .addNode a => .addNode (f a)
  | .removeNode a => .removeNode (f a)
  | .addLink s d c => .addLink (f s) (f d) (g c)
  | .removeLink s d => .removeLink (f s) (f d)
  | .addAlias a b => .addAlias (f a) (f b)
  | .removeAlias a b => .removeAlias (f a) (f b)

theorem owner_map (hf : Function.Injective f) (a : α) : (G.map f g).owner (f a) = (G.owner a).map f := by
  rw [owner, owner, map]
  by_cases ha : a ∈ G.nodes
  · rw [if_pos ha, if_pos (List.mem_map_of_mem ha)]
    rfl
  · have hp : ((fun p : β × β => decide (p.1 = f a)) ∘ fun p : α × α => (f p.1, f p.2)) = fun p => decide (p.1 = a) := by
      funext p
      simp [hf.eq_iff]
    rw [if_neg ha, if_neg fun hmem => ha ((List.mem_map_of_injective hf).1 hmem), List.find?_map, hp, Option.map_map,
      Option.map_map]
    rfl

theorem update_map (hf : Function.Injective f) (u : Update α κ) :
    (G.update k u).map f g = (G.map f g).update k (u.map f g) := by
  cases u with
  | addNode a =>
    rw [update, Update.map, update, addNode, addNode, owner_map hf]
    cases G.owner a <;> rfl
  | removeNode a =>
    rw [update, Update.map, update, removeNode, removeNode, owner_map hf]
    cases G.owner a with
    | none => rfl
    | some n => simp [map, List.filter_map, Function.comp_def, hf.eq_iff]
  | addLink s d c =>
    rw [update, Update.map, update, addLink, addLink, owner_map hf, owner_map hf]
    cases G.owner s <;> cases G.owner d <;> rfl
  | removeLink s d =>
    rw [update, Update.map, update, removeLink, removeLink, owner_map hf]
    cases G.owner s with
    | none => rfl
    | some m => simp [map, List.eraseP_map, Function.comp_def, hf.eq_iff]
  | addAlias a b =>
    rw [update, Update.map, update, addAlias, addAlias, owner_map hf]
    cases G.owner a with
    | none => rfl
    | some n =>
      have hcount : (G.map f g).aliases.countP (·.2 = f n) = G.aliases.countP (·.2 = n) := by
        simp [map, List.countP_map, Function.comp_def, hf.eq_iff]
      simp only [Option.map_some, hcount]
      split <;> rfl
  | removeAlias a b =>
    rw [update, Update.map, update, removeAlias, removeAlias, owner_map hf]
    cases G.owner a with
    | none => rfl
    | some n => simp [map, List.filter_map, Function.comp_def, hf.eq_iff]

theorem Safe.map (hf : Function.Injective f) {u : Update α κ} (hu : Safe G u) : Safe (G.map f g) (u.map f g) := by
  cases u with
  | addAlias a b =>
    rw [Update.map, Safe, owner_map hf, owner_map hf, Option.map_eq_none_iff, Option.map_eq_none_iff]
    exact hu
  | removeAlias a b =>
    intro n hn
    rw [owner_map hf] at hn ⊢
    obtain ⟨m, hm, rfl⟩ := Option.map_eq_some_iff.1 hn
    rcases hu m hm with hb | hb
    · rw [hb]
      exact Or.inl rfl
    · exact Or.inr (List.mem_map.2 ⟨_, hb, rfl⟩)
  | _ => trivial

end Multigraph
