import Mathlib.Data.List.Dedup
import Mathlib.Data.List.Perm.Subperm
import Mathlib.Data.Prod.Basic
import MpOlsr.Lib.Updates

/-!
# Replicas

A sender keeps nodes, links and aliases under marks, and after every round tells a replica what is new, and then, in
any order, what went.  As long as no address is shared, the replica has the nodes and the links of the sender, and no
other aliases (`Tracks.renewal`).  It has all of them if there was room, and no alias was told before its node
(`Follows.renewal`).
-/

namespace Multigraph

open MarkSweep

variable {α κ : Type} [DecidableEq α] {G H : Multigraph α κ} {k : ℕ}

/-- What a round takes away: links and nodes that were not touched, aliases that were not touched, and the aliases of
the nodes that go. -/
inductive Dropped (N : List α) (L M : List (α × α)) (N' : List α) (E A : List (α × α)) : Update α κ → Prop
  | link {s d : α} (h : (s, d) ∈ L) (he : (s, d) ∉ E) : Dropped N L M N' E A (.removeLink s d)
  | node {a : α} (h : a ∈ N) (ha : a ∉ N') : Dropped N L M N' E A (.removeNode a)
  | expired {a b : α} (h : (a, b) ∈ M) (hq : (a, b) ∉ A) : Dropped N L M N' E A (.removeAlias a b)
  | orphaned {a b : α} (h : (a, b) ∈ A) (hn : a ∈ N) (ha : a ∉ N') : Dropped N L M N' E A (.removeAlias a b)

/-- No address is shared: an alias of a known node is not known itself, has no other main address that is known, and is
the main address only of aliases that were told before and stay. -/
structure Apart (K : α → Prop) (M A : List (α × α)) : Prop where
  fresh : ∀ q ∈ M ++ A, K q.1 → ¬ K q.2
  single : ∀ q ∈ M ++ A, ∀ q' ∈ M ++ A, K q.1 → K q'.1 → q.2 = q'.2 → q.1 = q'.1
  stray : ∀ q ∈ M ++ A, K q.1 → ∀ q' ∈ M ++ A, q'.1 = q.2 → q' ∈ M ∧ q' ∈ A

set_option synthInstance.maxSize 400 in
instance apartDecidable (K : α → Prop) [DecidablePred K] (M A : List (α × α)) : Decidable (Apart K M A) :=
  decidable_of_iff ((∀ q ∈ M ++ A, K q.1 → ¬ K q.2) ∧
    (∀ q ∈ M ++ A, ∀ q' ∈ M ++ A, K q.1 → K q'.1 → q.2 = q'.2 → q.1 = q'.1) ∧
    ∀ q ∈ M ++ A, K q.1 → ∀ q' ∈ M ++ A, q'.1 = q.2 → q' ∈ M ∧ q' ∈ A)
    ⟨fun h => ⟨h.1, h.2.1, h.2.2⟩, fun h => ⟨h.fresh, h.single, h.stray⟩⟩

/-- The replica has the nodes and the links of the sender, each link once, and no other aliases. -/
structure Tracks (k : ℕ) (G : Multigraph α κ) (N : List α) (L M : List (α × α)) : Prop where
  wf : WF k G
  once : G.ends.Nodup
  nodes : N ⊆ G.nodes
  links : ∀ e, e ∈ G.ends ↔ e ∈ L
  aliases : ∀ p ∈ G.aliases, p.swap ∈ M

variable {c : κ} {N : List (α × Bool)} {L M : List ((α × α) × Bool)} {N' : List α} {E A L' M' : List (α × α)}
  {gone : List (Update α κ)}

/-- A round keeps the nodes and the links.  The aliases of a node come if there is room for them and they were not told
before. -/
theorem Tracks.renewal (h : Tracks k G (keys N) (keys L) (keys M))
    (hN' : ∀ a, a ∈ N' ↔ ∃ e ∈ E, a = e.1 ∨ a = e.2) (hL' : ∀ e, e ∈ L' ↔ e ∈ E)
    (hM' : ∀ q, q ∈ M' ↔ q ∈ A ∧ (q.1 ∈ keys N → q.1 ∈ N'))
    (hapart : Apart (fun a => a ∈ G.nodes ∨ a ∈ N') (keys M) A)
    (hgone : ∀ u, u ∈ gone ↔ Dropped (keys N) (keys L) (keys M) N' E A u) : ∃ H,
    Leads k G (additions c N L E ++ (newcomers M A).map (fun q => .addAlias q.1 q.2) ++ gone) H ∧
      Tracks k H N' L' M' ∧ (∀ a ∈ H.nodes, a ∈ N' ∨ a ∈ G.nodes ∧ a ∉ keys N) ∧
      ∀ q ∈ A, q.1 ∈ N' → (q ∈ keys M → q.swap ∈ G.aliases) →
        G.aliases.countP (·.2 = q.1) + (newcomers M A).countP (·.1 = q.1) ≤ k → q.swap ∈ H.aliases := by
  let K := fun a => a ∈ G.nodes ∨ a ∈ N'
  have hold : ∀ p ∈ G.aliases, p.swap ∈ keys M ++ A ∧ K p.2 := fun p hp =>
    ⟨List.mem_append_left _ (h.aliases p hp), Or.inl (h.wf.owned p hp)⟩
  have hnew : ∀ q ∈ newcomers M A, q ∈ keys M ++ A ∧ q ∉ keys M := fun q hq =>
    ⟨List.mem_append_right _ (mem_newcomers.1 hq).1, (mem_newcomers.1 hq).2⟩
  -- the nodes and the links that are new
  have hfree : ∀ a, K a → G.Free a := by
    intro a ha p hp hpa
    subst hpa
    exact hapart.fresh _ (hold p hp).1 (hold p hp).2 ha
  have hnew_ends : ∀ e ∈ E, G.Free e.1 ∧ G.Free e.2 := fun e he =>
    ⟨hfree _ (Or.inr ((hN' _).2 ⟨e, he, Or.inl rfl⟩)), hfree _ (Or.inr ((hN' _).2 ⟨e, he, Or.inr rfl⟩))⟩
  obtain ⟨G₁, h₁, haliases₁, honce₁, hends₁, hnodes₁⟩ :=
    leads_additions (k := k) (c := c) h.nodes h.once h.links hnew_ends
  have hK : ∀ a, a ∈ G₁.nodes ↔ K a := by
    intro a
    rw [hnodes₁, ← hN']
    exact or_comm
  have hfree₁ : ∀ {a}, G₁.Free a ↔ G.Free a := Free.congr haliases₁
  -- the aliases that are new
  obtain ⟨G₂, h₂, hnodes₂, hlinks₂, hkept, hfrom, hroom⟩ := leads_addAliases (k := k) (G := G₁)
    (nodup_newcomers : (newcomers M A).Nodup)
    (fun q hq => hfree₁.2 fun p hp hpq =>
      (hnew q hq).2 (hapart.stray _ (hold p hp).1 (hold p hp).2 q (hnew q hq).1 hpq.symm).1)
    (fun q hq hk => by
      rw [hK] at hk ⊢
      refine ⟨hapart.fresh q (hnew q hq).1 hk, hfree₁.2 fun p hp hpq => (hnew q hq).2 ?_⟩
      have hmain := hapart.single _ (hold p hp).1 q (hnew q hq).1 (hold p hp).2 hk hpq
      have hswap : p.swap = q := Prod.ext hmain hpq
      exact hswap ▸ h.aliases p hp)
    (fun q hq q' hq' hk hk' => hapart.single q (hnew q hq).1 q' (hnew q' hq').1 ((hK _).1 hk) ((hK _).1 hk'))
    fun q hq hk q' hq' heq =>
      (hnew q' hq').2 (hapart.stray q (hnew q hq).1 ((hK _).1 hk) q' (hnew q' hq').1 heq).1
  have hall : ∀ p ∈ G₂.aliases, p.swap ∈ keys M ++ A ∧ K p.2 := by
    intro p hp
    rcases hfrom p hp with hp | ⟨hp, hk⟩
    · exact hold p (haliases₁ ▸ hp)
    · exact ⟨(hnew _ hp).1, (hK _).1 hk⟩
  have hfree₂ : ∀ a, K a → G₂.Free a := by
    intro a ha p hp hpa
    subst hpa
    exact hapart.fresh _ (hall p hp).1 (hall p hp).2 ha
  have hends₂ : G₂.ends = G₁.ends := by rw [Multigraph.ends, hlinks₂, Multigraph.ends]
  have hwf₂ : WF k G₂ := h₂.wf (h₁.wf h.wf)
  -- what goes
  have hown : ∀ a b, (a, b) ∈ keys M ++ A → a ∈ G₂.nodes → b ∉ G₂.nodes ∧ ∀ m, (b, m) ∈ G₂.aliases → m = a := by
    intro a b hq hk
    rw [hnodes₂, hK] at hk ⊢
    refine ⟨hapart.fresh _ hq hk, fun m hm => ?_⟩
    exact hapart.single _ (hall _ hm).1 _ hq (hall _ hm).2 hk rfl
  have htakes : ∀ u ∈ gone, Takes G₂ u := by
    intro u hu
    cases (hgone u).1 hu with
    | link hl he => exact hfree₂ _ (Or.inl (h.wf.ends_mem ((h.links _).2 hl)).1)
    | node hn ha => exact hfree₂ _ (Or.inl (h.nodes hn))
    | @expired a b hm hq =>
      refine ⟨fun p hp hpa => hq ?_, hown a b (List.mem_append_left _ hm)⟩
      exact (hapart.stray _ (hall p hp).1 (hall p hp).2 (a, b) (List.mem_append_left _ hm) hpa.symm).2
    | @orphaned a b hm hn ha =>
      exact ⟨hfree₂ _ (Or.inl (h.nodes hn)), hown a b (List.mem_append_right _ hm)⟩
  obtain ⟨H, h₃, hless⟩ := hwf₂.leads_removals (hends₂ ▸ honce₁) htakes
  have hstays : ∀ a ∈ N', (.removeNode a : Update α κ) ∉ gone := by
    intro a ha hu
    cases (hgone _).1 hu with
    | node _ hnot => exact hnot ha
  refine ⟨H, (h₁.append h₂).append h₃, ⟨h₃.wf hwf₂, hless.once, fun a ha => ?_, fun e => ?_, fun p hp => ?_⟩,
    fun a ha => ?_, fun q hq hmain hM hcount => ?_⟩
  · rw [hless.nodes, hnodes₂, hK]
    exact ⟨Or.inr ha, hstays a ha⟩
  · rw [hless.ends, hends₂, hends₁, h.links, hL']
    constructor
    · rintro ⟨he | he, hkeep, -⟩
      · exact he
      · by_contra hnot
        exact hkeep ((hgone _).2 (.link he hnot))
    · intro he
      refine ⟨Or.inl he, fun hu => ?_, hstays _ ((hN' _).2 ⟨e, he, Or.inl rfl⟩), hstays _ ((hN' _).2 ⟨e, he, Or.inr rfl⟩)⟩
      cases (hgone _).1 hu with
      | link _ hnot => exact hnot he
  · obtain ⟨hp, hkeep, hnode⟩ := (hless.aliases p.1 p.2).1 hp
    refine (hM' _).2 ⟨?_, fun hn => ?_⟩
    · rcases hfrom p hp with hp | ⟨hp, -⟩
      · by_contra hnot
        exact hkeep ((hgone _).2 (.expired (h.aliases p (haliases₁ ▸ hp)) hnot))
      · exact (mem_newcomers.1 hp).1
    · by_contra hnot
      exact hnode ((hgone _).2 (.node hn hnot))
  · obtain ⟨hk, hnode⟩ := (hless.nodes a).1 ha
    rw [hnodes₂, hK] at hk
    rcases hk with hk | hk
    · by_cases hN : a ∈ keys N
      · left
        by_contra hnot
        exact hnode ((hgone _).2 (.node hN hnot))
      · exact Or.inr ⟨hk, hN⟩
    · exact Or.inl hk
  · refine (hless.aliases q.2 q.1).2 ⟨?_, fun hu => ?_, hstays _ hmain⟩
    · by_cases hmem : q ∈ keys M
      · exact hkept (haliases₁ ▸ hM hmem)
      · exact hroom q.1 ((hK _).2 (Or.inr hmain)) (haliases₁ ▸ hcount) q (mem_newcomers.2 ⟨hq, hmem⟩) rfl
    · cases (hgone _).1 hu with
      | expired _ hnot => exact hnot hq
      | orphaned _ _ hnot => exact hnot hmain

/-! ### A full transfer -/

/-- What a replica is told at its start. -/
def transfer (c : κ) (V : List α) (E A : List (α × α)) : List (Update α κ) :=
  V.map .addNode ++ E.map (fun e => .addLink e.1 e.2 c) ++ A.map fun q => .addAlias q.1 q.2

/-- What is told at the start is what the sender keeps under marks, except for nodes that the sender does not know. -/
structure Agrees (N : List α) (L M : List (α × α)) (V : List α) (E A : List (α × α)) : Prop where
  nodes : N ⊆ V
  once : E.Nodup
  known : E ⊆ L
  links : L ⊆ E
  aliases : ∀ q ∈ A, q.1 ∈ V → q ∈ M
  aliasOnce : A.Nodup
  apart : Apart (fun a => a ∈ V) [] A

instance agreesDecidable (N : List α) (L M : List (α × α)) (V : List α) (E A : List (α × α)) :
    Decidable (Agrees N L M V E A) :=
  decidable_of_iff ((N ⊆ V ∧ E.Nodup ∧ E ⊆ L ∧ L ⊆ E) ∧ (∀ q ∈ A, q.1 ∈ V → q ∈ M) ∧ A.Nodup ∧
    Apart (fun a => a ∈ V) [] A)
    ⟨fun h => ⟨h.1.1, h.1.2.1, h.1.2.2.1, h.1.2.2.2, h.2.1, h.2.2.1, h.2.2.2⟩,
      fun h => ⟨⟨h.nodes, h.once, h.known, h.links⟩, h.aliases, h.aliasOnce, h.apart⟩⟩

omit [DecidableEq α] in
theorem Agrees.congr {N₁ N₂ V : List α} {L₁ L₂ M₁ : List (α × α)} (h : Agrees N₁ L₁ M₁ V E A)
    (hN : ∀ a, a ∈ N₁ ↔ a ∈ N₂) (hL : ∀ e, e ∈ L₁ ↔ e ∈ L₂) : Agrees N₂ L₂ M₁ V E A :=
  ⟨fun a ha => h.nodes ((hN a).2 ha), h.once, fun e he => (hL e).1 (h.known he), fun e he => h.links ((hL e).2 he),
    h.aliases, h.aliasOnce, h.apart⟩

theorem Agrees.leads_transfer {N₁ V : List α} {L₁ M₁ : List (α × α)} (h : Agrees N₁ L₁ M₁ V E A)
    (hends : ∀ e ∈ L₁, e.1 ∈ N₁ ∧ e.2 ∈ N₁) : ∃ H, Leads k empty (transfer c V E A) H ∧ Tracks k H N₁ L₁ M₁ := by
  obtain ⟨G₁, h₁, hlinks₁, haliases₁, hnodes₁⟩ :=
    leads_addNodes (k := k) (G := (empty : Multigraph α κ)) fun a (_ : a ∈ V) p hp => (List.not_mem_nil hp).elim
  have hmem₁ : ∀ a, a ∈ G₁.nodes ↔ a ∈ V := fun a => (hnodes₁ a).trans (or_iff_left (List.not_mem_nil))
  obtain ⟨G₂, h₂, hnodes₂, haliases₂, hends₂⟩ := leads_addLinks (k := k) (G := G₁) c fun e (he : e ∈ E) =>
    ⟨(hmem₁ _).2 (h.nodes (hends e (h.known he)).1), (hmem₁ _).2 (h.nodes (hends e (h.known he)).2)⟩
  have hmem₂ : ∀ a, a ∈ G₂.nodes ↔ a ∈ V := fun a => hnodes₂ ▸ hmem₁ a
  have hnone : G₂.aliases = [] := haliases₂.trans haliases₁
  have hfree : ∀ a, G₂.Free a := fun a p hp => (List.not_mem_nil (hnone ▸ hp)).elim
  obtain ⟨H, h₃, hnodes₃, hlinks₃, -, hfrom, -⟩ := leads_addAliases (k := k) h.aliasOnce (fun q _ => hfree q.1)
    (fun q hq hk => ⟨fun hk' => h.apart.fresh q hq ((hmem₂ _).1 hk) ((hmem₂ _).1 hk'), hfree q.2⟩)
    (fun q hq q' hq' hk hk' => h.apart.single q hq q' hq' ((hmem₂ _).1 hk) ((hmem₂ _).1 hk'))
    fun q hq hk q' hq' heq => List.not_mem_nil (h.apart.stray q hq ((hmem₂ _).1 hk) q' hq' heq).1
  have hleads := (h₁.append h₂).append h₃
  have hendsH : H.ends = E.reverse := by
    have hempty : G₁.ends = [] := by
      rw [ends, hlinks₁]
      rfl
    rw [ends, hlinks₃, ← ends, hends₂, hempty, List.append_nil]
  refine ⟨H, hleads, hleads.wf .empty, ?_, fun a ha => ?_, fun e => ?_, fun p hp => ?_⟩
  · rw [hendsH]
    exact List.nodup_reverse.2 h.once
  · rw [hnodes₃]
    exact (hmem₂ a).2 (h.nodes ha)
  · rw [hendsH, List.mem_reverse]
    exact ⟨fun he => h.known he, fun he => h.links he⟩
  · rcases hfrom p hp with hp | ⟨hp, hk⟩
    · exact (List.not_mem_nil (hnone ▸ hp)).elim
    · exact h.aliases _ hp ((hmem₂ _).1 hk)

/-! ### All aliases -/

/-- The replica has no other nodes, and all aliases of its nodes. -/
structure Follows (k : ℕ) (G : Multigraph α κ) (N : List α) (L M : List (α × α)) : Prop extends Tracks k G N L M where
  known : G.nodes ⊆ N
  told : ∀ q ∈ M, q.1 ∈ N → q.swap ∈ G.aliases

/-- No address is shared, no alias was told before its node came, and a node has room for its aliases, those that go and
those that come counted together. -/
structure Compatible (k : ℕ) (N N' : List α) (M A : List (α × α)) : Prop where
  apart : Apart (fun a => a ∈ N ∨ a ∈ N') M A
  returned : ∀ q ∈ M, q ∈ A → q.1 ∈ N' → q.1 ∈ N
  room : ∀ m ∈ N', (((M.filter fun q => q.1 ∈ N) ++ A).dedup.countP fun q => q.1 = m) ≤ k

instance compatibleDecidable (k : ℕ) (N N' : List α) (M A : List (α × α)) : Decidable (Compatible k N N' M A) :=
  decidable_of_iff (Apart (fun a => a ∈ N ∨ a ∈ N') M A ∧ (∀ q ∈ M, q ∈ A → q.1 ∈ N' → q.1 ∈ N) ∧
    ∀ m ∈ N', (((M.filter fun q => q.1 ∈ N) ++ A).dedup.countP fun q => q.1 = m) ≤ k)
    ⟨fun h => ⟨h.1, h.2.1, h.2.2⟩, fun h => ⟨h.apart, h.returned, h.room⟩⟩

theorem Tracks.congr {N₁ N₂ : List α} {L₁ M₁ : List (α × α)} (h : Tracks k G N₁ L₁ M₁) (hN : ∀ a, a ∈ N₂ ↔ a ∈ N₁) :
    Tracks k G N₂ L₁ M₁ :=
  ⟨h.wf, h.once, fun a ha => h.nodes ((hN a).1 ha), h.links, h.aliases⟩

theorem Follows.congr {N₁ N₂ : List α} {L₁ M₁ : List (α × α)} (h : Follows k G N₁ L₁ M₁) (hN : ∀ a, a ∈ N₂ ↔ a ∈ N₁) :
    Follows k G N₂ L₁ M₁ :=
  ⟨h.toTracks.congr hN, fun a ha => (hN a).2 (h.known ha), fun q hq hmain => h.told q hq ((hN q.1).1 hmain)⟩

theorem Compatible.congr {N₁ N₂ : List α} {M₁ : List (α × α)} (h : Compatible k N₁ N' M₁ A)
    (hN : ∀ a, a ∈ N₂ ↔ a ∈ N₁) : Compatible k N₂ N' M₁ A := by
  have hK : (fun a => a ∈ N₂ ∨ a ∈ N') = fun a => a ∈ N₁ ∨ a ∈ N' := funext fun a => propext (or_congr_left (hN a))
  have hfilter : (M₁.filter fun q => q.1 ∈ N₂) = M₁.filter fun q => q.1 ∈ N₁ :=
    List.filter_congr fun q _ => decide_eq_decide.2 (hN q.1)
  exact ⟨hK ▸ h.apart, fun q hq hA hmain => (hN q.1).2 (h.returned q hq hA hmain), hfilter ▸ h.room⟩

/-- The aliases of a node that the replica has, and those that come. -/
theorem Tracks.countP_le (h : Tracks k G (keys N) (keys L) (keys M)) (hknown : G.nodes ⊆ keys N) (m : α) :
    G.aliases.countP (·.2 = m) + (newcomers M A).countP (·.1 = m) ≤
      ((((keys M).filter fun q => q.1 ∈ keys N) ++ A).dedup.countP fun q => q.1 = m) := by
  have hcount : G.aliases.countP (·.2 = m) = (G.aliases.map Prod.swap).countP (·.1 = m) := by
    rw [List.countP_map]
    rfl
  rw [hcount, ← List.countP_append]
  refine (List.Nodup.subperm ?_ ?_).countP_le _
  · refine List.Nodup.append (List.Nodup.map Prod.swap_injective h.wf.aliases.of_map) nodup_newcomers ?_
    intro q hq hnew
    obtain ⟨p, hp, rfl⟩ := List.mem_map.1 hq
    exact (mem_newcomers.1 hnew).2 (h.aliases p hp)
  · intro q hq
    rw [List.mem_dedup, List.mem_append, List.mem_filter, decide_eq_true_eq]
    rcases List.mem_append.1 hq with hq | hq
    · obtain ⟨p, hp, rfl⟩ := List.mem_map.1 hq
      exact Or.inl ⟨h.aliases p hp, hknown (h.wf.owned p hp)⟩
    · exact Or.inr (mem_newcomers.1 hq).1

/-- A round that is compatible keeps all aliases too. -/
theorem Follows.renewal (h : Follows k G (keys N) (keys L) (keys M))
    (hN' : ∀ a, a ∈ N' ↔ ∃ e ∈ E, a = e.1 ∨ a = e.2) (hL' : ∀ e, e ∈ L' ↔ e ∈ E)
    (hM' : ∀ q, q ∈ M' ↔ q ∈ A ∧ (q.1 ∈ keys N → q.1 ∈ N')) (hcomp : Compatible k (keys N) N' (keys M) A)
    (hgone : ∀ u, u ∈ gone ↔ Dropped (keys N) (keys L) (keys M) N' E A u) : ∃ H,
    Leads k G (additions c N L E ++ (newcomers M A).map (fun q => .addAlias q.1 q.2) ++ gone) H ∧
      Follows k H N' L' M' := by
  have hK : (fun a => a ∈ G.nodes ∨ a ∈ N') = fun a => a ∈ keys N ∨ a ∈ N' :=
    funext fun a => propext (or_congr_left ⟨fun ha => h.known ha, fun ha => h.nodes ha⟩)
  obtain ⟨H, hH, htracks, hnodes, haliases⟩ := h.toTracks.renewal (c := c) hN' hL' hM' (hK ▸ hcomp.apart) hgone
  refine ⟨H, hH, htracks, fun a ha => ?_, fun q hq hmain => ?_⟩
  · rcases hnodes a ha with ha | ⟨ha, hnot⟩
    · exact ha
    · exact absurd (h.known ha) hnot
  · refine haliases q ((hM' q).1 hq).1 hmain (fun hM => h.told q hM (hcomp.returned q hM ((hM' q).1 hq).1 hmain)) ?_
    exact Nat.le_trans (h.toTracks.countP_le h.known q.1) (hcomp.room q.1 hmain)

end Multigraph
