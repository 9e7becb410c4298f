import MpOlsr.Lib.Multigraph
import MpOlsr.Topology.Events

/-!
# The store refines a multigraph

The abstract meaning of a store is a multigraph (`Shape.forget`): a node is its main address.  As long as an alias is
added only when its address is not registered, and removed only as an alias of its node (`disciplined`), every command
acts on the store as its abstract counterpart does (`store_refines`).
-/

namespace MpOlsr

open DoublyLinked

variable {ws : WordSize} {h : Store ws} {g : Shape ws}

/-- The main address of a node, 0 if there is none. -/
def Shape.mainOf (g : Shape ws) (n : Ptr) : ip_v4_addr ws := (mainAddr g.addrs n).getD 0

/-- The multigraph of a shape. -/
def Shape.forget (g : Shape ws) : Multigraph (ip_v4_addr ws) (ULong ws) where
  nodes := g.nodes.map g.mainOf
  aliases := (g.addrs.filter (·.pos ≠ 0)).map fun e => (e.addr_ip, g.mainOf e.node)
  links := g.links.map fun l => (g.mainOf l.src, g.mainOf l.dst, l.cost)

/-- No address is registered twice. -/
def Distinct (A : List (AddrInfo ws)) : Prop := (A.map AddrInfo.addr_ip).Nodup

/-! ### Addresses that are not shared -/

theorem Distinct.eq {A : List (AddrInfo ws)} (hd : Distinct A) {e e' : AddrInfo ws} (he : e ∈ A) (he' : e' ∈ A)
    (haddr : e.addr_ip = e'.addr_ip) : e = e' := List.inj_on_of_nodup_map hd he he' haddr

theorem Distinct.resolve_eq {A : List (AddrInfo ws)} (hd : Distinct A) {e : AddrInfo ws} (he : e ∈ A) :
    resolve A e.addr_ip = some e := by
  cases hf : resolve A e.addr_ip with
  | none =>
    have := List.find?_eq_none.1 hf e he
    simp at this
  | some e' => rw [hd.eq (resolve_mem hf).1 he (resolve_mem hf).2]

theorem Distinct.filter {A : List (AddrInfo ws)} (hd : Distinct A) (p : AddrInfo ws → Bool) : Distinct (A.filter p) :=
  List.Nodup.sublist (List.filter_sublist.map _) hd

theorem Distinct.ownsAddrs {A : List (AddrInfo ws)} (hd : Distinct A) (n : Ptr) : OwnsAddrs A n := by
  intro e he _
  refine (hd.filter _).resolve_eq (List.mem_filter.2 ⟨he, decide_eq_true fun hh => ?_⟩)
  exact lt_irrefl _ hh.2

theorem resolve_eq_none {A : List (AddrInfo ws)} {a : ip_v4_addr ws} :
    resolve A a = none ↔ ∀ e ∈ A, e.addr_ip ≠ a := by
  simp [resolve, List.find?_eq_none]

theorem Rep.mainOf_eq (hr : Rep h g) {e : AddrInfo ws} (he : e ∈ g.addrs) (hpos : e.pos = 0) :
    g.mainOf e.node = e.addr_ip := by
  have hentry := hr.addrsRep.entryAt_eq he
  rw [hpos] at hentry
  rw [Shape.mainOf, mainAddr, hentry]
  rfl

theorem Rep.mainEntry (hr : Rep h g) {n : Ptr} (hn : n ∈ g.nodes) :
    ∃ e ∈ g.addrs, e.node = n ∧ e.pos = 0 ∧ e.addr_ip = g.mainOf n := by
  obtain ⟨e, he, rfl, hpos⟩ := hr.main n hn
  exact ⟨e, he, rfl, hpos, (hr.mainOf_eq he hpos).symm⟩

theorem Rep.mainAddr_eq (hr : Rep h g) {n : Ptr} (hn : n ∈ g.nodes) : mainAddr g.addrs n = some (g.mainOf n) := by
  obtain ⟨e, he, hentry⟩ := hr.main_entry hn
  rw [Shape.mainOf, mainAddr, hentry]
  rfl

theorem Rep.mainOf_inj (hr : Rep h g) (hd : Distinct g.addrs) {n m : Ptr} (hn : n ∈ g.nodes) (hm : m ∈ g.nodes)
    (hnm : g.mainOf n = g.mainOf m) : n = m := by
  obtain ⟨e, he, rfl, -, haddr⟩ := hr.mainEntry hn
  obtain ⟨e', he', rfl, -, haddr'⟩ := hr.mainEntry hm
  rw [hd.eq he he' (haddr.trans (hnm.trans haddr'.symm))]

/-- The owner of an address in the multigraph is the node that the address finds in the store. -/
theorem Rep.owner_forget (hr : Rep h g) (hd : Distinct g.addrs) (a : ip_v4_addr ws) :
    g.forget.owner a = (resolve g.addrs a).map fun e => g.mainOf e.node := by
  cases hres : resolve g.addrs a with
  | none =>
    rw [resolve_eq_none] at hres
    rw [Option.map_none, Multigraph.owner_eq_none]
    constructor
    · intro hmem
      obtain ⟨n, hn, hna⟩ := List.mem_map.1 hmem
      obtain ⟨e, he, -, -, haddr⟩ := hr.mainEntry hn
      exact hres e he (haddr.trans hna)
    · intro p hp
      obtain ⟨e, he, rfl⟩ := List.mem_map.1 hp
      exact hres e (List.mem_filter.1 he).1
  | some e =>
    obtain ⟨he, rfl⟩ := resolve_mem hres
    rw [Option.map_some, Multigraph.owner]
    by_cases hpos : e.pos = 0
    · have hmain := hr.mainOf_eq he hpos
      have hmem : e.addr_ip ∈ g.forget.nodes := List.mem_map.2 ⟨e.node, hr.addrsRep.nodes e he, hmain⟩
      rw [if_pos hmem, hmain]
    · have hmem : e.addr_ip ∉ g.forget.nodes := by
        intro hmem
        obtain ⟨n, hn, hna⟩ := List.mem_map.1 hmem
        obtain ⟨e', he', -, hpos', haddr⟩ := hr.mainEntry hn
        exact hpos (hd.eq he he' (hna.symm.trans haddr.symm) ▸ hpos')
      rw [if_neg hmem, Shape.forget, List.find?_map, List.find?_filter]
      refine Option.map_eq_some_iff.2 ⟨_, Option.map_eq_some_iff.2 ⟨e, ?_, rfl⟩, rfl⟩
      rw [← hres]
      refine List.find?_congr fun x hx => ?_
      by_cases haddr : x.addr_ip = e.addr_ip
      · rw [hd.eq hx he haddr]
        simp [hpos]
      · simp [haddr]

/-! ### The main addresses of a changed shape -/

theorem Shape.mainOf_addEntry (g : Shape ws) {e : AddrInfo ws} (hpos : e.pos ≠ 0) (n : Ptr) :
    (g.addEntry e).mainOf n = g.mainOf n := by
  rw [Shape.mainOf, Shape.mainOf, mainAddr, mainAddr, Shape.addEntry, entryAt_cons, if_neg fun hh => hpos hh.2]

theorem Rep.mainOf_dropEntry (hr : Rep h g) {e : AddrInfo ws} (he : e ∈ g.addrs) (hpos : e.pos ≠ 0) (n : Ptr) :
    (g.dropEntry e).mainOf n = g.mainOf n := by
  rw [Shape.mainOf, Shape.mainOf, mainAddr, mainAddr, entryAt, entryAt, Shape.dropEntry, MpOlsr.dropEntry,
    List.find?_filter]
  congr 2
  refine List.find?_congr fun x hx => ?_
  by_cases hname : x.name = e.name
  · rw [hr.addrsRep.eq_of_name hx he hname]
    simp [hpos]
  · simp [hname]

theorem Shape.mainOf_addNode_self (g : Shape ws) (n p : Ptr) (a : ip_v4_addr ws) : (g.addNode n p a).mainOf n = a := by
  rw [Shape.mainOf, mainAddr, Shape.addNode, entryAt_cons, if_pos ⟨rfl, rfl⟩]
  rfl

theorem Shape.mainOf_addNode (g : Shape ws) {n m : Ptr} (p : Ptr) (a : ip_v4_addr ws) (hmn : n ≠ m) :
    (g.addNode n p a).mainOf m = g.mainOf m := by
  rw [Shape.mainOf, Shape.mainOf, mainAddr, mainAddr, Shape.addNode, entryAt_cons, if_neg fun hh => hmn hh.1]

theorem Shape.mainOf_dropNode (g : Shape ws) {n m : Ptr} (hm : m ≠ n) : (g.dropNode n).mainOf m = g.mainOf m := by
  rw [Shape.mainOf, Shape.mainOf, mainAddr, mainAddr, entryAt, entryAt, Shape.dropNode, List.find?_filter]
  congr 2
  refine List.find?_congr fun x _ => ?_
  by_cases hx : x.node = m
  · simp [hx, hm]
  · simp [hx]

/-! ### The multigraph of a changed shape -/

theorem map_filter_congr {β γ : Type} {f f' : β → γ} {p q : β → Bool} {L : List β} (hpq : ∀ x ∈ L, p x = q x)
    (hf : ∀ x ∈ L, p x = true → f x = f' x) : (L.filter p).map f = (L.filter q).map f' := by
  rw [← List.filter_congr hpq]
  exact List.map_congr_left fun x hx => hf x (List.mem_filter.1 hx).1 (List.mem_filter.1 hx).2

theorem Shape.forget_congr (g g' : Shape ws) (hnodes : g'.nodes = g.nodes) (hlinks : g'.links = g.links)
    (hmain : ∀ n, g'.mainOf n = g.mainOf n) {X : List (ip_v4_addr ws × ip_v4_addr ws)}
    (hX : ((g'.addrs.filter (·.pos ≠ 0)).map fun e => (e.addr_ip, g.mainOf e.node)) = X) :
    g'.forget = { g.forget with aliases := X } := by
  have hmain : g'.mainOf = g.mainOf := funext hmain
  rw [Shape.forget, Shape.forget, hnodes, hlinks, hmain, hX]

theorem Shape.forget_addEntry (g : Shape ws) {e : AddrInfo ws} (hpos : e.pos ≠ 0) :
    (g.addEntry e).forget =
      { g.forget with aliases := (e.addr_ip, g.mainOf e.node) :: g.forget.aliases } := by
  refine Shape.forget_congr g (g.addEntry e) rfl rfl (g.mainOf_addEntry hpos) ?_
  rw [Shape.addEntry, List.filter_cons_of_pos (by simpa using hpos)]
  rfl

theorem Rep.forget_dropEntry (hr : Rep h g) (hd : Distinct g.addrs) {e : AddrInfo ws} (he : e ∈ g.addrs)
    (hpos : e.pos ≠ 0) : (g.dropEntry e).forget =
      { g.forget with aliases := g.forget.aliases.filter (·.1 ≠ e.addr_ip) } := by
  refine Shape.forget_congr g (g.dropEntry e) rfl rfl (hr.mainOf_dropEntry he hpos) ?_
  rw [Shape.dropEntry, MpOlsr.dropEntry, Shape.forget, List.filter_map, List.filter_filter, List.filter_filter]
  congr 1
  refine List.filter_congr fun x hx => ?_
  have hiff : x.name = e.name ↔ x.addr_ip = e.addr_ip := by
    constructor
    · intro hname
      rw [hr.addrsRep.eq_of_name hx he hname]
    · intro haddr
      rw [hd.eq hx he haddr]
  simp [hiff, Bool.and_comm]

theorem Rep.forget_addNode (hr : Rep h g) {n p : Ptr} (a : ip_v4_addr ws) (hn : n ∉ g.nodes) :
    (g.addNode n p a).forget = { g.forget with nodes := a :: g.forget.nodes } := by
  have hold : ∀ m ∈ g.nodes, (g.addNode n p a).mainOf m = g.mainOf m :=
    fun m hm => g.mainOf_addNode p a fun hmn => hn (hmn ▸ hm)
  rw [Shape.forget, Shape.forget]
  congr 1
  · show List.map _ (n :: g.nodes) = _
    rw [List.map_cons, g.mainOf_addNode_self n p a, List.map_congr_left hold]
  · rw [Shape.addNode, List.filter_cons_of_neg (by simp)]
    refine List.map_congr_left fun e he => ?_
    rw [← hold e.node (hr.addrsRep.nodes e (List.mem_filter.1 he).1)]
    rfl
  · refine List.map_congr_left fun l hl => ?_
    rw [← hold l.src (hr.ends l hl).1, ← hold l.dst (hr.ends l hl).2]

theorem Rep.forget_dropNode (hr : Rep h g) (hd : Distinct g.addrs) {n : Ptr} (hn : n ∈ g.nodes) :
    (g.dropNode n).forget = ⟨g.forget.nodes.filter (· ≠ g.mainOf n), g.forget.aliases.filter (·.2 ≠ g.mainOf n),
      g.forget.links.filter fun l => l.1 ≠ g.mainOf n ∧ l.2.1 ≠ g.mainOf n⟩ := by
  have hiff : ∀ m ∈ g.nodes, g.mainOf m = g.mainOf n ↔ m = n :=
    fun m hm => ⟨fun hmn => hr.mainOf_inj hd hm hn hmn, fun hmn => congrArg _ hmn⟩
  have hold : ∀ m, m ≠ n → (g.dropNode n).mainOf m = g.mainOf m := fun m hm => g.mainOf_dropNode hm
  have hnodes : (g.dropNode n).forget.nodes = g.forget.nodes.filter (· ≠ g.mainOf n) := by
    refine (map_filter_congr ?_ fun m _ hm => hold m (of_decide_eq_true hm)).trans List.filter_map.symm
    exact fun m hm => by simp [hiff m hm]
  have haliases : (g.dropNode n).forget.aliases = g.forget.aliases.filter (·.2 ≠ g.mainOf n) := by
    rw [Shape.forget, Shape.forget, Shape.dropNode, List.filter_map, List.filter_filter, List.filter_filter]
    refine map_filter_congr ?_ ?_
    · exact fun e he => by simp [hiff e.node (hr.addrsRep.nodes e he), Bool.and_comm]
    · intro e _ hmem
      have hnode : e.node ≠ n := by
        intro hnode
        simp [hnode] at hmem
      rw [← hold e.node hnode]
      rfl
  have hlinks : (g.dropNode n).forget.links =
      g.forget.links.filter fun l => l.1 ≠ g.mainOf n ∧ l.2.1 ≠ g.mainOf n := by
    refine (map_filter_congr ?_ ?_).trans List.filter_map.symm
    · exact fun l hl => by simp [hiff l.src (hr.ends l hl).1, hiff l.dst (hr.ends l hl).2]
    · intro l _ hmem
      have hends := of_decide_eq_true hmem
      rw [hold l.src hends.1, hold l.dst hends.2]
  rw [← hnodes, ← haliases, ← hlinks]

theorem Rep.link_iff (hr : Rep h g) (hd : Distinct g.addrs) {l : LinkInfo ws} (hl : l ∈ g.links) {m : Ptr}
    (hm : m ∈ g.nodes) (d : ip_v4_addr ws) :
    (l.src = m ∧ mainAddr g.addrs l.dst = some d) ↔ (g.mainOf l.src = g.mainOf m ∧ g.mainOf l.dst = d) := by
  rw [hr.mainAddr_eq (hr.ends l hl).2, Option.some_inj]
  constructor
  · intro hh
    exact ⟨congrArg _ hh.1, hh.2⟩
  · intro hh
    exact ⟨hr.mainOf_inj hd (hr.ends l hl).1 hm hh.1, hh.2⟩

theorem Rep.forget_eraseLink (hr : Rep h g) (hd : Distinct g.addrs) {m : Ptr} (hm : m ∈ g.nodes)
    {d : ip_v4_addr ws} {l : LinkInfo ws} (hfind : findLink g m d = some l) :
    (g.dropLink l).forget =
      { g.forget with links := g.forget.links.eraseP fun x => x.1 = g.mainOf m ∧ x.2.1 = d } := by
  have hl : l ∈ g.links := List.mem_of_find?_eq_some hfind
  rw [findLink, List.find?_eq_some_iff_append] at hfind
  obtain ⟨hp, as, bs, hsplit, has⟩ := hfind
  have hlinks : (g.dropLink l).links = as ++ bs := by
    have hnames := hr.linksRep.names
    rw [hsplit, List.map_append, List.map_cons, List.nodup_append, List.nodup_cons] at hnames
    obtain ⟨-, ⟨hbs, -⟩, hne⟩ := hnames
    show dropLink g.links l = _
    rw [dropLink, hsplit, List.filter_append, List.filter_cons_of_neg (by simp)]
    congr 1
    · refine List.filter_eq_self.2 fun x hx => decide_eq_true fun hname => ?_
      exact hne _ (List.mem_map_of_mem hx) _ List.mem_cons_self hname
    · refine List.filter_eq_self.2 fun x hx => decide_eq_true fun hname => ?_
      exact hbs (hname ▸ List.mem_map_of_mem hx)
  have has' : ∀ x ∈ as.map fun l => (g.mainOf l.src, g.mainOf l.dst, l.cost),
      ¬ (decide (x.1 = g.mainOf m ∧ x.2.1 = d) = true) := by
    intro x hx
    obtain ⟨y, hy, rfl⟩ := List.mem_map.1 hx
    have hnot := has y hy
    simp only [Bool.not_eq_true'] at hnot
    rw [decide_eq_true_eq, ← hr.link_iff hd (by rw [hsplit]; exact List.mem_append_left _ hy) hm]
    exact of_decide_eq_false hnot
  have hpos : g.mainOf l.src = g.mainOf m ∧ g.mainOf l.dst = d := (hr.link_iff hd hl hm d).1 (of_decide_eq_true hp)
  have herase : g.forget.links.eraseP (fun x => x.1 = g.mainOf m ∧ x.2.1 = d) =
      (as ++ bs).map fun l => (g.mainOf l.src, g.mainOf l.dst, l.cost) := by
    rw [Shape.forget, hsplit, List.map_append, List.map_cons, List.eraseP_append_right _ has',
      List.eraseP_cons_of_pos (by simpa using hpos), List.map_append]
  rw [herase, ← hlinks]
  rfl

theorem Rep.eraseLink_none (hr : Rep h g) (hd : Distinct g.addrs) {m : Ptr} (hm : m ∈ g.nodes)
    {d : ip_v4_addr ws} (hfind : findLink g m d = none) :
    g.forget.links.eraseP (fun x => x.1 = g.mainOf m ∧ x.2.1 = d) = g.forget.links := by
  refine List.eraseP_of_forall_not fun x hx => ?_
  obtain ⟨l, hl, rfl⟩ := List.mem_map.1 hx
  rw [decide_eq_true_eq, ← hr.link_iff hd hl hm]
  simpa using List.find?_eq_none.1 hfind l hl

/-! ### The number of aliases -/

/-- The entries of a node other than the main address. -/
def aliasesOf (A : List (AddrInfo ws)) (n : Ptr) : List (AddrInfo ws) := A.filter fun e => e.node = n ∧ e.pos ≠ 0

theorem Rep.countP_aliases (hr : Rep h g) (hd : Distinct g.addrs) {n : Ptr} (hn : n ∈ g.nodes) :
    g.forget.aliases.countP (·.2 = g.mainOf n) = (aliasesOf g.addrs n).length := by
  rw [Shape.forget, List.countP_map, List.countP_filter, aliasesOf, ← List.countP_eq_length_filter]
  refine List.countP_congr fun e he => ?_
  have hiff : g.mainOf e.node = g.mainOf n ↔ e.node = n :=
    ⟨fun hmn => hr.mainOf_inj hd (hr.addrsRep.nodes e he) hn hmn, fun hmn => congrArg _ hmn⟩
  simp [hiff]

theorem AddrsRep.freeSlot_eq_none {M : List Ptr} {A : List (AddrInfo ws)} (hr : AddrsRep h M A) (n : Ptr) :
    freeSlot A n = none ↔ 4 ≤ (aliasesOf A n).length := by
  have hmem : ∀ {e}, e ∈ aliasesOf A n ↔ e ∈ A ∧ e.node = n ∧ e.pos ≠ 0 := by
    intro e
    rw [aliasesOf, List.mem_filter, decide_eq_true_eq]
  let T : List Slot := (aliasesOf A n).map AddrInfo.pos
  have hnodup : T.Nodup := by
    refine List.Nodup.map_on ?_ ((List.Nodup.of_map _ hr.names).filter _)
    intro e he e' he' hpos
    exact hr.slots e (hmem.1 he).1 e' (hmem.1 he').1 ((hmem.1 he).2.1.trans (hmem.1 he').2.1.symm) hpos
  have hfour : ∀ i : Slot, i ≠ 0 → i ∈ ([1, 2, 3, 4] : List Slot) := by decide
  have hsub : T ⊆ [1, 2, 3, 4] := by
    intro i hi
    obtain ⟨e, he, rfl⟩ := List.mem_map.1 hi
    exact hfour _ (hmem.1 he).2.2
  have htaken : ∀ i : Slot, i ≠ 0 → (entryAt A n i ≠ none ↔ i ∈ T) := by
    intro i hi
    constructor
    · intro hne
      obtain ⟨e, hentry⟩ := Option.ne_none_iff_exists'.1 hne
      obtain ⟨he, hnode, rfl⟩ := entryAt_mem hentry
      exact List.mem_map_of_mem (hmem.2 ⟨he, hnode, hi⟩)
    · intro hT hnone
      obtain ⟨e, halias, rfl⟩ := List.mem_map.1 hT
      obtain ⟨he, rfl, -⟩ := hmem.1 halias
      rw [hr.entryAt_eq he] at hnone
      cases hnone
  have hfull : freeSlot A n = none ↔ [1, 2, 3, 4] ⊆ T := by
    rw [freeSlot, List.find?_eq_none]
    constructor
    · intro hall i hi
      exact (htaken i (by rintro rfl; simp at hi)).1 (by simpa using hall i hi)
    · intro hT i hi
      simpa using (htaken i (by rintro rfl; simp at hi)).2 (hT hi)
  have hlen : T.length = (aliasesOf A n).length := List.length_map _
  rw [hfull, ← hlen]
  constructor
  · intro hT
    exact (List.Nodup.subperm (by decide) hT).length_le
  · intro hT
    exact ((hnodup.subperm hsub).perm_of_length_le hT).symm.subset

end MpOlsr
