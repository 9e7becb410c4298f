import MpOlsr.Topology.Entries
import MpOlsr.Topology.Edges

/-!
# What the commands do

Every command on a store that represents a shape gives a store that represents the changed shape.  The exceptions are
two: `tc_remove_alias` of a main address, and `tc_remove_node` of a node with an entry that its own address does not
find; these cases are excluded by hypotheses.
-/

namespace MpOlsr

open DoublyLinked

variable {ws : WordSize} {h : Store ws} {g : Shape ws}

namespace Shape

def addNode (g : Shape ws) (n p : Ptr) (a : ip_v4_addr ws) : Shape ws :=
  ⟨n :: g.nodes, ⟨p, a, n, 0⟩ :: g.addrs, g.links⟩

def addEntry (g : Shape ws) (e : AddrInfo ws) : Shape ws := { g with addrs := e :: g.addrs }

def dropEntry (g : Shape ws) (e : AddrInfo ws) : Shape ws := { g with addrs := MpOlsr.dropEntry g.addrs e }

def addLink (g : Shape ws) (l : LinkInfo ws) : Shape ws := { g with links := l :: g.links }

def dropLink (g : Shape ws) (l : LinkInfo ws) : Shape ws := { g with links := MpOlsr.dropLink g.links l }

def dropNode (g : Shape ws) (n : Ptr) : Shape ws :=
  ⟨g.nodes.filter (· ≠ n), g.addrs.filter (·.node ≠ n), MpOlsr.dropNode n g.links⟩

end Shape

/-! ### Parts of a representation -/

theorem Rep.liveNode (hr : Rep h g) {n : Ptr} (hn : n ∈ g.nodes) : h.liveNode n = true := (hr.nodesRep.live n).2 hn

theorem Rep.node (hr : Rep h g) {n : Ptr} (hn : n ∈ g.nodes) : ∃ nd, h.nodes n = some nd :=
  Option.isSome_iff_exists.1 (hr.liveNode hn)

theorem Rep.get_node (hr : Rep h g) (a : ip_v4_addr ws) :
    tc_get_node h a = some ((resolve g.addrs a).map AddrInfo.node) := tc_get_node_spec hr.addrsRep a

theorem Rep.resolve_node (hr : Rep h g) {a : ip_v4_addr ws} {e : AddrInfo ws} (he : resolve g.addrs a = some e) :
    e.node ∈ g.nodes := hr.addrsRep.nodes e (resolve_mem he).1

/-- The representation does not depend on the local links and addresses. -/
theorem Rep.withLocal (hr : Rep h g) (links : List (LocalLinkEntry ws)) (addrs masks : Slot → ip_v4_addr ws) :
    Rep { h with g_local_links := links, g_local_addr_tab := addrs, g_local_mask_tab := masks } g :=
  ⟨⟨hr.nodesRep.list, hr.nodesRep.live, hr.nodesRep.listed, hr.nodesRep.bound⟩,
    ⟨hr.addrsRep.chains, hr.addrsRep.blocks, hr.addrsRep.tab, hr.addrsRep.names, hr.addrsRep.slots, hr.addrsRep.nodes,
      hr.addrsRep.bound⟩,
    ⟨hr.linksRep.src, hr.linksRep.dst, hr.linksRep.blocks, hr.linksRep.live, hr.linksRep.names, hr.linksRep.bound⟩,
    hr.main, hr.ends⟩

/-- A block that is no entry may be allocated, written or freed. -/
theorem Rep.withAddrBlock (hr : Rep h g) {p : Ptr} (hp : ∀ e ∈ g.addrs, e.name ≠ p) (b : Option (OlsrNodeAddr ws)) :
    Rep { h with node_addrs := Function.update h.node_addrs p b } g :=
  ⟨hr.nodesRep.congr rfl (fun _ _ => rfl) (fun _ _ => rfl) (fun _ => rfl) le_rfl,
    hr.addrsRep.congr rfl (fun _ _ => rfl) (fun _ _ => rfl)
      (fun e he => Function.update_of_ne (hp e he) _ _) (fun _ _ => rfl) le_rfl,
    hr.linksRep.congr (List.Subset.refl _) (List.Subset.refl _) rfl (fun _ _ => rfl) (fun _ _ => rfl) rfl
      (fun _ _ => rfl) (fun _ _ => rfl) (fun _ => rfl) le_rfl,
    hr.main, hr.ends⟩

theorem Rep.fresh_addr (hr : Rep h g) {p : Ptr} (hp : h.brk ≤ p) : ∀ e ∈ g.addrs, e.name ≠ p :=
  fun e he => Nat.ne_of_lt (lt_of_lt_of_le (hr.addrsRep.bound e he) hp)

theorem AddrsRep.allocAddr {M : List Ptr} {A : List (AddrInfo ws)} (hr : AddrsRep h M A) :
    AddrsRep h.allocAddr M A := by
  have hne : ∀ e ∈ A, e.name ≠ h.brk := fun e he => Nat.ne_of_lt (hr.bound e he)
  exact hr.congr rfl (fun e he => Function.update_of_ne (hne e he) _ _)
    (fun e he => Function.update_of_ne (hne e he) _ _) (fun e he => Function.update_of_ne (hne e he) _ _)
    (fun _ _ => rfl) (Nat.le_succ _)

theorem Rep.allocAddr (hr : Rep h g) : Rep h.allocAddr g :=
  ⟨hr.nodesRep.congr rfl (fun _ _ => rfl) (fun _ _ => rfl) (fun _ => rfl) (Nat.le_succ _), hr.addrsRep.allocAddr,
    hr.linksRep.congr (List.Subset.refl _) (List.Subset.refl _) rfl (fun _ _ => rfl) (fun _ _ => rfl) rfl
      (fun _ _ => rfl) (fun _ _ => rfl) (fun _ => rfl) (Nat.le_succ _),
    hr.main, hr.ends⟩

/-! ### Local links -/

/-- The addresses of a node can be read, and it has a main address. -/
theorem AddrsRep.tab_live {M : List Ptr} {A : List (AddrInfo ws)} (hr : AddrsRep h M A) {n : Ptr} (hn : n ∈ M)
    (hmain : ∃ e ∈ A, e.node = n ∧ e.pos = 0) {nd : OlsrNode} (hnd : h.nodes n = some nd) :
    (∀ i p, nd.addr_tab i = some p → ∃ a, h.node_addrs p = some a) ∧ ∃ p, nd.addr_tab 0 = some p := by
  constructor
  · intro i p hp
    rw [hr.tab n hn nd hnd i] at hp
    obtain ⟨e, he, rfl⟩ := Option.map_eq_some_iff.1 hp
    exact ⟨_, hr.blocks e (entryAt_mem he).1⟩
  · obtain ⟨e, he, rfl, hpos⟩ := hmain
    refine ⟨e.name, ?_⟩
    rw [hr.tab _ hn nd hnd 0, ← hpos, hr.entryAt_eq he]
    rfl

theorem findInterface_isSome {tab : Slot → Option Ptr} (htab : ∀ i p, tab i = some p → ∃ a, h.node_addrs p = some a)
    (mask net : ip_v4_addr ws) (is : List Slot) : ∃ r, findInterface h tab mask net is = some r := by
  induction is with
  | nil => exact ⟨none, rfl⟩
  | cons i is ih =>
    rw [findInterface]
    cases hi : tab i with
    | none => exact ih
    | some p =>
      obtain ⟨a, ha⟩ := htab i p hi
      simp only [ha, Option.bind_eq_bind, Option.bind_some]
      split
      · exact ⟨_, rfl⟩
      · exact ih

theorem findLocalInterface_isSome {tab : Slot → Option Ptr}
    (htab : ∀ i p, tab i = some p → ∃ a, h.node_addrs p = some a) (link : LocalLinkEntry ws) (is : List Slot) :
    ∃ r, findLocalInterface h tab link is = some r := by
  induction is with
  | nil => exact ⟨link, rfl⟩
  | cons i is ih =>
    rw [findLocalInterface]
    split
    · exact ih
    · obtain ⟨r, hr⟩ := findInterface_isSome htab (h.g_local_mask_tab i)
        (h.g_local_addr_tab i &&& h.g_local_mask_tab i) [0, 1, 2, 3, 4]
      rw [hr, Option.bind_eq_bind, Option.bind_some]
      cases r with
      | none => exact ih
      | some addr => exact ⟨_, rfl⟩

theorem AddrsRep.update_local_link {M : List Ptr} {A : List (AddrInfo ws)} (hr : AddrsRep h M A) {n : Ptr}
    (hn : n ∈ M) (hmain : ∃ e ∈ A, e.node = n ∧ e.pos = 0) (hnode : ∃ nd, h.nodes n = some nd) :
    ∃ l, tc_update_local_link h n = some l := by
  obtain ⟨nd, hnd⟩ := hnode
  obtain ⟨htab, p, hp⟩ := hr.tab_live hn hmain hnd
  obtain ⟨a, ha⟩ := htab 0 p hp
  obtain ⟨l, hl⟩ := findLocalInterface_isSome htab
    ⟨{ dst_addr_ip := a.addr_ip, dst_alias_ip := 0 }, 0, 0⟩ [0, 1, 2, 3, 4]
  exact ⟨l, Option.bind_eq_some_iff.2 ⟨_, hnd, Option.bind_eq_some_iff.2 ⟨_, hp,
    Option.bind_eq_some_iff.2 ⟨_, ha, hl⟩⟩⟩⟩

theorem Rep.update_local_links (hr : Rep h g) {n : Ptr} (hn : n ∈ g.nodes) (a : ip_v4_addr ws)
    (links : List (LocalLinkEntry ws)) : ∃ ls, updateLocalLinks h n a links = some ls := by
  induction links with
  | nil => exact ⟨[], rfl⟩
  | cons link links ih =>
    rw [updateLocalLinks]
    split
    · obtain ⟨l, hl⟩ := hr.addrsRep.update_local_link hn (hr.main n hn) (hr.node hn)
      rw [hl]
      exact ⟨_, rfl⟩
    · obtain ⟨ls, hls⟩ := ih
      rw [hls]
      exact ⟨_, rfl⟩

/-! ### Nodes -/

theorem tc_add_node_present (hr : Rep h g) {a : ip_v4_addr ws} {e : AddrInfo ws} (ha : resolve g.addrs a = some e) :
    tc_add_node h a = some h := by
  rw [tc_add_node, hr.get_node, ha]
  rfl

theorem Rep.fresh_node (hr : Rep h g) : h.brk ∉ g.nodes := fun hn => lt_irrefl _ (hr.nodesRep.bound _ hn)

/-- A new node, not yet listed. -/
theorem AddrsRep.allocNode {M : List Ptr} {A : List (AddrInfo ws)} (hr : AddrsRep h M A) (hM : h.brk ∉ M) :
    AddrsRep h.allocNode (h.brk :: M) A where
  chains := hr.chains
  blocks := hr.blocks
  tab := by
    intro n hn nd hnd i
    have hnd : Function.update h.nodes h.brk (some ⟨fun _ => none⟩) n = some nd := hnd
    by_cases hnb : n = h.brk
    · subst hnb
      rw [Function.update_self] at hnd
      cases hnd
      have hnone : entryAt A h.brk i = none := by
        refine List.find?_eq_none.2 fun e he => ?_
        simp only [decide_eq_true_eq]
        intro hh
        exact hM (hh.1 ▸ hr.nodes e he)
      rw [hnone]
      rfl
    · rw [Function.update_of_ne hnb] at hnd
      exact hr.tab n ((List.mem_cons.1 hn).resolve_left hnb) nd hnd i
  names := hr.names
  slots := hr.slots
  nodes := fun e he => List.mem_cons_of_mem _ (hr.nodes e he)
  bound := fun e he => Nat.lt_succ_of_lt (hr.bound e he)

/-- The lists of a new node are empty. -/
theorem LinksRep.allocNode {L : List (LinkInfo ws)} (hr : LinksRep h L L L)
    (hends : ∀ l ∈ L, l.src ≠ h.brk ∧ l.dst ≠ h.brk) : LinksRep h.allocNode L L L := by
  have hnil : ∀ {key : LinkInfo ws → Ptr}, (∀ l ∈ L, key l ≠ h.brk) →
      Function.update (group key LinkInfo.name L) h.brk [] = group key LinkInfo.name L := by
    intro key hkey
    refine Function.update_eq_self_iff.2 (Eq.symm ?_)
    rw [List.eq_nil_iff_forall_not_mem]
    intro x hx
    obtain ⟨l, hl, hlkey, -⟩ := mem_group.1 hx
    exact hkey l hl hlkey
  have hsrc := hr.src.clearHead h.brk
  have hdst := hr.dst.clearHead h.brk
  rw [hnil fun l hl => (hends l hl).1] at hsrc
  rw [hnil fun l hl => (hends l hl).2] at hdst
  exact ⟨hsrc, hdst, hr.blocks, hr.live, hr.names, fun l hl => Nat.lt_succ_of_lt (hr.bound l hl)⟩

/-- A new node enters the store with its main address. -/
theorem enterNode_eq {N M : List Ptr} {A : List (AddrInfo ws)} {L : List (LinkInfo ws)} (hN : NodesRep h N N)
    (hA : AddrsRep h M A) (hL : LinksRep h L L L) (hM : h.brk ∉ M) (hends : ∀ l ∈ L, l.src ∈ N ∧ l.dst ∈ N)
    (a : ip_v4_addr ws) :
    ∃ s D, tc_add_node_addr h.allocNode.allocAddr (h.brk + 1) h.brk a true = some (true, s) ∧
      s.node_lst.insertCell s.liveNode (fun _ => true) () h.brk = some D ∧ s.brk = h.brk + 2 ∧
      NodesRep { s with node_lst := D } (h.brk :: N) (h.brk :: N) ∧
      AddrsRep { s with node_lst := D } (h.brk :: M) (⟨h.brk + 1, a, h.brk, 0⟩ :: A) ∧
      LinksRep { s with node_lst := D } L L L := by
  let h2 := h.allocNode.allocAddr
  let e : AddrInfo ws := ⟨h.brk + 1, a, h.brk, 0⟩
  let h3 := h2.withEntry e ⟨fun _ => none⟩
  have hfresh : h.brk ∉ N := fun hn => lt_irrefl _ (hN.bound _ hn)
  have hA2 : AddrsRep h2 (h.brk :: M) A := (hA.allocNode hM).allocAddr
  have hnew : ∀ e' ∈ A, e'.name ≠ e.name := fun e' he' => Nat.ne_of_lt (Nat.lt_succ_of_lt (hA.bound e' he'))
  have hnode : h2.nodes e.node = some ⟨fun _ => none⟩ := Function.update_self _ _ _
  have hblock : h2.node_addrs e.name = some ⟨0, 0, none⟩ := Function.update_self _ _ _
  have hadd : tc_add_node_addr h2 e.name e.node e.addr_ip true = some (true, h3) :=
    tc_add_node_addr_eq hA2 hblock hnew hnode rfl
  have hfree : entryAt A e.node e.pos = none := by
    have htab := hA2.tab e.node List.mem_cons_self _ hnode 0
    exact Option.map_eq_none_iff.1 htab.symm
  have hA3 : AddrsRep h3 (h.brk :: M) (e :: A) :=
    hA2.withEntry hnew (Function.update_self _ _ _) (Nat.lt_succ_self _) List.mem_cons_self hnode hfree
  have hlive : ∀ p, h3.liveNode p = (Function.update h.nodes h.brk (some ⟨fun _ => none⟩) p).isSome :=
    fun p => liveNode_update (h := h2) hnode p
  have hlive' : ∀ p, h3.liveNode p = true ↔ p ∈ h.brk :: N := by
    intro p
    rw [hlive, List.mem_cons]
    by_cases hp : p = h.brk
    · subst hp
      simp
    · rw [Function.update_of_ne hp]
      simp only [hp, false_or]
      exact hN.live p
  have hcleared : Holds (h.node_lst.clear h.brk) (fun _ => N) := hN.list.clear fun _ => hfresh
  have hinsert : h3.node_lst.insertCell h3.liveNode (fun _ => true) () h.brk =
      some ((h.node_lst.clear h.brk).push () h.brk) :=
    hcleared.insertCell (fun y hy => (hlive' y).2 (List.mem_cons_of_mem _ hy)) rfl ((hlive' _).2 List.mem_cons_self)
  have hlist := hcleared.push (fun _ => hfresh) (Function.update_self _ _ _) ()
  refine ⟨h3, _, hadd, hinsert, rfl, ⟨?_, hlive', fun _ hp => hp, ?_⟩, ?_, ?_⟩
  · have hf : Function.update (fun _ : Unit => N) () (h.brk :: N) = fun _ => h.brk :: N :=
      funext fun k => Function.update_self _ _ _
    rw [hf] at hlist
    exact hlist
  · intro p hp
    show p < h.brk + 1 + 1
    rcases List.mem_cons.1 hp with rfl | hp
    · exact Nat.lt_succ_of_lt (Nat.lt_succ_self _)
    · exact Nat.lt_succ_of_lt (Nat.lt_succ_of_lt (hN.bound p hp))
  · exact hA3.congr rfl (fun _ _ => rfl) (fun _ _ => rfl) (fun _ _ => rfl) (fun _ _ => rfl) le_rfl
  · have hL1 := hL.allocNode fun l hl =>
      ⟨fun hsrc => hfresh (hsrc ▸ (hends l hl).1), fun hdst => hfresh (hdst ▸ (hends l hl).2)⟩
    exact hL1.congr (List.Subset.refl _) (List.Subset.refl _) rfl (fun _ _ => rfl) (fun _ _ => rfl)
      rfl (fun _ _ => rfl) (fun _ _ => rfl) (fun _ => rfl) (Nat.le_succ _)

theorem tc_add_node_spec (hr : Rep h g) {a : ip_v4_addr ws} (ha : resolve g.addrs a = none) :
    ∃ h', tc_add_node h a = some h' ∧ Rep h' (g.addNode h.brk (h.brk + 1) a) := by
  obtain ⟨s, D, hadd, hinsert, -, hN, hA, hL⟩ :=
    enterNode_eq hr.nodesRep hr.addrsRep hr.linksRep hr.fresh_node hr.ends a
  refine ⟨{ s with node_lst := D }, ?_, hN, hA, hL, ?_, ?_⟩
  · rw [tc_add_node, hr.get_node, ha, Option.map_none, Option.bind_eq_bind, Option.bind_some]
    exact Option.bind_eq_some_iff.2 ⟨_, hadd, Option.bind_eq_some_iff.2 ⟨_, hinsert, rfl⟩⟩
  · intro n hn
    rcases List.mem_cons.1 hn with rfl | hn
    · exact ⟨_, List.mem_cons_self, rfl, rfl⟩
    · obtain ⟨e', he', hnode', hpos⟩ := hr.main n hn
      exact ⟨e', List.mem_cons_of_mem _ he', hnode', hpos⟩
  · intro l hl
    exact ⟨List.mem_cons_of_mem _ (hr.ends l hl).1, List.mem_cons_of_mem _ (hr.ends l hl).2⟩

/-! ### Aliases -/

/-- The position that a new alias of a node takes. -/
def freeSlot (A : List (AddrInfo ws)) (n : Ptr) : Option Slot := [1, 2, 3, 4].find? fun i => entryAt A n i = none

theorem AddrsRep.newPos_eq {M : List Ptr} {A : List (AddrInfo ws)} (hr : AddrsRep h M A) {n : Ptr} (hn : n ∈ M)
    {nd : OlsrNode} (hnd : h.nodes n = some nd) : newPos h n false = some (freeSlot A n) := by
  rw [newPos, if_neg Bool.false_ne_true, hnd, Option.map_some]
  congr 1
  refine List.find?_congr fun i _ => ?_
  rw [hr.tab n hn nd hnd i]
  cases entryAt A n i <;> rfl

theorem freeSlot_spec {A : List (AddrInfo ws)} {n : Ptr} {i : Slot} (h : freeSlot A n = some i) :
    entryAt A n i = none ∧ i ≠ 0 := by
  refine ⟨by simpa using List.find?_some h, ?_⟩
  have hmem := List.mem_of_find?_eq_some h
  rintro rfl
  simp at hmem

/-- An entry that is not a main address enters the store. -/
theorem Rep.withEntry (hr : Rep h g) {e : AddrInfo ws} (hnew : ∀ e' ∈ g.addrs, e'.name ≠ e.name)
    (hprev : h.hash.prev e.name = none) (hb : e.name < h.brk) {nd : OlsrNode} (hn : e.node ∈ g.nodes)
    (hnd : h.nodes e.node = some nd) (hfree : entryAt g.addrs e.node e.pos = none) :
    Rep (h.withEntry e nd) (g.addEntry e) :=
  ⟨hr.nodesRep.congr rfl (fun _ _ => rfl) (fun _ _ => rfl) (fun p => liveNode_update hnd p) le_rfl,
    hr.addrsRep.withEntry hnew hprev hb hn hnd hfree,
    hr.linksRep.congr (List.Subset.refl _) (List.Subset.refl _) rfl (fun _ _ => rfl) (fun _ _ => rfl) rfl
      (fun _ _ => rfl) (fun _ _ => rfl) (fun _ => rfl) le_rfl,
    fun n hn => by
      obtain ⟨e', he', hnode, hpos⟩ := hr.main n hn
      exact ⟨e', List.mem_cons_of_mem _ he', hnode, hpos⟩,
    hr.ends⟩

/-- An entry that is not a main address leaves the store. -/
theorem Rep.withoutEntry (hr : Rep h g) {e : AddrInfo ws} (he : e ∈ g.addrs) (hpos : e.pos ≠ 0) {nd : OlsrNode}
    (hnd : h.nodes e.node = some nd) : Rep (h.withoutEntry e nd) (g.dropEntry e) :=
  ⟨hr.nodesRep.congr rfl (fun _ _ => rfl) (fun _ _ => rfl) (fun p => liveNode_update hnd p) le_rfl,
    hr.addrsRep.withoutEntry he hnd,
    hr.linksRep.congr (List.Subset.refl _) (List.Subset.refl _) rfl (fun _ _ => rfl) (fun _ _ => rfl) rfl
      (fun _ _ => rfl) (fun _ _ => rfl) (fun _ => rfl) le_rfl,
    fun n hn => by
      obtain ⟨e', he', hnode, hpos'⟩ := hr.main n hn
      refine ⟨e', mem_dropEntry.2 ⟨he', fun hname => hpos ?_⟩, hnode, hpos'⟩
      rw [← hr.addrsRep.eq_of_name he' he hname]
      exact hpos',
    hr.ends⟩

theorem tc_add_alias_unknown (hr : Rep h g) {a b : ip_v4_addr ws} (ha : resolve g.addrs a = none) :
    ∃ h', tc_add_alias h a b = some h' ∧ Rep h' g := by
  have hr' := hr.allocAddr
  have hfree : h.allocAddr.freeAddr h.brk =
      some { h.allocAddr with node_addrs := Function.update h.allocAddr.node_addrs h.brk none } := by
    have hb : h.allocAddr.node_addrs h.brk = some ⟨0, 0, none⟩ := Function.update_self _ _ _
    rw [Store.freeAddr, hb, Option.map_some]
  refine ⟨_, ?_, hr'.withAddrBlock (hr.fresh_addr le_rfl) none⟩
  rw [tc_add_alias, hr'.get_node, ha]
  exact hfree

theorem tc_add_alias_full (hr : Rep h g) {a b : ip_v4_addr ws} {e : AddrInfo ws} (ha : resolve g.addrs a = some e)
    (hfull : freeSlot g.addrs e.node = none) : ∃ h', tc_add_alias h a b = some h' ∧ Rep h' g := by
  have hr' := hr.allocAddr
  have hn := hr.resolve_node ha
  obtain ⟨nd, hnd⟩ := hr'.node hn
  have hpos : newPos h.allocAddr e.node false = some none := by rw [hr'.addrsRep.newPos_eq hn hnd, hfull]
  have hb : h.allocAddr.node_addrs h.brk = some ⟨0, 0, none⟩ := Function.update_self _ _ _
  have hadd := tc_add_node_addr_full (a := b) hb hpos
  have hr'' := hr'.withAddrBlock (hr.fresh_addr le_rfl) (some ⟨b, 0, some e.node⟩)
  obtain ⟨ls, hls⟩ := hr''.update_local_links hn a h.g_local_links
  refine ⟨_, ?_, hr''.withLocal ls h.g_local_addr_tab h.g_local_mask_tab⟩
  rw [tc_add_alias, hr'.get_node, ha, Option.map_some, Option.bind_eq_bind, Option.bind_some]
  exact Option.bind_eq_some_iff.2 ⟨_, hadd, Option.bind_eq_some_iff.2 ⟨_, hls, rfl⟩⟩

theorem tc_add_alias_spec (hr : Rep h g) {a b : ip_v4_addr ws} {e : AddrInfo ws} (ha : resolve g.addrs a = some e)
    {i : Slot} (hi : freeSlot g.addrs e.node = some i) :
    ∃ h', tc_add_alias h a b = some h' ∧ Rep h' (g.addEntry ⟨h.brk, b, e.node, i⟩) := by
  have hr' := hr.allocAddr
  have hn := hr.resolve_node ha
  obtain ⟨nd, hnd⟩ := hr'.node hn
  let e' : AddrInfo ws := ⟨h.brk, b, e.node, i⟩
  have hpos : newPos h.allocAddr e'.node false = some (some e'.pos) := by rw [hr'.addrsRep.newPos_eq hn hnd, hi]
  have hnew : ∀ x ∈ g.addrs, x.name ≠ e'.name := hr.fresh_addr le_rfl
  have hb : h.allocAddr.node_addrs e'.name = some ⟨0, 0, none⟩ := Function.update_self _ _ _
  have hadd := tc_add_node_addr_eq hr'.addrsRep hb hnew hnd hpos
  have hr'' := hr'.withEntry hnew (Function.update_self _ _ _) (Nat.lt_succ_self _) hn hnd (freeSlot_spec hi).1
  obtain ⟨ls, hls⟩ := hr''.update_local_links hn a h.g_local_links
  refine ⟨_, ?_, hr''.withLocal ls h.g_local_addr_tab h.g_local_mask_tab⟩
  rw [tc_add_alias, hr'.get_node, ha, Option.map_some, Option.bind_eq_bind, Option.bind_some]
  exact Option.bind_eq_some_iff.2 ⟨_, hadd, Option.bind_eq_some_iff.2 ⟨_, hls, rfl⟩⟩

theorem tc_remove_alias_unknown (hr : Rep h g) {a b : ip_v4_addr ws} (ha : resolve g.addrs a = none) :
    tc_remove_alias h a b = some h := by
  rw [tc_remove_alias, hr.get_node, ha]
  rfl

theorem tc_remove_alias_none (hr : Rep h g) {a b : ip_v4_addr ws} {e : AddrInfo ws} (ha : resolve g.addrs a = some e)
    (hb : resolve g.addrs b = none) : ∃ h', tc_remove_alias h a b = some h' ∧ Rep h' g := by
  obtain ⟨ls, hls⟩ := hr.update_local_links (hr.resolve_node ha) a h.g_local_links
  refine ⟨_, ?_, hr.withLocal ls h.g_local_addr_tab h.g_local_mask_tab⟩
  rw [tc_remove_alias, hr.get_node, ha, Option.map_some, Option.bind_eq_bind, Option.bind_some]
  exact Option.bind_eq_some_iff.2 ⟨_, tc_rmv_node_addr_none hr.addrsRep hb, Option.bind_eq_some_iff.2 ⟨_, hls, rfl⟩⟩

theorem tc_remove_alias_spec (hr : Rep h g) {a b : ip_v4_addr ws} {e e' : AddrInfo ws}
    (ha : resolve g.addrs a = some e) (hb : resolve g.addrs b = some e') (hpos : e'.pos ≠ 0) :
    ∃ h', tc_remove_alias h a b = some h' ∧ Rep h' (g.dropEntry e') := by
  obtain ⟨nd, hnd⟩ := hr.node (hr.resolve_node hb)
  have he' := (resolve_mem hb).1
  have hr' := hr.withoutEntry he' hpos hnd
  obtain ⟨ls, hls⟩ := hr'.update_local_links (hr.resolve_node ha) a h.g_local_links
  have hr'' := hr'.withLocal ls h.g_local_addr_tab h.g_local_mask_tab
  have hblock : h.node_addrs e'.name = some e'.block := hr.addrsRep.blocks e' he'
  refine ⟨_, ?_, hr''.withAddrBlock (fun x hx => (mem_dropEntry.1 hx).2) none⟩
  rw [tc_remove_alias, hr.get_node, ha, Option.map_some, Option.bind_eq_bind, Option.bind_some]
  refine Option.bind_eq_some_iff.2 ⟨_, tc_rmv_node_addr_eq hr.addrsRep hb hnd, Option.bind_eq_some_iff.2 ⟨_, hls, ?_⟩⟩
  show (Store.freeAddr _ e'.name).bind some = _
  rw [Store.freeAddr]
  simp only [Store.withoutEntry, hblock, Option.map_some, Option.bind_some]

/-! ### Links -/

/-- The main address of a node. -/
def mainAddr (A : List (AddrInfo ws)) (n : Ptr) : Option (ip_v4_addr ws) := (entryAt A n 0).map AddrInfo.addr_ip

/-- The most recent link of a node to the node with the given main address. -/
def findLink (g : Shape ws) (n : Ptr) (a : ip_v4_addr ws) : Option (LinkInfo ws) :=
  g.links.find? fun l => l.src = n ∧ mainAddr g.addrs l.dst = some a

theorem Rep.fresh_link (hr : Rep h g) : h.link_blocks h.brk = none := by
  rw [← Option.not_isSome_iff_eq_none]
  intro hlive
  obtain ⟨l, hl, hname⟩ := hr.linksRep.live h.brk hlive
  exact absurd hname (Nat.ne_of_lt (hr.linksRep.bound l hl))

theorem Rep.allocLink_addrs (hr : Rep h g) : AddrsRep h.allocLink g.nodes g.addrs :=
  hr.addrsRep.congr rfl (fun _ _ => rfl) (fun _ _ => rfl) (fun _ _ => rfl) (fun _ _ => rfl) (Nat.le_succ _)

/-- The block of a link that is refused is freed again. -/
theorem Rep.allocLink_freed (hr : Rep h g) : ∃ h', h.allocLink.freeLink h.brk = some h' ∧ Rep h' g := by
  have hb : h.allocLink.link_blocks h.brk = some ⟨none, none, 0⟩ := Function.update_self _ _ _
  refine ⟨_, by rw [Store.freeLink, hb, Option.map_some], ?_⟩
  have hne : ∀ l ∈ g.links, l.name ≠ h.brk := fun l hl => Nat.ne_of_lt (hr.linksRep.bound l hl)
  refine ⟨hr.nodesRep.congr rfl (fun _ _ => rfl) (fun _ _ => rfl) (fun _ => rfl) (Nat.le_succ _),
    hr.addrsRep.congr rfl (fun _ _ => rfl) (fun _ _ => rfl) (fun _ _ => rfl) (fun _ _ => rfl) (Nat.le_succ _),
    hr.linksRep.congr (List.Subset.refl _) (List.Subset.refl _) rfl
      (fun l hl => Function.update_of_ne (hne l hl) _ _) (fun l hl => Function.update_of_ne (hne l hl) _ _) rfl
      (fun l hl => Function.update_of_ne (hne l hl) _ _) (fun l hl => Function.update_of_ne (hne l hl) _ _) ?_
      (Nat.le_succ _), hr.main, hr.ends⟩
  intro p
  show Function.update (Function.update h.link_blocks h.brk (some ⟨none, none, 0⟩)) h.brk none p = _
  rw [Function.update_idem]
  by_cases hp : p = h.brk
  · subst hp
    rw [Function.update_self, hr.fresh_link]
  · rw [Function.update_of_ne hp]

theorem tc_add_link_unknown (hr : Rep h g) {s d : ip_v4_addr ws} (c : ℤ)
    (hsd : resolve g.addrs s = none ∨ resolve g.addrs d = none) :
    ∃ h', tc_add_link h s d c = some h' ∧ Rep h' g := by
  obtain ⟨h', hfree, hr'⟩ := hr.allocLink_freed
  refine ⟨h', ?_, hr'⟩
  have hs := tc_get_node_spec hr.allocLink_addrs s
  have hd := tc_get_node_spec hr.allocLink_addrs d
  cases hres : resolve g.addrs s with
  | none =>
    rw [tc_add_link, hs, hres]
    exact hfree
  | some e =>
    have hd' := hsd.resolve_left (by rw [hres]; exact Option.some_ne_none e)
    rw [tc_add_link, hs, hres, Option.map_some, Option.bind_eq_bind, Option.bind_some, hd, hd']
    exact hfree

theorem Rep.withLink (hr : Rep h g) {l : LinkInfo ws} (hl : l.name = h.brk) (hs : l.src ∈ g.nodes)
    (hd : l.dst ∈ g.nodes) : Rep (h.withLink l) (g.addLink l) :=
  ⟨hr.nodesRep.congr rfl (fun _ _ => rfl) (fun _ _ => rfl) (fun _ => rfl) (Nat.le_succ _),
    hr.addrsRep.congr rfl (fun _ _ => rfl) (fun _ _ => rfl) (fun _ _ => rfl) (fun _ _ => rfl) (Nat.le_succ _),
    hr.linksRep.withLink hl, hr.main, fun l' hl' => by
      rcases List.mem_cons.1 hl' with rfl | hmem
      · exact ⟨hs, hd⟩
      · exact hr.ends l' hmem⟩

theorem Rep.withoutLink (hr : Rep h g) {l : LinkInfo ws} (hl : l ∈ g.links) :
    Rep (h.withoutLink l) (g.dropLink l) :=
  ⟨hr.nodesRep.congr rfl (fun _ _ => rfl) (fun _ _ => rfl) (fun _ => rfl) le_rfl,
    hr.addrsRep.congr rfl (fun _ _ => rfl) (fun _ _ => rfl) (fun _ _ => rfl) (fun _ _ => rfl) le_rfl,
    hr.linksRep.withoutLink hl, hr.main, fun l' hl' => hr.ends l' (mem_dropLink.1 hl').1⟩

/-- A link whose ends are in memory enters the lists of both. -/
theorem enterLink_eq {L : List (LinkInfo ws)} (hr : LinksRep h L L L) {node_src node_dst : Ptr}
    (hs : h.liveNode node_src = true) (hd : h.liveNode node_dst = true) (cost : ℤ) (ll : List (LocalLinkEntry ws)) :
    (do
      let s ← ({ h.allocLink with g_local_links := ll } : Store ws).updLink h.brk
        fun l => { l with cost := BitVec.ofInt ws.bits cost, src_node := some node_src }
      let s ← s.insertSrc h.brk
      let s ← s.updLink h.brk fun l => { l with dst_node := some node_dst }
      s.insertDst h.brk) =
    some (({ h with g_local_links := ll } : Store ws).withLink
      ⟨h.brk, node_src, node_dst, BitVec.ofInt ws.bits cost⟩) := by
  let l : LinkInfo ws := ⟨h.brk, node_src, node_dst, BitVec.ofInt ws.bits cost⟩
  -- the blocks of the link while it is set up
  let h1 : Store ws := { h.allocLink with g_local_links := ll }
  let b2 : OlsrNodeLink ws := ⟨some l.src, none, l.cost⟩
  let h2 : Store ws := { h1 with link_blocks := Function.update h.link_blocks h.brk (some b2) }
  let h3 : Store ws := { h2 with src := (h.src.clear h.brk).push l.src h.brk }
  let h4 : Store ws := { h3 with link_blocks := Function.update h.link_blocks h.brk (some l.block) }
  have hupd : h1.updLink h.brk (fun x => { x with cost := BitVec.ofInt ws.bits cost, src_node := some node_src }) =
      some h2 := by
    have hb : h1.link_blocks h.brk = some ⟨none, none, 0⟩ := Function.update_self _ _ _
    rw [Store.updLink, hb, Option.map_some]
    simp only [h2, h1, Store.allocLink, Function.update_idem, b2, l]
  have hupd' : h3.updLink h.brk (fun x => { x with dst_node := some node_dst }) = some h4 := by
    have hb : h3.link_blocks h.brk = some b2 := Function.update_self _ _ _
    rw [Store.updLink, hb, Option.map_some]
    simp only [h4, h3, h2, Function.update_idem, b2, l, LinkInfo.block]
  have hne : ∀ x ∈ L, x.name ≠ h.brk := fun x hx => Nat.ne_of_lt (hr.bound x hx)
  have hlive : ∀ (b : OlsrNodeLink ws), ∀ x ∈ L,
      (Function.update h.link_blocks h.brk (some b) x.name).isSome = true := by
    intro b x hx
    rw [Function.update_of_ne (hne x hx), hr.blocks x hx]
    rfl
  have hsrc : h2.insertSrc h.brk = some h3 :=
    insertSrc_eq (h := h2) (hr.src.clear (hr.fresh (List.Subset.refl _) _)) (hlive b2) (Function.update_self _ _ _) rfl hs
  have hdst : h4.insertDst h.brk = some { h4 with dst := (h.dst.clear h.brk).push l.dst h.brk } :=
    insertDst_eq (h := h4) (hr.dst.clear (hr.fresh (List.Subset.refl _) _)) (hlive l.block)
      (Function.update_self _ _ _) rfl hd
  exact Option.bind_eq_some_iff.2 ⟨_, hupd, Option.bind_eq_some_iff.2 ⟨_, hsrc,
    Option.bind_eq_some_iff.2 ⟨_, hupd', hdst⟩⟩⟩

theorem tc_add_link_spec (hr : Rep h g) {s d : ip_v4_addr ws} (c : ℤ) {es ed : AddrInfo ws}
    (hs : resolve g.addrs s = some es) (hd : resolve g.addrs d = some ed) :
    ∃ h', tc_add_link h s d c = some h' ∧
      Rep h' (g.addLink ⟨h.brk, es.node, ed.node, BitVec.ofInt ws.bits c⟩) := by
  have hns := hr.resolve_node hs
  have hnd := hr.resolve_node hd
  have hgs := tc_get_node_spec hr.allocLink_addrs s
  have hgd := tc_get_node_spec hr.allocLink_addrs d
  obtain ⟨ll, hll⟩ : ∃ x, addLocalLink h.allocLink s ed.node = some { h.allocLink with g_local_links := x } := by
    rw [addLocalLink]
    split
    · obtain ⟨ll, hll⟩ := hr.allocLink_addrs.update_local_link hnd (hr.main _ hnd) (hr.node hnd)
      rw [hll]
      exact ⟨_, rfl⟩
    · exact ⟨h.g_local_links, rfl⟩
  refine ⟨_, ?_, (hr.withLocal ll h.g_local_addr_tab h.g_local_mask_tab).withLink rfl hns hnd⟩
  rw [tc_add_link, hgs, hs, Option.map_some, Option.bind_eq_bind, Option.bind_some, hgd, hd, Option.map_some]
  exact Option.bind_eq_some_iff.2 ⟨_, rfl, Option.bind_eq_some_iff.2 ⟨_, hll,
    enterLink_eq hr.linksRep (hr.liveNode hns) (hr.liveNode hnd) c ll⟩⟩

end MpOlsr
