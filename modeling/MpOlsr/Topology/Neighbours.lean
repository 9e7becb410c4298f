import MpOlsr.Lib.Fault
import MpOlsr.Topology.Mains

/-!
# The local links under the commands

What every command does to `g_local_links`.  The entry that `tc_update_local_link` computes for a node is a function of
the addresses of the node and of the local interfaces (`linkEntry`).
-/

namespace MpOlsr

open DoublyLinked Fault

variable {ws : WordSize} {h h' s s' : Store ws} {g : Shape ws}

/-! ### The entry of a neighbour -/

/-- The first address of a node in a network. -/
def addrIn (A : List (AddrInfo ws)) (n : Ptr) (mask net : ip_v4_addr ws) (is : List Slot) : Option (ip_v4_addr ws) :=
  is.findSome? fun i => (entryAt A n i).bind fun e => if e.addr_ip &&& mask = net then some e.addr_ip else none

/-- The first interface in the network of an address of a node. -/
def interfaceOf (addrs masks : Slot → ip_v4_addr ws) (A : List (AddrInfo ws)) (n : Ptr) (link : LocalLinkEntry ws)
    (is : List Slot) : LocalLinkEntry ws :=
  (is.findSome? fun i =>
    if addrs i &&& masks i = 0 then none
    else (addrIn A n (masks i) (addrs i &&& masks i) [0, 1, 2, 3, 4]).map fun a =>
      { link with dst_alias_ip := a, local_addr_alias := addrs i, local_addr_mask := masks i }).getD link

/-- The entry for a node. -/
def linkEntry (addrs masks : Slot → ip_v4_addr ws) (A : List (AddrInfo ws)) (n : Ptr) : LocalLinkEntry ws :=
  interfaceOf addrs masks A n ⟨⟨(mainAddr A n).getD 0, 0⟩, 0, 0⟩ [0, 1, 2, 3, 4]

section Entry

variable {M : List Ptr} {A A' : List (AddrInfo ws)} {n : Ptr} {addrs masks : Slot → ip_v4_addr ws}

theorem interfaceOf_dst (link : LocalLinkEntry ws) (is : List Slot) :
    (interfaceOf addrs masks A n link is).dst_addr_ip = link.dst_addr_ip := by
  unfold interfaceOf
  cases hfind : is.findSome? _ with
  | none => rfl
  | some l =>
    obtain ⟨i, -, hi⟩ := List.exists_of_findSome?_eq_some hfind
    split at hi
    · cases hi
    · obtain ⟨a, -, rfl⟩ := Option.map_eq_some_iff.1 hi
      rfl

theorem linkEntry_dst : (linkEntry addrs masks A n).dst_addr_ip = (mainAddr A n).getD 0 := interfaceOf_dst _ _

/-- The entry depends on the addresses of the node only. -/
theorem linkEntry_congr (hA : ∀ i, entryAt A' n i = entryAt A n i) :
    linkEntry addrs masks A' n = linkEntry addrs masks A n := by
  have hin : addrIn A' n = addrIn A n := by
    funext mask net is
    simp only [addrIn, hA]
  simp only [linkEntry, interfaceOf, mainAddr, hin, hA]

theorem AddrsRep.findInterface_eq (hr : AddrsRep h M A) (hn : n ∈ M) {nd : OlsrNode} (hnd : h.nodes n = some nd)
    (mask net : ip_v4_addr ws) (is : List Slot) :
    findInterface h nd.addr_tab mask net is = some (addrIn A n mask net is) := by
  induction is with
  | nil => rfl
  | cons i is ih =>
    have htab := hr.tab n hn nd hnd i
    rw [findInterface, addrIn, List.findSome?_cons, ← addrIn]
    cases hi : entryAt A n i with
    | none =>
      rw [hi, Option.map_none] at htab
      simp only [htab, Option.bind_none]
      exact ih
    | some e =>
      rw [hi, Option.map_some] at htab
      have hblock := hr.blocks e (entryAt_mem hi).1
      simp only [htab, Option.bind_some]
      rw [bind_of_some hblock]
      by_cases hnet : e.addr_ip &&& mask = net
      · rw [if_pos hnet, if_pos (by exact hnet)]
        rfl
      · rw [if_neg hnet, if_neg (by exact hnet)]
        exact ih

theorem AddrsRep.findLocalInterface_eq (hr : AddrsRep h M A) (hn : n ∈ M) {nd : OlsrNode} (hnd : h.nodes n = some nd)
    (link : LocalLinkEntry ws) (is : List Slot) : findLocalInterface h nd.addr_tab link is =
      some (interfaceOf h.g_local_addr_tab h.g_local_mask_tab A n link is) := by
  induction is with
  | nil => rfl
  | cons i is ih =>
    rw [findLocalInterface, interfaceOf, List.findSome?_cons]
    by_cases hnet : h.g_local_addr_tab i &&& h.g_local_mask_tab i = 0
    · rw [if_pos hnet, if_pos hnet]
      exact ih
    · rw [if_neg hnet, if_neg hnet, bind_of_some (hr.findInterface_eq hn hnd _ _ _)]
      cases addrIn A n (h.g_local_mask_tab i) (h.g_local_addr_tab i &&& h.g_local_mask_tab i) [0, 1, 2, 3, 4] with
      | none => exact ih
      | some a => rfl

theorem AddrsRep.update_local_link_eq (hr : AddrsRep h M A) (hn : n ∈ M) (hmain : ∃ e ∈ A, e.node = n ∧ e.pos = 0)
    (hnode : ∃ nd, h.nodes n = some nd) :
    tc_update_local_link h n = some (linkEntry h.g_local_addr_tab h.g_local_mask_tab A n) := by
  obtain ⟨nd, hnd⟩ := hnode
  obtain ⟨e, he, rfl, hpos⟩ := hmain
  have hentry := hr.entryAt_eq he
  rw [hpos] at hentry
  have htab : nd.addr_tab 0 = some e.name := by
    rw [hr.tab _ hn nd hnd 0, hentry]
    rfl
  have hdst : (mainAddr A e.node).getD 0 = e.addr_ip := by
    rw [mainAddr, hentry]
    rfl
  unfold tc_update_local_link
  rw [bind_of_some hnd, bind_of_some htab, bind_of_some (hr.blocks e he), hr.findLocalInterface_eq hn hnd, linkEntry,
    hdst]
  rfl

theorem Rep.update_local_link_eq (hr : Rep h g) (hn : n ∈ g.nodes) :
    tc_update_local_link h n = some (linkEntry h.g_local_addr_tab h.g_local_mask_tab g.addrs n) :=
  hr.addrsRep.update_local_link_eq hn (hr.main n hn) (hr.node hn)

end Entry

/-- Replace the first local link to an address. -/
def replaceLocalLink (addr_ip : ip_v4_addr ws) (l : LocalLinkEntry ws) :
    List (LocalLinkEntry ws) → List (LocalLinkEntry ws)
  | [] => []
  | link :: links => if link.dst_addr_ip = addr_ip then l :: links else link :: replaceLocalLink addr_ip l links

theorem updateLocalLinks_eq {n : Ptr} {l : LocalLinkEntry ws} (hl : tc_update_local_link h n = some l)
    (a : ip_v4_addr ws) (links : List (LocalLinkEntry ws)) :
    updateLocalLinks h n a links = some (replaceLocalLink a l links) := by
  induction links with
  | nil => rfl
  | cons link links ih =>
    rw [updateLocalLinks, replaceLocalLink]
    by_cases ha : link.dst_addr_ip = a
    · rw [if_pos ha, if_pos ha, hl]
      rfl
    · rw [if_neg ha, if_neg ha, ih]
      rfl

/-- The store with other local links. -/
def Store.withLinks (h : Store ws) (links : List (LocalLinkEntry ws)) : Store ws := { h with g_local_links := links }

/-! ### What is not touched -/

/-- The local interfaces and links of two stores are the same. -/
structure SameLocals (h s : Store ws) : Prop where
  addrs : s.g_local_addr_tab = h.g_local_addr_tab
  masks : s.g_local_mask_tab = h.g_local_mask_tab
  links : s.g_local_links = h.g_local_links

namespace SameLocals

theorem refl : SameLocals h h := ⟨rfl, rfl, rfl⟩

theorem of_map {β : Type} {o : Option β} {f : β → Store ws} (ho : o.map f = some s) (hf : ∀ b, SameLocals h (f b)) :
    SameLocals h s := by
  obtain ⟨b, -, rfl⟩ := Option.map_eq_some_iff.1 ho
  exact hf b

variable (hs : SameLocals h s)

section

include hs

theorem updAddr {p : Ptr} {f : OlsrNodeAddr ws → OlsrNodeAddr ws} (ho : s.updAddr p f = some s') : SameLocals h s' :=
  of_map ho fun _ => ⟨hs.addrs, hs.masks, hs.links⟩

theorem updNode {p : Ptr} {f : OlsrNode → OlsrNode} (ho : s.updNode p f = some s') : SameLocals h s' :=
  of_map ho fun _ => ⟨hs.addrs, hs.masks, hs.links⟩

theorem updLink {p : Ptr} {f : OlsrNodeLink ws → OlsrNodeLink ws} (ho : s.updLink p f = some s') : SameLocals h s' :=
  of_map ho fun _ => ⟨hs.addrs, hs.masks, hs.links⟩

theorem freeAddr {p : Ptr} (ho : s.freeAddr p = some s') : SameLocals h s' :=
  of_map ho fun _ => ⟨hs.addrs, hs.masks, hs.links⟩

theorem freeNode {p : Ptr} (ho : s.freeNode p = some s') : SameLocals h s' :=
  of_map ho fun _ => ⟨hs.addrs, hs.masks, hs.links⟩

theorem freeLink {p : Ptr} (ho : s.freeLink p = some s') : SameLocals h s' :=
  of_map ho fun _ => ⟨hs.addrs, hs.masks, hs.links⟩

theorem insertSrc {p : Ptr} (ho : s.insertSrc p = some s') : SameLocals h s' := by
  obtain ⟨l, -, ho⟩ := Option.bind_eq_some_iff.1 ho
  obtain ⟨n, -, ho⟩ := Option.bind_eq_some_iff.1 ho
  exact of_map ho fun _ => ⟨hs.addrs, hs.masks, hs.links⟩

theorem insertDst {p : Ptr} (ho : s.insertDst p = some s') : SameLocals h s' := by
  obtain ⟨l, -, ho⟩ := Option.bind_eq_some_iff.1 ho
  obtain ⟨n, -, ho⟩ := Option.bind_eq_some_iff.1 ho
  exact of_map ho fun _ => ⟨hs.addrs, hs.masks, hs.links⟩

theorem removeSrc {p : Ptr} (ho : s.removeSrc p = some s') : SameLocals h s' := by
  obtain ⟨l, -, ho⟩ := Option.bind_eq_some_iff.1 ho
  obtain ⟨n, -, ho⟩ := Option.bind_eq_some_iff.1 ho
  exact of_map ho fun _ => ⟨hs.addrs, hs.masks, hs.links⟩

theorem removeDst {p : Ptr} (ho : s.removeDst p = some s') : SameLocals h s' := by
  obtain ⟨l, -, ho⟩ := Option.bind_eq_some_iff.1 ho
  obtain ⟨n, -, ho⟩ := Option.bind_eq_some_iff.1 ho
  exact of_map ho fun _ => ⟨hs.addrs, hs.masks, hs.links⟩

theorem tc_add_node_addr {p n : Ptr} {a : ip_v4_addr ws} {main_addr : Bool} {r : Bool × Store ws}
    (ho : MpOlsr.tc_add_node_addr s p n a main_addr = some r) : SameLocals h r.2 := by
  obtain ⟨s₁, h₁, ho⟩ := Option.bind_eq_some_iff.1 ho
  have hs₁ := hs.updAddr h₁
  obtain ⟨pos, -, ho⟩ := Option.bind_eq_some_iff.1 ho
  cases pos with
  | none =>
    cases ho
    exact hs₁
  | some pos =>
    obtain ⟨s₂, h₂, ho⟩ := Option.bind_eq_some_iff.1 ho
    obtain ⟨s₃, h₃, ho⟩ := Option.bind_eq_some_iff.1 ho
    obtain ⟨D, -, ho⟩ := Option.bind_eq_some_iff.1 ho
    have hs₃ := (hs₁.updAddr h₂).updNode h₃
    cases ho
    exact ⟨hs₃.addrs, hs₃.masks, hs₃.links⟩

theorem tc_rmv_node_addr {a : ip_v4_addr ws} {r : Option Ptr × Store ws} (ho : MpOlsr.tc_rmv_node_addr s a = some r) :
    SameLocals h r.2 := by
  obtain ⟨entry, -, ho⟩ := Option.bind_eq_some_iff.1 ho
  cases entry with
  | none =>
    cases ho
    exact hs
  | some p =>
    obtain ⟨D, -, ho⟩ := Option.bind_eq_some_iff.1 ho
    obtain ⟨b, -, ho⟩ := Option.bind_eq_some_iff.1 ho
    obtain ⟨n, -, ho⟩ := Option.bind_eq_some_iff.1 ho
    obtain ⟨s₁, h₁, ho⟩ := Option.bind_eq_some_iff.1 ho
    have hD : SameLocals h { s with hash := D } := ⟨hs.addrs, hs.masks, hs.links⟩
    cases ho
    exact hD.updNode h₁

theorem removeAddrs {n : Ptr} {is : List Slot} {r : List Ptr × Store ws} (ho : MpOlsr.removeAddrs n is s = some r) :
    SameLocals h r.2 := by
  induction is generalizing s r with
  | nil =>
    cases ho
    exact hs
  | cons i is ih =>
    obtain ⟨nd, -, ho⟩ := Option.bind_eq_some_iff.1 ho
    split at ho
    · exact ih hs ho
    · obtain ⟨a, -, ho⟩ := Option.bind_eq_some_iff.1 ho
      obtain ⟨r₁, h₁, ho⟩ := Option.bind_eq_some_iff.1 ho
      obtain ⟨r₂, h₂, ho⟩ := Option.bind_eq_some_iff.1 ho
      have hs₂ := ih (hs.tc_rmv_node_addr h₁) h₂
      cases ho
      exact hs₂

theorem detachLinks {n : Ptr} (ho : MpOlsr.detachLinks s n = some s') : SameLocals h s' := by
  obtain ⟨first, -, ho⟩ := Option.bind_eq_some_iff.1 ho
  obtain ⟨s₁, h₁, ho⟩ := Option.bind_eq_some_iff.1 ho
  obtain ⟨first', -, ho⟩ := Option.bind_eq_some_iff.1 ho
  have hs₁ : SameLocals h s₁ := by
    refine walk_keeps (P := SameLocals h) ?_ hs h₁
    intro s x r hs hr
    obtain ⟨s₂, h₂, hr⟩ := Option.bind_eq_some_iff.1 hr
    obtain ⟨next, -, hr⟩ := Option.bind_eq_some_iff.1 hr
    cases hr
    exact hs.removeDst h₂
  refine walk_keeps (P := SameLocals h) ?_ hs₁ ho
  intro s x r hs hr
  obtain ⟨s₂, h₂, hr⟩ := Option.bind_eq_some_iff.1 hr
  obtain ⟨next, -, hr⟩ := Option.bind_eq_some_iff.1 hr
  cases hr
  exact hs.removeSrc h₂

theorem freeLinks {n : Ptr} (ho : MpOlsr.freeLinks s n = some s') : SameLocals h s' := by
  obtain ⟨first, -, ho⟩ := Option.bind_eq_some_iff.1 ho
  obtain ⟨s₁, h₁, ho⟩ := Option.bind_eq_some_iff.1 ho
  obtain ⟨first', -, ho⟩ := Option.bind_eq_some_iff.1 ho
  have hs₁ : SameLocals h s₁ := by
    refine walk_keeps (P := SameLocals h) ?_ hs h₁
    intro s x r hs hr
    obtain ⟨next, -, hr⟩ := Option.bind_eq_some_iff.1 hr
    obtain ⟨s₂, h₂, hr⟩ := Option.bind_eq_some_iff.1 hr
    cases hr
    exact hs.freeLink h₂
  refine walk_keeps (P := SameLocals h) ?_ hs₁ ho
  intro s x r hs hr
  obtain ⟨next, -, hr⟩ := Option.bind_eq_some_iff.1 hr
  obtain ⟨s₂, h₂, hr⟩ := Option.bind_eq_some_iff.1 hr
  cases hr
  exact hs.freeLink h₂

theorem freeAddrs {ps : List Ptr} (ho : ps.foldlM Store.freeAddr s = some s') : SameLocals h s' := by
  induction ps generalizing s with
  | nil =>
    cases ho
    exact hs
  | cons p ps ih =>
    rw [List.foldlM_cons] at ho
    obtain ⟨s₁, h₁, ho⟩ := Option.bind_eq_some_iff.1 ho
    exact ih (hs.freeAddr h₁) ho

end

end SameLocals

/-! ### What the commands do to the local links -/

section Commands

theorem tc_add_node_locals {a : ip_v4_addr ws} (hrun : tc_add_node h a = some h') : SameLocals h h' := by
  obtain ⟨found, -, hrun⟩ := Option.bind_eq_some_iff.1 hrun
  cases found with
  | some n =>
    cases hrun
    exact .refl
  | none =>
    obtain ⟨r, hr, hrun⟩ := Option.bind_eq_some_iff.1 hrun
    have hnew : SameLocals h h.allocNode.allocAddr := ⟨rfl, rfl, rfl⟩
    have hr₁ := hnew.tc_add_node_addr hr
    split at hrun
    · obtain ⟨s, hs, hrun⟩ := Option.bind_eq_some_iff.1 hrun
      exact (hr₁.freeAddr hs).freeNode hrun
    · obtain ⟨D, -, hrun⟩ := Option.bind_eq_some_iff.1 hrun
      cases hrun
      exact ⟨hr₁.addrs, hr₁.masks, hr₁.links⟩

theorem tc_remove_node_locals {a : ip_v4_addr ws} {n : Ptr} (hn : tc_get_node h a = some (some n))
    (hrun : tc_remove_node h a = some h') :
    SameLocals (h.withLinks (if a = h.g_local_addr_tab 0 then [] else removeLocalLink a h.g_local_links)) h' := by
  unfold tc_remove_node at hrun
  rw [bind_of_some hn] at hrun
  dsimp only at hrun
  obtain ⟨D, -, hrun⟩ := Option.bind_eq_some_iff.1 hrun
  obtain ⟨r, hr, hrun⟩ := Option.bind_eq_some_iff.1 hrun
  obtain ⟨s₁, h₁, hrun⟩ := Option.bind_eq_some_iff.1 hrun
  obtain ⟨s₂, h₂, hrun⟩ := Option.bind_eq_some_iff.1 hrun
  obtain ⟨s₃, h₃, hrun⟩ := Option.bind_eq_some_iff.1 hrun
  let h₀ : Store ws :=
    { h with g_local_links := if a = h.g_local_addr_tab 0 then [] else removeLocalLink a h.g_local_links }
  have h₀' : SameLocals h₀ { h₀ with node_lst := D } := ⟨rfl, rfl, rfl⟩
  exact ((((h₀'.removeAddrs hr).detachLinks h₁).freeAddrs h₂).freeLinks h₃).freeNode hrun

theorem tc_add_link_locals (hr : Rep h g) {a b : ip_v4_addr ws} {c : ℤ} {ea eb : AddrInfo ws}
    (ha : resolve g.addrs a = some ea) (hb : resolve g.addrs b = some eb) (hrun : tc_add_link h a b c = some h') :
    SameLocals (h.withLinks (if a = h.g_local_addr_tab 0 then
      linkEntry h.g_local_addr_tab h.g_local_mask_tab g.addrs eb.node :: h.g_local_links
      else h.g_local_links)) h' := by
  have hga := tc_get_node_spec hr.allocLink_addrs a
  have hgb := tc_get_node_spec hr.allocLink_addrs b
  rw [ha, Option.map_some] at hga
  rw [hb, Option.map_some] at hgb
  have hnode := hr.resolve_node hb
  unfold tc_add_link at hrun
  rw [bind_of_some hga] at hrun
  dsimp only at hrun
  rw [bind_of_some hgb] at hrun
  obtain ⟨s₁, h₁, hrun⟩ := Option.bind_eq_some_iff.1 hrun
  obtain ⟨s₂, h₂, hrun⟩ := Option.bind_eq_some_iff.1 hrun
  obtain ⟨s₃, h₃, hrun⟩ := Option.bind_eq_some_iff.1 hrun
  obtain ⟨s₄, h₄, hrun⟩ := Option.bind_eq_some_iff.1 hrun
  refine SameLocals.insertDst (SameLocals.updLink (SameLocals.insertSrc (SameLocals.updLink ?_ h₂) h₃) h₄) hrun
  rw [addLocalLink] at h₁
  split at h₁
  · next heq =>
    have heq : a = h.g_local_addr_tab 0 := heq
    rw [hr.allocLink_addrs.update_local_link_eq hnode (hr.main _ hnode) (hr.node hnode)] at h₁
    cases h₁
    rw [if_pos heq]
    exact ⟨rfl, rfl, rfl⟩
  · next hne =>
    have hne : ¬ a = h.g_local_addr_tab 0 := hne
    cases h₁
    rw [if_neg hne]
    exact ⟨rfl, rfl, rfl⟩

theorem tc_add_link_locals_unknown (hr : Rep h g) {a b : ip_v4_addr ws} {c : ℤ}
    (hab : resolve g.addrs a = none ∨ resolve g.addrs b = none) (hrun : tc_add_link h a b c = some h') :
    SameLocals h h' := by
  have hga := tc_get_node_spec hr.allocLink_addrs a
  have hgb := tc_get_node_spec hr.allocLink_addrs b
  have hnew : SameLocals h h.allocLink := ⟨rfl, rfl, rfl⟩
  unfold tc_add_link at hrun
  cases ha : resolve g.addrs a with
  | none =>
    rw [ha, Option.map_none] at hga
    rw [bind_of_some hga] at hrun
    exact hnew.freeLink hrun
  | some e =>
    have hb := hab.resolve_left (by rw [ha]; exact Option.some_ne_none e)
    rw [ha, Option.map_some] at hga
    rw [hb, Option.map_none] at hgb
    rw [bind_of_some hga] at hrun
    dsimp only at hrun
    rw [bind_of_some hgb] at hrun
    exact hnew.freeLink hrun

theorem tc_remove_link_locals (hr : Rep h g) {a b : ip_v4_addr ws} {e : AddrInfo ws} {l : LinkInfo ws}
    (ha : resolve g.addrs a = some e) (hl : findLink g e.node b = some l) (hrun : tc_remove_link h a b = some h') :
    SameLocals (h.withLinks (if a = h.g_local_addr_tab 0 then removeLocalLink b h.g_local_links
      else h.g_local_links)) h' := by
  have hsearch := hr.search_link e.node b
  rw [hl, Option.map_some] at hsearch
  have hhead : h.src.getHead h.liveNode e.node = some (h.src.head e.node) := if_pos (hr.liveNode (hr.resolve_node ha))
  have hget := hr.get_node a
  rw [ha, Option.map_some] at hget
  unfold tc_remove_link at hrun
  rw [bind_of_some hget] at hrun
  dsimp only at hrun
  rw [bind_of_some hhead, bind_of_some hsearch] at hrun
  obtain ⟨s₁, h₁, hrun⟩ := Option.bind_eq_some_iff.1 hrun
  obtain ⟨s₂, h₂, hrun⟩ := Option.bind_eq_some_iff.1 hrun
  have hs₂ : SameLocals h s₂ := (SameLocals.refl.removeDst h₁).removeSrc h₂
  rw [hs₂.addrs, hs₂.masks, hs₂.links] at hrun
  refine SameLocals.of_map hrun fun _ => ⟨rfl, rfl, rfl⟩

theorem tc_add_alias_locals (hr : Rep h g) {a b : ip_v4_addr ws} {e : AddrInfo ws} (ha : resolve g.addrs a = some e)
    {g' : Shape ws} (hr' : Rep h' g') (hn : e.node ∈ g'.nodes) (hrun : tc_add_alias h a b = some h') :
    SameLocals (h.withLinks (replaceLocalLink a
      (linkEntry h.g_local_addr_tab h.g_local_mask_tab g'.addrs e.node) h.g_local_links)) h' := by
  have hget := hr.allocAddr.get_node a
  rw [ha, Option.map_some] at hget
  have hnew : SameLocals h h.allocAddr := ⟨rfl, rfl, rfl⟩
  unfold tc_add_alias at hrun
  rw [bind_of_some hget] at hrun
  obtain ⟨r, hadd, hrun⟩ := Option.bind_eq_some_iff.1 hrun
  obtain ⟨links, hlinks, hrun⟩ := Option.bind_eq_some_iff.1 hrun
  have hs := hnew.tc_add_node_addr hadd
  cases hrun
  have hr₂ : Rep r.2 g' := hr'.withLocal r.2.g_local_links r.2.g_local_addr_tab r.2.g_local_mask_tab
  rw [updateLocalLinks_eq (hr₂.update_local_link_eq hn), hs.addrs, hs.masks, hs.links] at hlinks
  cases hlinks
  exact ⟨hs.addrs, hs.masks, rfl⟩

theorem tc_add_alias_locals_unknown (hr : Rep h g) {a b : ip_v4_addr ws} (ha : resolve g.addrs a = none)
    (hrun : tc_add_alias h a b = some h') : SameLocals h h' := by
  have hget := hr.allocAddr.get_node a
  rw [ha, Option.map_none] at hget
  have hnew : SameLocals h h.allocAddr := ⟨rfl, rfl, rfl⟩
  unfold tc_add_alias at hrun
  rw [bind_of_some hget] at hrun
  exact hnew.freeAddr hrun

theorem tc_remove_alias_locals (hr : Rep h g) {a b : ip_v4_addr ws} {e e' : AddrInfo ws}
    (ha : resolve g.addrs a = some e) (hb : resolve g.addrs b = some e') (hpos : e'.pos ≠ 0)
    (hrun : tc_remove_alias h a b = some h') :
    SameLocals (h.withLinks (replaceLocalLink a
      (linkEntry h.g_local_addr_tab h.g_local_mask_tab (g.dropEntry e').addrs e.node) h.g_local_links)) h' := by
  obtain ⟨nd, hnd⟩ := hr.node (hr.resolve_node hb)
  have hr₁ := hr.withoutEntry (resolve_mem hb).1 hpos hnd
  have hget := hr.get_node a
  rw [ha, Option.map_some] at hget
  unfold tc_remove_alias at hrun
  rw [bind_of_some hget] at hrun
  obtain ⟨r, hrmv, hrun⟩ := Option.bind_eq_some_iff.1 hrun
  rw [tc_rmv_node_addr_eq hr.addrsRep hb hnd] at hrmv
  cases hrmv
  obtain ⟨links, hlinks, hrun⟩ := Option.bind_eq_some_iff.1 hrun
  rw [updateLocalLinks_eq (hr₁.update_local_link_eq (hr.resolve_node ha))] at hlinks
  cases hlinks
  let links := replaceLocalLink a
    (linkEntry h.g_local_addr_tab h.g_local_mask_tab (g.dropEntry e').addrs e.node) h.g_local_links
  have hnew : SameLocals (h.withLinks links) ((h.withoutEntry e' nd).withLinks links) := ⟨rfl, rfl, rfl⟩
  exact hnew.freeAddrs hrun

/-- An alias that is not registered: the entry of the node is only computed again. -/
theorem tc_remove_alias_locals_none (hr : Rep h g) {a b : ip_v4_addr ws} {e : AddrInfo ws}
    (ha : resolve g.addrs a = some e) (hb : resolve g.addrs b = none) (hrun : tc_remove_alias h a b = some h') :
    SameLocals (h.withLinks (replaceLocalLink a
      (linkEntry h.g_local_addr_tab h.g_local_mask_tab g.addrs e.node) h.g_local_links)) h' := by
  have hget := hr.get_node a
  rw [ha, Option.map_some] at hget
  unfold tc_remove_alias at hrun
  rw [bind_of_some hget] at hrun
  obtain ⟨r, hrmv, hrun⟩ := Option.bind_eq_some_iff.1 hrun
  rw [tc_rmv_node_addr_none hr.addrsRep hb] at hrmv
  cases hrmv
  obtain ⟨links, hlinks, hrun⟩ := Option.bind_eq_some_iff.1 hrun
  rw [updateLocalLinks_eq (hr.update_local_link_eq (hr.resolve_node ha))] at hlinks
  cases hlinks
  exact SameLocals.refl.freeAddrs hrun

end Commands

end MpOlsr
