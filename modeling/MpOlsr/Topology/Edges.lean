import MpOlsr.Topology.Shape

/-!
# Links

What the commands do to the links of the store: a new link enters two lists, and a link leaves both.  When a node is
removed, its links first leave the lists of the other nodes (`detachLinks_eq`), and are freed along the lists of the
node (`freeLinks_eq`).
-/

namespace MpOlsr

open DoublyLinked

variable {ws : WordSize} {h : Store ws} {L S D : List (LinkInfo ws)}

/-- The blocks of the links on a list are live. -/
theorem group_live {key : LinkInfo ws → Ptr} (hblocks : ∀ l ∈ L, h.link_blocks l.name = some l.block) {k : Ptr} :
    ∀ y ∈ group key LinkInfo.name L k, h.liveLink y = true := by
  intro y hy
  obtain ⟨l, hl, -, rfl⟩ := mem_group.1 hy
  rw [Store.liveLink, hblocks l hl]
  rfl

theorem removeSrc_eq (hs : Holds h.src (group LinkInfo.src LinkInfo.name S))
    (hblocks : ∀ l ∈ S, h.link_blocks l.name = some l.block) {l : LinkInfo ws} (hl : l ∈ S)
    (hn : h.liveNode l.src = true) : h.removeSrc l.name = some { h with src := h.src.unlink l.src l.name } := by
  have hcell := hs.removeCell (k := l.src) (group_live hblocks) hn (mem_group.2 ⟨l, hl, rfl, rfl⟩)
  rw [Store.removeSrc, hblocks l hl]
  exact Option.bind_eq_some_iff.2 ⟨_, rfl, Option.bind_eq_some_iff.2 ⟨_, rfl, by rw [hcell]; rfl⟩⟩

theorem removeDst_eq (hd : Holds h.dst (group LinkInfo.dst LinkInfo.name D))
    (hblocks : ∀ l ∈ D, h.link_blocks l.name = some l.block) {l : LinkInfo ws} (hl : l ∈ D)
    (hn : h.liveNode l.dst = true) : h.removeDst l.name = some { h with dst := h.dst.unlink l.dst l.name } := by
  have hcell := hd.removeCell (k := l.dst) (group_live hblocks) hn (mem_group.2 ⟨l, hl, rfl, rfl⟩)
  rw [Store.removeDst, hblocks l hl]
  exact Option.bind_eq_some_iff.2 ⟨_, rfl, Option.bind_eq_some_iff.2 ⟨_, rfl, by rw [hcell]; rfl⟩⟩

theorem insertSrc_eq (hs : Holds h.src (group LinkInfo.src LinkInfo.name S))
    (hlive : ∀ l ∈ S, h.liveLink l.name = true) {p n : Ptr} {b : OlsrNodeLink ws} (hp : h.link_blocks p = some b)
    (hb : b.src_node = some n) (hn : h.liveNode n = true) :
    h.insertSrc p = some { h with src := h.src.push n p } := by
  have hlive' : ∀ y ∈ group LinkInfo.src LinkInfo.name S n, h.liveLink y = true := by
    intro y hy
    obtain ⟨l, hl, -, rfl⟩ := mem_group.1 hy
    exact hlive l hl
  have hcell := hs.insertCell hlive' hn (show h.liveLink p = true by rw [Store.liveLink, hp]; rfl)
  rw [Store.insertSrc, hp]
  exact Option.bind_eq_some_iff.2 ⟨_, rfl, Option.bind_eq_some_iff.2 ⟨_, hb, by rw [hcell]; rfl⟩⟩

theorem insertDst_eq (hd : Holds h.dst (group LinkInfo.dst LinkInfo.name D))
    (hlive : ∀ l ∈ D, h.liveLink l.name = true) {p n : Ptr} {b : OlsrNodeLink ws} (hp : h.link_blocks p = some b)
    (hb : b.dst_node = some n) (hn : h.liveNode n = true) :
    h.insertDst p = some { h with dst := h.dst.push n p } := by
  have hlive' : ∀ y ∈ group LinkInfo.dst LinkInfo.name D n, h.liveLink y = true := by
    intro y hy
    obtain ⟨l, hl, -, rfl⟩ := mem_group.1 hy
    exact hlive l hl
  have hcell := hd.insertCell hlive' hn (show h.liveLink p = true by rw [Store.liveLink, hp]; rfl)
  rw [Store.insertDst, hp]
  exact Option.bind_eq_some_iff.2 ⟨_, rfl, Option.bind_eq_some_iff.2 ⟨_, hb, by rw [hcell]; rfl⟩⟩

/-! ### A link is added or removed -/

/-- The store with a new link in the block `l.name`. -/
def Store.withLink (h : Store ws) (l : LinkInfo ws) : Store ws :=
  { h with link_blocks := Function.update h.link_blocks l.name (some l.block), brk := h.brk + 1,
           src := (h.src.clear l.name).push l.src l.name, dst := (h.dst.clear l.name).push l.dst l.name }

/-- The store with a link taken off its lists and freed. -/
def Store.withoutLink (h : Store ws) (l : LinkInfo ws) : Store ws :=
  { h with link_blocks := Function.update h.link_blocks l.name none, src := h.src.unlink l.src l.name,
           dst := h.dst.unlink l.dst l.name }

/-- The links without the block of `l`. -/
def dropLink (L : List (LinkInfo ws)) (l : LinkInfo ws) : List (LinkInfo ws) := L.filter fun l' => l'.name ≠ l.name

theorem mem_dropLink {l l' : LinkInfo ws} : l' ∈ dropLink L l ↔ l' ∈ L ∧ l'.name ≠ l.name := by
  simp [dropLink]

theorem LinksRep.fresh (hr : LinksRep h L S D) (hS : S ⊆ L) (key : LinkInfo ws → Ptr) :
    ∀ k, h.brk ∉ group key LinkInfo.name S k := by
  intro k hk
  obtain ⟨l, hl, -, hname⟩ := mem_group.1 hk
  exact absurd hname (Nat.ne_of_lt (hr.bound l (hS hl)))

theorem LinksRep.withLink (hr : LinksRep h L L L) {l : LinkInfo ws} (hl : l.name = h.brk) :
    LinksRep (h.withLink l) (l :: L) (l :: L) (l :: L) where
  src := by
    have hfresh := hr.fresh (List.Subset.refl L) LinkInfo.src
    rw [← hl] at hfresh
    rw [group_cons]
    exact (hr.src.clear hfresh).push hfresh (Function.update_self _ _ _) _
  dst := by
    have hfresh := hr.fresh (List.Subset.refl L) LinkInfo.dst
    rw [← hl] at hfresh
    rw [group_cons]
    exact (hr.dst.clear hfresh).push hfresh (Function.update_self _ _ _) _
  blocks := by
    intro l' hl'
    show Function.update h.link_blocks l.name (some l.block) l'.name = _
    rcases List.mem_cons.1 hl' with rfl | hmem
    · rw [Function.update_self]
    · have hne : l'.name ≠ l.name := hl ▸ Nat.ne_of_lt (hr.bound l' hmem)
      rw [Function.update_of_ne hne]
      exact hr.blocks l' hmem
  live := by
    intro p hp
    have hp : (Function.update h.link_blocks l.name (some l.block) p).isSome = true := hp
    by_cases hpl : p = l.name
    · exact ⟨l, List.mem_cons_self, hpl.symm⟩
    · rw [Function.update_of_ne hpl] at hp
      obtain ⟨l', hmem, hname⟩ := hr.live p hp
      exact ⟨l', List.mem_cons_of_mem _ hmem, hname⟩
  names := by
    rw [List.map_cons, List.nodup_cons]
    refine ⟨fun hmem => ?_, hr.names⟩
    obtain ⟨l', hmem, hname⟩ := List.mem_map.1 hmem
    exact absurd (hname.trans hl) (Nat.ne_of_lt (hr.bound l' hmem))
  bound := by
    intro l' hl'
    show l'.name < h.brk + 1
    rcases List.mem_cons.1 hl' with rfl | hmem
    · exact hl ▸ Nat.lt_succ_self _
    · exact Nat.lt_succ_of_lt (hr.bound l' hmem)

theorem LinksRep.withoutLink (hr : LinksRep h L L L) {l : LinkInfo ws} (hl : l ∈ L) :
    LinksRep (h.withoutLink l) (dropLink L l) (dropLink L l) (dropLink L l) where
  src := by
    have hinj : ∀ l' ∈ L, l'.name = l.name → l' = l := fun l' hmem hname => eq_of_name hr.names hmem hl hname
    rw [dropLink, group_filter_ne hl hinj]
    exact hr.src.unlink (mem_group.2 ⟨l, hl, rfl, rfl⟩)
  dst := by
    have hinj : ∀ l' ∈ L, l'.name = l.name → l' = l := fun l' hmem hname => eq_of_name hr.names hmem hl hname
    rw [dropLink, group_filter_ne hl hinj]
    exact hr.dst.unlink (mem_group.2 ⟨l, hl, rfl, rfl⟩)
  blocks := by
    intro l' hl'
    obtain ⟨hmem, hname⟩ := mem_dropLink.1 hl'
    show Function.update h.link_blocks l.name none l'.name = _
    rw [Function.update_of_ne hname]
    exact hr.blocks l' hmem
  live := by
    intro p hp
    have hp : (Function.update h.link_blocks l.name none p).isSome = true := hp
    by_cases hpl : p = l.name
    · subst hpl
      rw [Function.update_self] at hp
      cases hp
    · rw [Function.update_of_ne hpl] at hp
      obtain ⟨l', hmem, rfl⟩ := hr.live p hp
      exact ⟨l', mem_dropLink.2 ⟨hmem, hpl⟩, rfl⟩
  names := hr.names.sublist (List.filter_sublist.map _)
  bound := fun l' hl' => hr.bound l' (mem_dropLink.1 hl').1

/-! ### The links of a node are removed -/

/-- The links that do not come from `n`. -/
def notFrom (n : Ptr) (L : List (LinkInfo ws)) : List (LinkInfo ws) := L.filter fun l => l.src ≠ n

/-- The links that do not lead to `n`, but for the loops at `n`. -/
def notInto (n : Ptr) (L : List (LinkInfo ws)) : List (LinkInfo ws) := L.filter fun l => ¬ (l.dst = n ∧ l.src ≠ n)

/-- The links without an end at `n`. -/
def dropNode (n : Ptr) (L : List (LinkInfo ws)) : List (LinkInfo ws) := L.filter fun l => l.src ≠ n ∧ l.dst ≠ n

theorem LinksRep.group_length (hr : LinksRep h L L L) {S : List (LinkInfo ws)} (hS : S ⊆ L)
    {key : LinkInfo ws → Ptr} {k : Ptr} (hnodup : (group key LinkInfo.name S k).Nodup) :
    (group key LinkInfo.name S k).length ≤ h.brk := by
  refine length_le_of_bound hnodup fun y hy => ?_
  obtain ⟨l, hl, -, rfl⟩ := mem_group.1 hy
  exact hr.bound l (hS hl)

theorem detachLinks_eq (hr : LinksRep h L L L) (hlive : ∀ l ∈ L, h.liveNode l.src = true ∧ h.liveNode l.dst = true)
    {n : Ptr} (hn : h.liveNode n = true) :
    ∃ SS DD, detachLinks h n = some { h with src := SS, dst := DD } ∧
      Holds SS (group LinkInfo.src LinkInfo.name (notInto n L)) ∧
      Holds DD (group LinkInfo.dst LinkInfo.name (notFrom n L)) := by
  -- along the list of the source, off the lists of the destinations
  obtain ⟨DD, hwalk₁, hDD⟩ := hr.src.walk_unlink (n := n) (I := fun E => { h with dst := E })
    (t := removeDstStep) hr.dst (List.Subset.refl L) hr.names (by
      intro E L' l hL' hE hl
      have hrem := removeDst_eq (h := { h with dst := E }) hE (fun l' hl' => hr.blocks l' (hL' hl')) hl
        (hlive l (hL' hl)).2
      have hnext : h.src.getNext h.liveLink l.name = some (h.src.next l.name) :=
        if_pos (group_live hr.blocks l.name (mem_group.2 ⟨l, hL' hl, rfl, rfl⟩ : _ ∈ group LinkInfo.src _ L l.src))
      exact Option.bind_eq_some_iff.2 ⟨_, hrem, Option.bind_eq_some_iff.2 ⟨_, hnext, rfl⟩⟩)
    (hr.group_length (List.Subset.refl L) (hr.src.nodup n))
  have hfrom : (L.filter fun l => l.name ∉ group LinkInfo.src LinkInfo.name L n) = notFrom n L := by
    refine List.filter_congr fun l hl => ?_
    have hiff : l.name ∈ group LinkInfo.src LinkInfo.name L n ↔ l.src = n := by
      constructor
      · intro hmem
        obtain ⟨l', hl', hsrc, hname⟩ := mem_group.1 hmem
        rw [← eq_of_name hr.names hl' hl hname]
        exact hsrc
      · intro hsrc
        exact mem_group.2 ⟨l, hl, hsrc, rfl⟩
    simp [hiff]
  rw [hfrom] at hDD
  -- along the list of the destination, off the lists of the sources
  have hsub : notFrom n L ⊆ L := List.filter_subset_self L
  obtain ⟨SS, hwalk₂, hSS⟩ := hDD.walk_unlink (n := n) (I := fun E => { h with src := E, dst := DD })
    (t := removeSrcStep) hr.src hsub hr.names (by
      intro E L' l hL' hE hl
      have hrem := removeSrc_eq (h := { h with src := E, dst := DD }) hE (fun l' hl' => hr.blocks l' (hL' hl')) hl
        (hlive l (hL' hl)).1
      have hnext : DD.getNext h.liveLink l.name = some (DD.next l.name) :=
        if_pos (group_live hr.blocks l.name (mem_group.2 ⟨l, hL' hl, rfl, rfl⟩ : _ ∈ group LinkInfo.src _ L l.src))
      exact Option.bind_eq_some_iff.2 ⟨_, hrem, Option.bind_eq_some_iff.2 ⟨_, hnext, rfl⟩⟩)
    (hr.group_length hsub (hDD.nodup n))
  have hinto : (L.filter fun l => l.name ∉ group LinkInfo.dst LinkInfo.name (notFrom n L) n) = notInto n L := by
    refine List.filter_congr fun l hl => ?_
    have hiff : l.name ∈ group LinkInfo.dst LinkInfo.name (notFrom n L) n ↔ l.dst = n ∧ l.src ≠ n := by
      constructor
      · intro hmem
        obtain ⟨l', hl', hdst, hname⟩ := mem_group.1 hmem
        obtain ⟨hL', hsrc⟩ := List.mem_filter.1 hl'
        rw [← eq_of_name hr.names hL' hl hname]
        exact ⟨hdst, of_decide_eq_true hsrc⟩
      · intro hh
        exact mem_group.2 ⟨l, List.mem_filter.2 ⟨hl, decide_eq_true hh.2⟩, hh.1, rfl⟩
    simp [hiff]
  rw [hinto] at hSS
  refine ⟨SS, DD, ?_, hSS, hDD⟩
  have hhead₁ : h.src.getHead h.liveNode n = some (h.src.head n) := if_pos hn
  have hhead₂ : DD.getHead h.liveNode n = some (DD.head n) := if_pos hn
  exact Option.bind_eq_some_iff.2 ⟨_, hhead₁, Option.bind_eq_some_iff.2 ⟨_, hwalk₁,
    Option.bind_eq_some_iff.2 ⟨_, hhead₂, hwalk₂⟩⟩⟩

/-- The blocks without those at the places `xs`. -/
def withoutBlocks {β : Type} (xs : List Ptr) (B : Ptr → Option β) (p : Ptr) : Option β := if p ∈ xs then none else B p

theorem withoutBlocks_nil {β : Type} (B : Ptr → Option β) : withoutBlocks [] B = B :=
  funext fun _ => if_neg List.not_mem_nil

theorem withoutBlocks_cons {β : Type} (x : Ptr) (xs : List Ptr) (B : Ptr → Option β) :
    withoutBlocks (x :: xs) B = withoutBlocks xs (Function.update B x none) := by
  funext p
  by_cases hp : p = x
  · subst hp
    simp [withoutBlocks]
  · simp [withoutBlocks, hp]

theorem freeLink_eq {B : Ptr → Option (OlsrNodeLink ws)} {x : Ptr} (hx : (B x).isSome) :
    ({ h with link_blocks := B } : Store ws).freeLink x = some { h with link_blocks := Function.update B x none } := by
  obtain ⟨l, hl⟩ := Option.isSome_iff_exists.1 hx
  rw [Store.freeLink]
  simp only [hl, Option.map_some]

theorem walk_freeSrcStep (hs : Holds h.src (group LinkInfo.src LinkInfo.name S)) {n : Ptr}
    (hS : ∀ x ∈ group LinkInfo.src LinkInfo.name S n, (h.link_blocks x).isSome)
    (hlen : (group LinkInfo.src LinkInfo.name S n).length ≤ h.brk) :
    walk freeSrcStep h.brk h (h.src.head n) =
      some { h with link_blocks := withoutBlocks (group LinkInfo.src LinkInfo.name S n) h.link_blocks } :=
  hs.walk_free (n := n) (B := h.link_blocks) (I := fun B => { h with link_blocks := B }) (by
    intro B' x hx
    have hnext : h.src.getNext ({ h with link_blocks := B' } : Store ws).liveLink x = some (h.src.next x) := if_pos hx
    exact Option.bind_eq_some_iff.2 ⟨_, hnext, Option.bind_eq_some_iff.2 ⟨_, freeLink_eq hx, rfl⟩⟩) hS hlen

theorem walk_freeDstStep (hd : Holds h.dst (group LinkInfo.dst LinkInfo.name D)) {n : Ptr}
    (hD : ∀ x ∈ group LinkInfo.dst LinkInfo.name D n, (h.link_blocks x).isSome)
    (hlen : (group LinkInfo.dst LinkInfo.name D n).length ≤ h.brk) :
    walk freeDstStep h.brk h (h.dst.head n) =
      some { h with link_blocks := withoutBlocks (group LinkInfo.dst LinkInfo.name D n) h.link_blocks } :=
  hd.walk_free (n := n) (B := h.link_blocks) (I := fun B => { h with link_blocks := B }) (by
    intro B' x hx
    have hnext : h.dst.getNext ({ h with link_blocks := B' } : Store ws).liveLink x = some (h.dst.next x) := if_pos hx
    exact Option.bind_eq_some_iff.2 ⟨_, hnext, Option.bind_eq_some_iff.2 ⟨_, freeLink_eq hx, rfl⟩⟩) hD hlen

/-- The blocks that are left when both lists of a node are freed. -/
def freedBlocks (n : Ptr) (S D : List (LinkInfo ws)) (B : Ptr → Option (OlsrNodeLink ws)) :
    Ptr → Option (OlsrNodeLink ws) :=
  withoutBlocks (group LinkInfo.dst LinkInfo.name D n) (withoutBlocks (group LinkInfo.src LinkInfo.name S n) B)

theorem freeLinks_eq (hs : Holds h.src (group LinkInfo.src LinkInfo.name S))
    (hd : Holds h.dst (group LinkInfo.dst LinkInfo.name D)) {n : Ptr} (hn : h.liveNode n = true)
    (hS : ∀ x ∈ group LinkInfo.src LinkInfo.name S n, (h.link_blocks x).isSome)
    (hD : ∀ x ∈ group LinkInfo.dst LinkInfo.name D n, (h.link_blocks x).isSome ∧
      x ∉ group LinkInfo.src LinkInfo.name S n)
    (hSlen : (group LinkInfo.src LinkInfo.name S n).length ≤ h.brk)
    (hDlen : (group LinkInfo.dst LinkInfo.name D n).length ≤ h.brk) :
    freeLinks h n = some { h with link_blocks := freedBlocks n S D h.link_blocks } := by
  have hhead₁ : h.src.getHead h.liveNode n = some (h.src.head n) := if_pos hn
  have hhead₂ : h.dst.getHead h.liveNode n = some (h.dst.head n) := if_pos hn
  let h' : Store ws :=
    { h with link_blocks := withoutBlocks (group LinkInfo.src LinkInfo.name S n) h.link_blocks }
  have hlive : ∀ x ∈ group LinkInfo.dst LinkInfo.name D n, (h'.link_blocks x).isSome := by
    intro x hx
    show (if x ∈ group LinkInfo.src LinkInfo.name S n then none else h.link_blocks x).isSome = true
    rw [if_neg (hD x hx).2]
    exact (hD x hx).1
  exact Option.bind_eq_some_iff.2 ⟨_, hhead₁, Option.bind_eq_some_iff.2 ⟨_, walk_freeSrcStep hs hS hSlen,
    Option.bind_eq_some_iff.2 ⟨_, hhead₂, walk_freeDstStep (h := h') hd hlive hDlen⟩⟩⟩

/-- The links of a node that left the lists of the other nodes are freed. -/
theorem LinksRep.freeDetached (hr : LinksRep h L L L) {n : Ptr} {SS DD : Links Ptr Ptr}
    (hs : Holds SS (group LinkInfo.src LinkInfo.name (notInto n L)))
    (hd : Holds DD (group LinkInfo.dst LinkInfo.name (notFrom n L))) {h' : Store ws} (hsrc : h'.src = SS)
    (hdst : h'.dst = DD) (hblocks : h'.link_blocks = h.link_blocks) (hbrk : h'.brk = h.brk)
    (hn : h'.liveNode n = true) :
    freeLinks h' n = some { h' with link_blocks := freedBlocks n (notInto n L) (notFrom n L) h.link_blocks } := by
  have hinto : notInto n L ⊆ L := List.filter_subset_self _
  have hfrom : notFrom n L ⊆ L := List.filter_subset_self _
  subst hsrc hdst
  rw [← hblocks]
  refine freeLinks_eq hs hd hn ?_ ?_ (hbrk ▸ hr.group_length hinto (hs.nodup n))
    (hbrk ▸ hr.group_length hfrom (hd.nodup n))
  · intro x hx
    obtain ⟨l, hl, -, rfl⟩ := mem_group.1 hx
    rw [hblocks]
    exact Option.isSome_iff_exists.2 ⟨_, hr.blocks l (hinto hl)⟩
  · intro x hx
    obtain ⟨l, hl, -, rfl⟩ := mem_group.1 hx
    rw [hblocks]
    refine ⟨Option.isSome_iff_exists.2 ⟨_, hr.blocks l (hfrom hl)⟩, fun hmem => ?_⟩
    obtain ⟨l', hl', hsrc, hname⟩ := mem_group.1 hmem
    rw [eq_of_name hr.names (hinto hl') (hfrom hl) hname] at hsrc
    exact of_decide_eq_true (List.mem_filter.1 hl).2 hsrc

theorem group_dropNode_src (n : Ptr) (L : List (LinkInfo ws)) : group LinkInfo.src LinkInfo.name (dropNode n L) =
    Function.update (group LinkInfo.src LinkInfo.name (notInto n L)) n [] := by
  rw [← group_filter_key, dropNode, notInto, List.filter_filter]
  congr 1
  refine List.filter_congr fun l _ => ?_
  by_cases hsrc : l.src = n <;> simp [hsrc]

theorem group_dropNode_dst (n : Ptr) (L : List (LinkInfo ws)) : group LinkInfo.dst LinkInfo.name (dropNode n L) =
    Function.update (group LinkInfo.dst LinkInfo.name (notFrom n L)) n [] := by
  rw [← group_filter_key, dropNode, notFrom, List.filter_filter]
  congr 1
  refine List.filter_congr fun l _ => ?_
  by_cases hsrc : l.src = n <;> simp [hsrc]

/-- The links of a node are gone when both of its lists are freed. -/
theorem LinksRep.freed (hr : LinksRep h L L L) {n : Ptr} {SS DD : Links Ptr Ptr}
    (hs : Holds SS (group LinkInfo.src LinkInfo.name (notInto n L)))
    (hd : Holds DD (group LinkInfo.dst LinkInfo.name (notFrom n L))) {h' : Store ws} (hsrc : h'.src = SS.clearHead n)
    (hdst : h'.dst = DD.clearHead n) (hbrk : h'.brk = h.brk)
    (hblocks : h'.link_blocks = freedBlocks n (notInto n L) (notFrom n L) h.link_blocks) :
    LinksRep h' (dropNode n L) (dropNode n L) (dropNode n L) where
  src := by
    rw [hsrc, group_dropNode_src]
    exact hs.clearHead n
  dst := by
    rw [hdst, group_dropNode_dst]
    exact hd.clearHead n
  blocks := by
    intro l hl
    obtain ⟨hL, hends⟩ := List.mem_filter.1 hl
    have hends := of_decide_eq_true hends
    have h1 : l.name ∉ group LinkInfo.dst LinkInfo.name (notFrom n L) n := by
      intro hmem
      obtain ⟨l', hl', hdst', hname⟩ := mem_group.1 hmem
      rw [eq_of_name hr.names (List.mem_filter.1 hl').1 hL hname] at hdst'
      exact hends.2 hdst'
    have h2 : l.name ∉ group LinkInfo.src LinkInfo.name (notInto n L) n := by
      intro hmem
      obtain ⟨l', hl', hsrc', hname⟩ := mem_group.1 hmem
      rw [eq_of_name hr.names (List.mem_filter.1 hl').1 hL hname] at hsrc'
      exact hends.1 hsrc'
    rw [hblocks, freedBlocks, withoutBlocks, withoutBlocks, if_neg h1, if_neg h2]
    exact hr.blocks l hL
  live := by
    intro p hp
    rw [Store.liveLink, hblocks, freedBlocks, withoutBlocks, withoutBlocks] at hp
    by_cases h1 : p ∈ group LinkInfo.dst LinkInfo.name (notFrom n L) n
    · rw [if_pos h1] at hp
      cases hp
    · by_cases h2 : p ∈ group LinkInfo.src LinkInfo.name (notInto n L) n
      · rw [if_neg h1, if_pos h2] at hp
        cases hp
      · rw [if_neg h1, if_neg h2] at hp
        obtain ⟨l, hl, rfl⟩ := hr.live p hp
        -- a link from `n` is on the list of its source, and any other link to `n` on that of its destination
        have hsrc : l.src ≠ n := by
          intro hsrc
          exact h2 (mem_group.2 ⟨l, List.mem_filter.2 ⟨hl, decide_eq_true (fun hh => hh.2 hsrc)⟩, hsrc, rfl⟩)
        have hdst : l.dst ≠ n := by
          intro hdst
          exact h1 (mem_group.2 ⟨l, List.mem_filter.2 ⟨hl, decide_eq_true hsrc⟩, hdst, rfl⟩)
        exact ⟨l, List.mem_filter.2 ⟨hl, decide_eq_true ⟨hsrc, hdst⟩⟩, rfl⟩
  names := hr.names.sublist (List.filter_sublist.map _)
  bound := fun l hl => hbrk ▸ hr.bound l (List.mem_filter.1 hl).1

end MpOlsr
