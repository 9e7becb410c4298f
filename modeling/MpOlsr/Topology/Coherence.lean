import MpOlsr.Topology.Neighbours

/-!
# The local links mirror the links of the local node

The table `g_local_links` has as many entries for a neighbour as there are links from the local node to it, and every
entry is the one that `tc_update_local_link` computes (`Mirrors`).  Commands that take away or recompute the first entry
only keep this as long as there are no others.
-/

namespace MpOlsr

variable {ws : WordSize} {h h' : Store ws} {g g' : Shape ws}

/-- The number of entries for an address. -/
def entriesFor (links : List (LocalLinkEntry ws)) (d : ip_v4_addr ws) : ℕ := links.countP fun l => l.dst_addr_ip = d

/-- The number of links from the node with the main address `a` to the node with the main address `d`. -/
def edgesTo (g : Shape ws) (a d : ip_v4_addr ws) : ℕ := g.links.countP fun l => g.mainOf l.src = a ∧ g.mainOf l.dst = d

/-- The entries are those of the links from the local node. -/
structure Mirrors (addrs masks : Slot → ip_v4_addr ws) (links : List (LocalLinkEntry ws)) (g : Shape ws) : Prop where
  count : ∀ d, entriesFor links d = edgesTo g (addrs 0) d
  computed : ∀ l ∈ links, ∃ n ∈ g.nodes, l = linkEntry addrs masks g.addrs n

/-- An address belongs to one node. -/
def OneOwner (A : List (AddrInfo ws)) : Prop := ∀ e ∈ A, ∀ e' ∈ A, e.addr_ip = e'.addr_ip → e.node = e'.node

/-! ### The entries of an address -/

section Entries

variable {links : List (LocalLinkEntry ws)} {a d : ip_v4_addr ws}

theorem entriesFor_pos (hl : ∃ l ∈ links, l.dst_addr_ip = d) : 0 < entriesFor links d := by
  obtain ⟨l, hl, rfl⟩ := hl
  exact List.countP_pos_iff.2 ⟨l, hl, by simp⟩

theorem entriesFor_eq_zero : entriesFor links d = 0 ↔ ∀ l ∈ links, l.dst_addr_ip ≠ d := by
  simp [entriesFor, List.countP_eq_zero]

theorem entriesFor_cons (l : LocalLinkEntry ws) :
    entriesFor (l :: links) d = entriesFor links d + if l.dst_addr_ip = d then 1 else 0 := by
  simp [entriesFor, List.countP_cons]

/-- One entry of the address is removed. -/
theorem entriesFor_removeLocalLink :
    entriesFor (removeLocalLink a links) d = entriesFor links d - if a = d then 1 else 0 := by
  induction links with
  | nil => simp [entriesFor, removeLocalLink]
  | cons l links ih =>
    unfold removeLocalLink at ih ⊢
    by_cases hl : l.dst_addr_ip = a
    · rw [List.eraseP_cons_of_pos (by simpa using hl), entriesFor_cons, hl]
      split <;> omega
    · rw [List.eraseP_cons_of_neg (by simpa using hl), entriesFor_cons, entriesFor_cons, ih]
      by_cases hd : a = d
      · subst hd
        rw [if_pos rfl, if_neg hl]
        omega
      · rw [if_neg hd]
        omega

/-- An entry is replaced by one for the same address. -/
theorem entriesFor_replaceLocalLink {v : LocalLinkEntry ws} (hv : v.dst_addr_ip = a) :
    entriesFor (replaceLocalLink a v links) d = entriesFor links d := by
  induction links with
  | nil => rfl
  | cons l links ih =>
    rw [replaceLocalLink]
    split
    · next hl => rw [entriesFor_cons, entriesFor_cons, hv, hl]
    · rw [entriesFor_cons, entriesFor_cons, ih]

theorem replaceLocalLink_eq_self {v : LocalLinkEntry ws} (h : ∀ l ∈ links, l.dst_addr_ip = a → l = v) :
    replaceLocalLink a v links = links := by
  induction links with
  | nil => rfl
  | cons l links ih =>
    rw [replaceLocalLink]
    split
    · next hl => rw [h l List.mem_cons_self hl]
    · rw [ih fun l hl => h l (List.mem_cons_of_mem _ hl)]

/-- If there is no other entry of the address, those that stay are of other addresses. -/
theorem mem_replaceLocalLink {v l : LocalLinkEntry ws} (hone : entriesFor links a ≤ 1)
    (hl : l ∈ replaceLocalLink a v links) : l = v ∨ l ∈ links ∧ l.dst_addr_ip ≠ a := by
  induction links with
  | nil => cases hl
  | cons x links ih =>
    rw [entriesFor_cons] at hone
    rw [replaceLocalLink] at hl
    split at hl
    · next hx =>
      rw [if_pos hx] at hone
      rcases List.mem_cons.1 hl with rfl | hl
      · exact Or.inl rfl
      · exact Or.inr ⟨List.mem_cons_of_mem _ hl, entriesFor_eq_zero.1 (by omega) l hl⟩
    · next hx =>
      rcases List.mem_cons.1 hl with rfl | hl
      · exact Or.inr ⟨List.mem_cons_self, hx⟩
      · rcases ih (by omega) hl with rfl | ⟨hmem, hne⟩
        · exact Or.inl rfl
        · exact Or.inr ⟨List.mem_cons_of_mem _ hmem, hne⟩

end Entries

/-! ### What changes of the shape do -/

section Changes

variable {addrs masks : Slot → ip_v4_addr ws} {links : List (LocalLinkEntry ws)} {a : ip_v4_addr ws}

/-- The entries of a node are for its main address. -/
theorem Mirrors.node_of_dst (hm : Mirrors addrs masks links g) {l : LocalLinkEntry ws} (hl : l ∈ links) :
    ∃ n ∈ g.nodes, l = linkEntry addrs masks g.addrs n ∧ l.dst_addr_ip = g.mainOf n := by
  obtain ⟨n, hn, rfl⟩ := hm.computed l hl
  exact ⟨n, hn, rfl, linkEntry_dst⟩

/-- An address for which there is an entry belongs to the node of the entry. -/
theorem Mirrors.mainOf_of_entry (hm : Mirrors addrs masks links g) (hr : Rep h g) (ho : OneOwner g.addrs)
    {e : AddrInfo ws} (ha : resolve g.addrs a = some e) {l : LocalLinkEntry ws} (hl : l ∈ links)
    (hdst : l.dst_addr_ip = a) : g.mainOf e.node = a := by
  obtain ⟨n, hn, -, hmain⟩ := hm.node_of_dst hl
  obtain ⟨e', he', rfl, -, haddr⟩ := hr.mainEntry hn
  obtain ⟨he, rfl⟩ := resolve_mem ha
  rw [← ho e' he' e he (haddr.trans (hmain.symm.trans hdst))]
  exact hmain.symm.trans hdst

theorem Mirrors.addNode (hm : Mirrors addrs masks links g) (hr : Rep h g) {n : Ptr} (hn : n ∉ g.nodes) (p : Ptr)
    (a : ip_v4_addr ws) : Mirrors addrs masks links (g.addNode n p a) := by
  have hne : ∀ m ∈ g.nodes, n ≠ m := fun m hm hnm => hn (hnm ▸ hm)
  refine ⟨?_, ?_⟩
  · intro d
    rw [hm.count d, edgesTo, edgesTo]
    refine List.countP_congr fun l hl => ?_
    rw [g.mainOf_addNode p a (hne _ (hr.ends l hl).1), g.mainOf_addNode p a (hne _ (hr.ends l hl).2)]
  · intro l hl
    obtain ⟨m, hmem, rfl⟩ := hm.computed l hl
    refine ⟨m, List.mem_cons_of_mem _ hmem, (linkEntry_congr fun i => ?_).symm⟩
    rw [Shape.addNode, entryAt_cons, if_neg fun hh => hne m hmem hh.1]

/-- A link enters, and an entry if the source is the local node. -/
theorem Mirrors.addLink (hm : Mirrors addrs masks links g) {l : LinkInfo ws} (hdst : l.dst ∈ g.nodes)
    (hlocal : a = addrs 0 ↔ g.mainOf l.src = addrs 0) :
    Mirrors addrs masks (if a = addrs 0 then linkEntry addrs masks g.addrs l.dst :: links else links)
      (g.addLink l) := by
  have hedges : ∀ d, edgesTo (g.addLink l) (addrs 0) d =
      edgesTo g (addrs 0) d + if g.mainOf l.src = addrs 0 ∧ g.mainOf l.dst = d then 1 else 0 := by
    intro d
    show (l :: g.links).countP _ = _
    rw [List.countP_cons]
    congr 1
    simp only [decide_eq_true_eq]
    rfl
  by_cases ha : a = addrs 0
  · rw [if_pos ha]
    refine ⟨?_, ?_⟩
    · intro d
      have hentry : (linkEntry addrs masks g.addrs l.dst).dst_addr_ip = g.mainOf l.dst := linkEntry_dst
      rw [entriesFor_cons, hedges, hm.count, hentry]
      simp [hlocal.1 ha]
    · intro x hx
      rcases List.mem_cons.1 hx with rfl | hx
      · exact ⟨l.dst, hdst, rfl⟩
      · exact hm.computed x hx
  · rw [if_neg ha]
    refine ⟨?_, hm.computed⟩
    intro d
    rw [hedges, hm.count, if_neg fun hh => ha (hlocal.2 hh.1), Nat.add_zero]

/-- The count of links less one. -/
theorem countP_dropLink {L : List (LinkInfo ws)} (hnames : (L.map LinkInfo.name).Nodup) {l : LinkInfo ws} (hl : l ∈ L)
    (p : LinkInfo ws → Bool) : L.countP p = (MpOlsr.dropLink L l).countP p + if p l then 1 else 0 := by
  induction L with
  | nil => cases hl
  | cons x L ih =>
    rw [List.map_cons, List.nodup_cons] at hnames
    rw [MpOlsr.dropLink]
    rcases List.mem_cons.1 hl with rfl | hmem
    · have hrest : L.filter (fun y => decide (y.name ≠ l.name)) = L := by
        refine List.filter_eq_self.2 fun y hy => ?_
        have hne : y.name ≠ l.name := fun hname => hnames.1 (hname ▸ List.mem_map_of_mem hy)
        simpa using hne
      rw [List.filter_cons_of_neg (by simp), hrest, List.countP_cons]
    · have hne : x.name ≠ l.name := fun hname => hnames.1 (hname ▸ List.mem_map_of_mem hmem)
      rw [List.filter_cons_of_pos (by simpa using hne), List.countP_cons, List.countP_cons, ih hnames.2 hmem,
        MpOlsr.dropLink]
      omega

/-- A link leaves, and an entry if the source is the local node. -/
theorem Mirrors.dropLink (hm : Mirrors addrs masks links g) (hr : Rep h g) {l : LinkInfo ws} (hl : l ∈ g.links)
    {d : ip_v4_addr ws} (hdst : g.mainOf l.dst = d) (hlocal : a = addrs 0 ↔ g.mainOf l.src = addrs 0) :
    Mirrors addrs masks (if a = addrs 0 then removeLocalLink d links else links) (g.dropLink l) := by
  have hedges : ∀ d', edgesTo g (addrs 0) d' = edgesTo (g.dropLink l) (addrs 0) d' +
      if g.mainOf l.src = addrs 0 ∧ g.mainOf l.dst = d' then 1 else 0 := by
    intro d'
    have h := countP_dropLink hr.linksRep.names hl fun x => decide (g.mainOf x.src = addrs 0 ∧ g.mainOf x.dst = d')
    simp only [decide_eq_true_eq] at h
    exact h
  refine ⟨?_, ?_⟩
  · intro d'
    have hcount := (hm.count d').trans (hedges d')
    rw [hdst] at hcount
    by_cases ha : a = addrs 0
    · rw [if_pos ha, entriesFor_removeLocalLink, hcount]
      by_cases hd : d = d'
      · rw [if_pos hd, if_pos ⟨hlocal.1 ha, hd⟩, Nat.add_sub_cancel]
      · rw [if_neg hd, if_neg fun hh => hd hh.2]
        rfl
    · rw [if_neg ha, hcount, if_neg fun hh => ha (hlocal.2 hh.1), Nat.add_zero]
  · intro x hx
    have hmem : x ∈ links := by
      split at hx
      · exact List.mem_of_mem_eraseP hx
      · exact hx
    exact hm.computed x hmem

/-- Other addresses for a node without entries. -/
theorem Mirrors.ofOthers (hm : Mirrors addrs masks links g) (g' : Shape ws) (hnodes : g'.nodes = g.nodes)
    (hlinks : g'.links = g.links) (hmain : ∀ n, g'.mainOf n = g.mainOf n) {n : Ptr} (hothers : ∀ m, m ≠ n → ∀ i, entryAt g'.addrs m i =
      entryAt g.addrs m i) (hnone : entriesFor links (g.mainOf n) = 0) : Mirrors addrs masks links g' := by
  refine ⟨?_, ?_⟩
  · intro d
    rw [hm.count d, edgesTo, edgesTo, hlinks]
    simp only [hmain]
  · intro l hl
    obtain ⟨m, hmem, rfl, hdst⟩ := hm.node_of_dst hl
    have hne : m ≠ n := by
      rintro rfl
      exact entriesFor_eq_zero.1 hnone _ hl hdst
    exact ⟨m, hnodes ▸ hmem, (linkEntry_congr (hothers m hne)).symm⟩

/-- Other addresses for a node with one entry, which is computed again. -/
theorem Mirrors.recompute (hm : Mirrors addrs masks links g) (g' : Shape ws) (hnodes : g'.nodes = g.nodes)
    (hlinks : g'.links = g.links) (hmain : ∀ n, g'.mainOf n = g.mainOf n) {n : Ptr} (hn : n ∈ g.nodes)
    (hothers : ∀ m, m ≠ n → ∀ i, entryAt g'.addrs m i = entryAt g.addrs m i) (ha : g.mainOf n = a)
    (hone : entriesFor links a = 1) :
    Mirrors addrs masks (replaceLocalLink a (linkEntry addrs masks g'.addrs n) links) g' := by
  have hnew : (linkEntry addrs masks g'.addrs n).dst_addr_ip = a := linkEntry_dst.trans ((hmain n).trans ha)
  refine ⟨?_, ?_⟩
  · intro d
    rw [entriesFor_replaceLocalLink hnew, hm.count d, edgesTo, edgesTo, hlinks]
    simp only [hmain]
  · intro l hl
    rcases mem_replaceLocalLink (Nat.le_of_eq hone) hl with rfl | ⟨hmem, hne⟩
    · exact ⟨n, hnodes ▸ hn, rfl⟩
    · obtain ⟨m, hm', rfl, hdst⟩ := hm.node_of_dst hmem
      have hmn : m ≠ n := fun hmn => hne (hdst.trans (hmn ▸ ha))
      exact ⟨m, hnodes ▸ hm', (linkEntry_congr (hothers m hmn)).symm⟩

theorem edgesTo_dropNode (g : Shape ws) (n : Ptr) (a d : ip_v4_addr ws) : edgesTo (g.dropNode n) a d =
    g.links.countP fun l => (g.mainOf l.src = a ∧ g.mainOf l.dst = d) ∧ l.src ≠ n ∧ l.dst ≠ n := by
  show (g.links.filter _).countP _ = _
  rw [List.countP_filter]
  refine List.countP_congr fun l _ => ?_
  by_cases hsrc : l.src = n
  · simp [hsrc]
  · by_cases hdst : l.dst = n
    · simp [hdst]
    · rw [g.mainOf_dropNode hsrc, g.mainOf_dropNode hdst]
      simp [hsrc, hdst]

/-- The local node goes with all its links. -/
theorem edgesTo_dropNode_local {n : Ptr} {a : ip_v4_addr ws} (hsrc : ∀ l ∈ g.links, g.mainOf l.src = a → l.src = n)
    (d : ip_v4_addr ws) : edgesTo (g.dropNode n) a d = 0 := by
  rw [edgesTo_dropNode, List.countP_eq_zero]
  intro l hl
  simp only [decide_eq_true_eq]
  rintro ⟨⟨ha, -⟩, hne, -⟩
  exact hne (hsrc l hl ha)

/-- A node leaves: the local node, or one that has at most one entry, for the address that is given. -/
theorem Mirrors.dropNode (hm : Mirrors addrs masks links g) (hw : WellFormed h g) (ho : OneOwner g.addrs)
    {e : AddrInfo ws} (ha : resolve g.addrs a = some e)
    (hsafe : a ≠ addrs 0 → if g.mainOf e.node = addrs 0 then links = [] else
      entriesFor links (g.mainOf e.node) = 0 ∨ g.mainOf e.node = a ∧ entriesFor links (g.mainOf e.node) = 1) :
    Mirrors addrs masks (if a = addrs 0 then [] else removeLocalLink a links) (g.dropNode e.node) := by
  have hr := hw.toRep
  have hn := hr.resolve_node ha
  have hnil : (∀ l ∈ g.links, g.mainOf l.src = addrs 0 → l.src = e.node) →
      Mirrors addrs masks [] (g.dropNode e.node) := by
    intro hsrc
    refine ⟨?_, ?_⟩
    · intro d
      rw [edgesTo_dropNode_local hsrc]
      rfl
    · intro l hl
      cases hl
  by_cases hlocal : a = addrs 0
  · rw [if_pos hlocal]
    refine hnil fun l hl hsrc => ?_
    obtain ⟨e', he', hnode, -, haddr⟩ := hr.mainEntry (hr.ends l hl).1
    obtain ⟨he, haddr'⟩ := resolve_mem ha
    rw [← hnode]
    exact ho e' he' e he (haddr.trans (hsrc.trans (hlocal.symm.trans haddr'.symm)))
  have hsafe := hsafe hlocal
  rw [if_neg hlocal]
  by_cases hmain : g.mainOf e.node = addrs 0
  · rw [if_pos hmain] at hsafe
    rw [hsafe]
    exact hnil fun l hl hsrc => hw.mains _ (hr.ends l hl).1 _ hn (hsrc.trans hmain.symm)
  rw [if_neg hmain] at hsafe
  have hdst : 0 < entriesFor links a → g.mainOf e.node = a := by
    intro hpos
    obtain ⟨l, hl, hla⟩ := List.countP_pos_iff.1 hpos
    exact hm.mainOf_of_entry hr ho ha hl (by simpa using hla)
  have hcount : ∀ d, entriesFor (removeLocalLink a links) d = edgesTo (g.dropNode e.node) (addrs 0) d := by
    intro d
    rw [entriesFor_removeLocalLink, edgesTo_dropNode]
    by_cases hd : g.mainOf e.node = d
    · have hzero : (g.links.countP fun l => (g.mainOf l.src = addrs 0 ∧ g.mainOf l.dst = d) ∧ l.src ≠ e.node ∧
          l.dst ≠ e.node) = 0 := by
        rw [List.countP_eq_zero]
        intro l hl
        simp only [decide_eq_true_eq]
        rintro ⟨⟨-, hld⟩, -, hne⟩
        exact hne (hw.mains _ (hr.ends l hl).2 _ hn (hld.trans hd.symm))
      rw [hzero]
      rw [hd] at hsafe
      rcases hsafe with hsafe | ⟨had, hsafe⟩
      · omega
      · rw [if_pos had.symm]
        omega
    · have hkeep : (g.links.countP fun l => (g.mainOf l.src = addrs 0 ∧ g.mainOf l.dst = d) ∧ l.src ≠ e.node ∧
          l.dst ≠ e.node) = edgesTo g (addrs 0) d := by
        refine List.countP_congr fun l _ => ?_
        simp only [decide_eq_true_eq]
        constructor
        · exact fun hh => hh.1
        · rintro ⟨hls, hld⟩
          refine ⟨⟨hls, hld⟩, ?_, ?_⟩
          · intro heq
            exact hmain (heq ▸ hls)
          · intro heq
            exact hd (heq ▸ hld)
      rw [hkeep, ← hm.count d]
      by_cases had : a = d
      · have hzero : ¬ 0 < entriesFor links a := fun hpos => hd ((hdst hpos).trans had)
        rw [← had]
        omega
      · rw [if_neg had]
        rfl
  refine ⟨hcount, ?_⟩
  intro l hl
  obtain ⟨m, hmem, rfl, hmain'⟩ := hm.node_of_dst (List.mem_of_mem_eraseP hl)
  have hne : m ≠ e.node := by
    intro hme
    have hzero : entriesFor (removeLocalLink a links) (g.mainOf e.node) = 0 := by
      rw [entriesFor_removeLocalLink]
      rcases hsafe with hsafe | ⟨had, hsafe⟩
      · omega
      · rw [if_pos had.symm]
        omega
    exact entriesFor_eq_zero.1 hzero _ hl (hmain'.trans (congrArg _ hme))
  refine ⟨m, List.mem_filter.2 ⟨hmem, by simpa using hne⟩, (linkEntry_congr fun i => ?_).symm⟩
  show (g.addrs.filter _).find? _ = _
  rw [List.find?_filter, entryAt]
  refine List.find?_congr fun x _ => ?_
  by_cases hx : x.node = m
  · simp [hx, hne]
  · simp [hx]

/-- Nothing changes if an entry is computed again. -/
theorem Mirrors.replace_self (hm : Mirrors addrs masks links g)
    (hmains : ∀ n ∈ g.nodes, ∀ m ∈ g.nodes, g.mainOf n = g.mainOf m → n = m) {n : Ptr} (hn : n ∈ g.nodes)
    (ha : ∀ l ∈ links, l.dst_addr_ip = a → g.mainOf n = a) :
    replaceLocalLink a (linkEntry addrs masks g.addrs n) links = links := by
  refine replaceLocalLink_eq_self fun l hl hdst => ?_
  obtain ⟨m, hmem, heq, hmain⟩ := hm.node_of_dst hl
  rw [heq, hmains m hmem n hn (hmain.symm.trans (hdst.trans (ha l hl hdst).symm))]

end Changes

end MpOlsr
