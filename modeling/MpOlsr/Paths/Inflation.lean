import MpOlsr.Paths.Rounds

/-!
# The inflation of the costs

After every round, `tc_k_dijstra` multiplies the cost of a link of the path by `fp` and the costs of the other links to
the nodes of the path by `fe`.  The links back along the path were meant to get `fp` as well, but the loop visits the
destination first, so the factor of such a link is overwritten when its end is visited, unless the end is the source
(`cost_inflation`).
-/

namespace MpOlsr

variable {ws : WordSize} {h : Store ws} {g : Shape ws}

/-- No two links have the same ends. -/
def NoParallel (g : Shape ws) : Prop :=
  ∀ l ∈ g.links, ∀ l' ∈ g.links, l.src = l'.src → l.dst = l'.dst → l = l'

/-- The cost that a link should have after a round that finds the path `P` from `s`. -/
def inflated (conf : Conf) (s : Ptr) (P : List (LinkInfo ws)) (cost : Ptr → ULong ws) (l : LinkInfo ws) : ULong ws :=
  if l ∈ P ∨ ∃ e ∈ P, e.src = l.dst ∧ e.dst = l.src then coefTimes conf.g_conf_fp (cost l.name)
  else if l.dst ≠ s ∧ ∃ e ∈ P, e.src = l.dst ∨ e.dst = l.dst then coefTimes conf.g_conf_fe (cost l.name)
  else cost l.name

/-! ### The nodes of a path -/

namespace BackPath

variable {c : Scratch ws} {s v : Ptr} {es : List (LinkInfo ws)}

theorem end_mem (hb : BackPath g c s v es) : v ∈ s :: es.map LinkInfo.dst := by
  cases hb with
  | source => exact List.mem_cons_self
  | link => simp

theorem src_mem (hb : BackPath g c s v es) {e : LinkInfo ws} (he : e ∈ es) : e.src ∈ s :: es.map LinkInfo.dst := by
  induction hb with
  | source => exact (List.not_mem_nil he).elim
  | @link l es hb _ _ ih =>
    rw [List.map_append, ← List.cons_append, List.mem_append]
    rcases List.mem_append.1 he with he | he
    · exact Or.inl (ih he)
    · rw [List.mem_singleton.1 he]
      exact Or.inl hb.end_mem

theorem links_mem (hb : BackPath g c s v es) {e : LinkInfo ws} (he : e ∈ es) : e ∈ g.links := by
  induction hb with
  | source => exact (List.not_mem_nil he).elim
  | link _ hl _ ih =>
    rcases List.mem_append.1 he with he | he
    · exact ih he
    · rw [List.mem_singleton.1 he]
      exact hl

/-- The last node of a simple path is new. -/
theorem last_notMem {l : LinkInfo ws} (hnodup : (s :: (es ++ [l]).map LinkInfo.dst).Nodup) :
    (s :: es.map LinkInfo.dst).Nodup ∧ l.dst ∉ s :: es.map LinkInfo.dst := by
  rw [List.map_append, ← List.cons_append, List.nodup_append] at hnodup
  exact ⟨hnodup.1, fun hmem => hnodup.2.2 _ hmem _ (List.mem_singleton.2 rfl) rfl⟩

/-- A simple path does not lead back along a link. -/
theorem not_reverse (hb : BackPath g c s v es) (hnodup : (s :: es.map LinkInfo.dst).Nodup) {e l : LinkInfo ws}
    (he : e ∈ es) (hl : l ∈ es) : ¬ (e.src = l.dst ∧ e.dst = l.src) := by
  induction hb with
  | source => exact (List.not_mem_nil he).elim
  | @link x es hb _ _ ih =>
    obtain ⟨hnodup, hnew⟩ := last_notMem hnodup
    intro hrev
    rcases List.mem_append.1 he with he | he
    · rcases List.mem_append.1 hl with hl | hl
      · exact ih hnodup he hl hrev
      · rw [List.mem_singleton.1 hl] at hrev
        exact hnew (hrev.1 ▸ hb.src_mem he)
    · rw [List.mem_singleton.1 he] at hrev
      rcases List.mem_append.1 hl with hl | hl
      · exact hnew (hrev.2 ▸ hb.src_mem hl)
      · rw [List.mem_singleton.1 hl] at hrev
        exact hnew (hrev.1 ▸ hb.end_mem)

end BackPath

/-! ### The costs after the loop back -/

/-- The first link from `prev` to `node`. -/
def Shape.linkBetween (g : Shape ws) (prev node : Ptr) : Option (LinkInfo ws) :=
  g.links.find? fun l => l.src = prev ∧ l.dst = node

theorem linkBetween_mem {prev node : Ptr} {l : LinkInfo ws} (hl : g.linkBetween prev node = some l) :
    l ∈ g.links ∧ l.src = prev ∧ l.dst = node :=
  ⟨List.mem_of_find?_eq_some hl, by simpa using List.find?_some hl⟩

/-- One step of the loop back. -/
theorem Rep.inflate_apply (hr : Rep h g) (conf : Conf) (cost p1 : Ptr → ULong ws) {prev node : Ptr}
    (hne : node ≠ prev) {l : LinkInfo ws} (hl : l ∈ g.links) : g.inflate conf cost prev node p1 l.name =
      if l.dst = prev then coefTimes (if l.src = node then conf.g_conf_fp else conf.g_conf_fe) (cost l.name)
      else if g.linkBetween prev node = some l then coefTimes conf.g_conf_fp (cost l.name)
      else p1 l.name := by
  let val : LinkInfo ws → ULong ws := fun l =>
    coefTimes (if l.src = node then conf.g_conf_fp else conf.g_conf_fe) (cost l.name)
  let p1' := (g.links.filter (·.dst = prev)).foldl (fun (p1 : Ptr → ULong ws) l => Function.update p1 l.name (val l)) p1
  have hinj : ∀ l ∈ g.links, ∀ l' ∈ g.links, l.name = l'.name → l = l' :=
    fun l hl l' hl' => eq_of_name hr.linksRep.names hl hl'
  have hp1 : p1' l.name = if l.dst = prev then val l else p1 l.name := by
    by_cases hdst : l.dst = prev
    · rw [if_pos hdst]
      exact Fault.foldl_update_of_mem (fun x hx y hy => hinj x (List.mem_filter.1 hx).1 y (List.mem_filter.1 hy).1) _
        (List.mem_filter.2 ⟨hl, decide_eq_true hdst⟩)
    · rw [if_neg hdst]
      refine Fault.foldl_update_of_notMem _ fun x hx hxl => hdst ?_
      obtain ⟨hx, hxd⟩ := List.mem_filter.1 hx
      rw [← hinj x hx l hl hxl]
      exact of_decide_eq_true hxd
  unfold Shape.inflate
  cases hfind : g.linkBetween prev node with
  | none =>
    rw [show g.links.find? _ = none from hfind]
    simpa using hp1
  | some l' =>
    obtain ⟨hl', -, hdst'⟩ := linkBetween_mem hfind
    rw [show g.links.find? _ = some l' from hfind]
    by_cases heq : l' = l
    · subst heq
      have hdst : l'.dst ≠ prev := fun hd => hne (hdst'.symm.trans hd)
      rw [if_neg hdst, if_pos rfl]
      exact Function.update_self _ _ _
    · have hname : l.name ≠ l'.name := fun hn => heq (hinj l hl l' hl' hn).symm
      have hsome : some l' ≠ some l := fun hh => heq (Option.some_inj.1 hh)
      rw [if_neg hsome]
      exact (Function.update_of_ne hname _ _).trans hp1

/-- The whole loop back: the step at the end of a link decides, then the step at its source. -/
theorem Rep.inflateAll_apply (hr : Rep h g) (conf : Conf) (cost : Ptr → ULong ws) {c : Scratch ws} {s v : Ptr}
    {es : List (LinkInfo ws)} (hb : BackPath g c s v es) (hnodup : (s :: es.map LinkInfo.dst).Nodup)
    (p1 : Ptr → ULong ws) {l : LinkInfo ws} (hl : l ∈ g.links) :
    (∀ e ∈ es, e.dst = l.dst → g.inflateAll conf cost es p1 l.name =
      coefTimes (if l.src = e.src then conf.g_conf_fp else conf.g_conf_fe) (cost l.name)) ∧
    ((∀ e ∈ es, e.dst ≠ l.dst) → (∃ e ∈ es, g.linkBetween e.dst e.src = some l) →
      g.inflateAll conf cost es p1 l.name = coefTimes conf.g_conf_fp (cost l.name)) ∧
    ((∀ e ∈ es, e.dst ≠ l.dst) → (∀ e ∈ es, g.linkBetween e.dst e.src ≠ some l) →
      g.inflateAll conf cost es p1 l.name = p1 l.name) := by
  induction hb generalizing p1 with
  | source => simp [Shape.inflateAll]
  | @link x es hb _ _ ih =>
    obtain ⟨hnodup, hnew⟩ := BackPath.last_notMem hnodup
    have hne : x.src ≠ x.dst := fun hx => hnew (hx ▸ hb.end_mem)
    let p1' := g.inflate conf cost x.dst x.src p1
    have hx : p1' l.name = if l.dst = x.dst then
        coefTimes (if l.src = x.src then conf.g_conf_fp else conf.g_conf_fe) (cost l.name)
        else if g.linkBetween x.dst x.src = some l then coefTimes conf.g_conf_fp (cost l.name) else p1 l.name :=
      hr.inflate_apply conf cost p1 hne hl
    obtain ⟨hinto, hback, hkeep⟩ := ih hnodup p1'
    have hall : g.inflateAll conf cost (es ++ [x]) p1 = g.inflateAll conf cost es p1' := by
      rw [Shape.inflateAll, Shape.inflateAll, List.foldr_append]
      rfl
    rw [hall]
    simp only [List.mem_append, List.mem_singleton]
    refine ⟨?_, ?_, ?_⟩
    · rintro e (he | rfl) hdst
      · exact hinto e he hdst
      · -- the links of the path before do not touch the last node
        have hold : ∀ e' ∈ es, e'.dst ≠ l.dst := by
          intro e' he' hd
          refine hnew ?_
          rw [hdst, ← hd]
          exact List.mem_cons_of_mem _ (List.mem_map_of_mem he')
        have hoff : ∀ e' ∈ es, g.linkBetween e'.dst e'.src ≠ some l := by
          intro e' he' hfind
          refine hnew ?_
          rw [hdst, (linkBetween_mem hfind).2.2]
          exact hb.src_mem he'
        rw [hkeep hold hoff, hx, if_pos hdst.symm]
    · intro hold hex
      have hold' : ∀ e ∈ es, e.dst ≠ l.dst := fun e he => hold e (Or.inl he)
      by_cases hes : ∃ e ∈ es, g.linkBetween e.dst e.src = some l
      · exact hback hold' hes
      · have hoff : ∀ e ∈ es, g.linkBetween e.dst e.src ≠ some l := fun e he hfind => hes ⟨e, he, hfind⟩
        obtain ⟨e, he | rfl, hfind⟩ := hex
        · exact (hoff e he hfind).elim
        · rw [hkeep hold' hoff, hx, if_neg fun hd => hold e (Or.inr rfl) hd.symm, if_pos hfind]
    · intro hold hoff
      rw [hkeep (fun e he => hold e (Or.inl he)) (fun e he => hoff e (Or.inl he)), hx,
        if_neg fun hd => hold x (Or.inr rfl) hd.symm, if_neg (hoff x (Or.inr rfl))]

/-- The law holds of the costs after the loop back exactly when the two factors agree on the links back along the path
that do not end at the source. -/
theorem Rep.inflated_iff (hr : Rep h g) (hp : NoParallel g) (conf : Conf) {cost p1 : Ptr → ULong ws} {c : Scratch ws}
    {s v : Ptr} {P : List (LinkInfo ws)} (hb : BackPath g c s v P) (hnodup : (s :: P.map LinkInfo.dst).Nodup)
    (hp1 : ∀ l ∈ g.links, p1 l.name = cost l.name) :
    (∀ l ∈ g.links, g.inflateAll conf cost P p1 l.name = inflated conf s P cost l) ↔
      ∀ l ∈ g.links, (∃ e ∈ P, e.src = l.dst ∧ e.dst = l.src ∧ e.src ≠ s) →
        coefTimes conf.g_conf_fe (cost l.name) = coefTimes conf.g_conf_fp (cost l.name) := by
  have hsource : ∀ e ∈ P, e.dst ≠ s := by
    intro e he hd
    exact (List.nodup_cons.1 hnodup).1 (hd ▸ List.mem_map_of_mem he)
  -- a link to a node of the path that does not belong to it
  have hother : ∀ l ∈ g.links, l ∉ P → ∀ e ∈ P, e.dst = l.dst →
      g.inflateAll conf cost P p1 l.name = coefTimes conf.g_conf_fe (cost l.name) := by
    intro l hl hlP e he hd
    have hsrc : l.src ≠ e.src := fun hs => hlP (hp l hl e (hb.links_mem he) hs hd.symm ▸ he)
    rw [(hr.inflateAll_apply conf cost hb hnodup p1 hl).1 e he hd, if_neg hsrc]
  have hbefore : ∀ e ∈ P, e.src ≠ s → ∃ e' ∈ P, e'.dst = e.src := by
    intro e he hs
    rcases List.mem_cons.1 (hb.src_mem he) with hmem | hmem
    · exact (hs hmem).elim
    · obtain ⟨e', he', hd⟩ := List.mem_map.1 hmem
      exact ⟨e', he', hd⟩
  refine forall_congr' fun l => forall_congr' fun hl => ?_
  obtain ⟨hinto, hback, hkeep⟩ := hr.inflateAll_apply conf cost hb hnodup p1 hl
  by_cases hlP : l ∈ P
  · rw [hinto l hlP rfl, if_pos rfl, inflated, if_pos (Or.inl hlP)]
    simp only [true_iff]
    rintro ⟨e, he, hsrc, hdst, -⟩
    exact (hb.not_reverse hnodup he hlP ⟨hsrc, hdst⟩).elim
  · by_cases hrev : ∃ e ∈ P, e.src = l.dst ∧ e.dst = l.src
    · obtain ⟨e, he, hsrc, hdst⟩ := hrev
      rw [inflated, if_pos (Or.inr ⟨e, he, hsrc, hdst⟩)]
      by_cases hs : e.src = s
      · have hnone : ∀ e' ∈ P, e'.dst ≠ l.dst := fun e' he' hd => hsource e' he' (by rw [hd, ← hsrc, hs])
        have hfind : g.linkBetween e.dst e.src = some l := by
          cases hf : g.linkBetween e.dst e.src with
          | none =>
            have := List.find?_eq_none.1 hf l hl
            simp [hsrc, hdst] at this
          | some l' =>
            obtain ⟨hl', hsrc', hdst'⟩ := linkBetween_mem hf
            rw [hp l' hl' l hl (hsrc'.trans hdst) (hdst'.trans hsrc)]
        rw [hback hnone ⟨e, he, hfind⟩]
        simp only [true_iff]
        rintro ⟨e', he', hsrc', -, hne⟩
        exact (hne (by rw [hsrc', ← hsrc, hs])).elim
      · obtain ⟨e', he', hd⟩ := hbefore e he hs
        rw [hother l hl hlP e' he' (hd.trans hsrc)]
        exact ⟨fun heq _ => heq, fun heq => heq ⟨e, he, hsrc, hdst, hs⟩⟩
    · have htrue : ∀ Q : Prop, (∃ e ∈ P, e.src = l.dst ∧ e.dst = l.src ∧ e.src ≠ s) → Q := by
        rintro Q ⟨e, he, hsrc, hdst, -⟩
        exact (hrev ⟨e, he, hsrc, hdst⟩).elim
      rw [inflated, if_neg (not_or.2 ⟨hlP, hrev⟩)]
      by_cases hon : l.dst ≠ s ∧ ∃ e ∈ P, e.src = l.dst ∨ e.dst = l.dst
      · have hex : ∃ e' ∈ P, e'.dst = l.dst := by
          obtain ⟨hs, e, he, hsrc | hdst⟩ := hon
          · obtain ⟨e', he', hd⟩ := hbefore e he (hsrc ▸ hs)
            exact ⟨e', he', hd.trans hsrc⟩
          · exact ⟨e, he, hdst⟩
        obtain ⟨e', he', hd⟩ := hex
        rw [if_pos hon, hother l hl hlP e' he' hd]
        exact ⟨fun _ => htrue _, fun _ => rfl⟩
      · have hnone : ∀ e ∈ P, e.dst ≠ l.dst := by
          intro e he hd
          exact hon ⟨hd ▸ hsource e he, e, he, Or.inr hd⟩
        have hoff : ∀ e ∈ P, g.linkBetween e.dst e.src ≠ some l := by
          intro e he hfind
          obtain ⟨-, hsrc, hdst⟩ := linkBetween_mem hfind
          exact hrev ⟨e, he, hdst.symm, hsrc.symm⟩
        rw [if_neg hon, hkeep hnone hoff, hp1 l hl]
        exact ⟨fun _ => htrue _, fun _ => rfl⟩

/-! ### The rounds of the program -/

/-- In every round that finds a path `P`, on a topology without parallel links, the new costs are as they should be
exactly when the two factors agree on the links back along `P` that do not end at its source.  The rounds keep the
store, so the real costs of the links as well. -/
theorem cost_inflation (s : Daemon ws) (hr : Rep s.store g) (hp : NoParallel g) (srcAddr : ip_v4_addr ws) {d : Ptr}
    (hd : d ∈ g.nodes) (k : ℕ) {c₀ : Scratch ws} {ring : List PathBlock} {s' : Daemon ws}
    (hreset : forLinks s.store (resetCost s.store) s.scratch = some c₀)
    (hrun : pathLoop srcAddr d k [] { s with scratch := c₀ } = some (true, ring, s')) :
    s'.store = s.store ∧ ∃ c₁, dijkstra s'.store srcAddr s'.scratch = some c₁ ∧
      (c₁.dijkstra_cost d ≠ ULONG_MAX → ∃ r P, Found g c₁ srcAddr r d P ∧
        (ws = .ilp32 → (retrievePath s'.store s'.conf d c₁).isSome) ∧
        ∀ path c₂, retrievePath s'.store s'.conf d c₁ = some (path, c₂) →
          ((∀ l ∈ g.links, c₂.link_cost l.name = inflated s.conf r P s'.scratch.link_cost l) ↔
            ∀ l ∈ g.links, (∃ e ∈ P, e.src = l.dst ∧ e.dst = l.src ∧ e.src ≠ r) →
              coefTimes s.conf.g_conf_fe (s'.scratch.link_cost l.name) =
                coefTimes s.conf.g_conf_fp (s'.scratch.link_cost l.name))) := by
  obtain ⟨cost, p1, hreset', -, hs⟩ := AtRound.reset hr rfl
  rw [hreset, Option.some_inj] at hreset'
  subst hreset'
  have hs' := hs.loop hr srcAddr hd k hrun
  obtain ⟨c₁, hdij, hcost, -, hs₁, hreached⟩ := hs'.round hr srcAddr hd
  refine ⟨hs'.store, c₁, hdij, fun htop => ?_⟩
  obtain ⟨r, P, cost', hf, hinflate, hretrieve⟩ := hreached htop
  refine ⟨r, P, hf, ?_, ?_⟩
  · rintro rfl
    rw [hretrieve, copyBack_spec hr hf.back (by rw [hf.hops]; omega)]
    rfl
  · intro path c₂ hc₂
    rw [hretrieve] at hc₂
    obtain ⟨w, -, hw⟩ := Option.map_eq_some_iff.1 hc₂
    rw [Prod.mk.injEq] at hw
    obtain ⟨-, rfl⟩ := hw
    rw [← hcost]
    refine Iff.trans ?_ (hr.inflated_iff hp s.conf hf.back hf.simple hs₁.costs)
    exact forall_congr' fun l => forall_congr' fun hl => by rw [← hinflate l hl]

/-- A line of three nodes with links both ways. -/
def line : Shape .ilp32 :=
  ⟨[4, 2, 0], [⟨5, 3, 4, 0⟩, ⟨3, 2, 2, 0⟩, ⟨1, 1, 0, 0⟩], [⟨9, 2, 0, 1⟩, ⟨8, 4, 2, 1⟩, ⟨7, 2, 4, 1⟩, ⟨6, 0, 2, 1⟩]⟩

def lineEvents : List (OlsrEventMessage .ilp32) :=
  [.DEV_CMD_ADD_NODE 1, .DEV_CMD_ADD_NODE 2, .DEV_CMD_ADD_NODE 3, .DEV_CMD_ADD_LINK 1 2 1, .DEV_CMD_ADD_LINK 2 3 1,
    .DEV_CMD_ADD_LINK 3 2 1, .DEV_CMD_ADD_LINK 2 1 1]

theorem line_wellFormed : ∃ h, handleReads tc_init_data lineEvents = some h ∧ WellFormed h line :=
  handleReads_wellFormed WellFormed.init lineEvents (by decide)

theorem line_noParallel : NoParallel line := by
  have hall : ∀ l ∈ line.links, ∀ l' ∈ line.links, l.src = l'.src → l.dst = l'.dst → l = l' := by decide
  exact hall

/-- A first round on the line, with equal factors. -/
theorem cost_inflation_demo : ∃ h : Store .ilp32, handleReads tc_init_data lineEvents = some h ∧
    ∃ c₀ c₁ r P path c₂, forLinks h (resetCost h) Scratch.zero = some c₀ ∧ dijkstra h 1 c₀ = some c₁ ∧
      Found line c₁ 1 r 4 P ∧ retrievePath h ⟨2, 3, 3⟩ 4 c₁ = some (path, c₂) ∧
      ∀ l ∈ line.links, c₂.link_cost l.name = inflated ⟨2, 3, 3⟩ r P c₀.link_cost l := by
  obtain ⟨h, hrun, hw⟩ := line_wellFormed
  obtain ⟨c₀, hreset⟩ : ∃ c₀, forLinks h (resetCost h) Scratch.zero = some c₀ := by
    obtain ⟨cost, p1, hreset, -⟩ := resetCosts_spec hw.toRep Scratch.zero
    exact ⟨_, hreset⟩
  obtain ⟨-, c₁, hdij, hfound⟩ := cost_inflation ⟨h, Scratch.zero, [], 0, ⟨2, 3, 3⟩⟩ hw.toRep line_noParallel 1 (d := 4)
    (by decide) 0 hreset rfl
  have htop : c₁.dijkstra_cost 4 ≠ ULONG_MAX := by
    have hcost : (do
        let h ← handleReads tc_init_data lineEvents
        let c₀ ← forLinks h (resetCost h) Scratch.zero
        let c₁ ← dijkstra h 1 c₀
        return c₁.dijkstra_cost 4) = some 2 := by decide
    rw [hrun, Option.bind_eq_bind, Option.bind_some, hreset, Option.bind_eq_bind, Option.bind_some, hdij] at hcost
    rw [Option.some_inj.1 hcost]
    decide
  obtain ⟨r, P, hf, hsome, hlaw⟩ := hfound htop
  obtain ⟨⟨path, c₂⟩, hretrieve⟩ := Option.isSome_iff_exists.1 (hsome rfl)
  exact ⟨h, hrun, c₀, c₁, r, P, path, c₂, hreset, hdij, hf, hretrieve, (hlaw path c₂ hretrieve).2 fun _ _ _ => rfl⟩

/-- The data of a first round on the line, with the factors 3 and 2. -/
def lineRound : Option (Store .ilp32 × Scratch .ilp32 × Scratch .ilp32 × OlsrPath × Scratch .ilp32) := do
  let h ← handleReads tc_init_data lineEvents
  let c₀ ← forLinks h (resetCost h) Scratch.zero
  let c₁ ← dijkstra h 1 c₀
  let r ← retrievePath h ⟨1, 2, 3⟩ 4 c₁
  return (h, c₀, c₁, r.1, r.2)

/-- The link from the last node back gets the factor 2, although its reverse is on the path. -/
theorem cost_inflation_fails : ∃ h c₀ c₁ path c₂, handleReads tc_init_data lineEvents = some h ∧
    forLinks h (resetCost h) Scratch.zero = some c₀ ∧ dijkstra h 1 c₀ = some c₁ ∧
    BackPath line c₁ 0 4 [⟨6, 0, 2, 1⟩, ⟨7, 2, 4, 1⟩] ∧ retrievePath h ⟨1, 2, 3⟩ 4 c₁ = some (path, c₂) ∧
    ¬ ∀ l ∈ line.links, c₂.link_cost l.name =
      inflated ⟨1, 2, 3⟩ 0 [⟨6, 0, 2, 1⟩, ⟨7, 2, 4, 1⟩] c₀.link_cost l := by
  have hvals : lineRound.map (fun r => ((r.2.2.1.dijkstra_path 4, r.2.2.1.dijkstra_path 2, r.2.2.1.dijkstra_path 0),
      r.2.2.2.2.link_cost 8, r.2.1.link_cost 8)) = some ((some 2, some 0, none), 2, 1) := by decide
  obtain ⟨⟨h, c₀, c₁, path, c₂⟩, hround, hvals⟩ := Option.map_eq_some_iff.1 hvals
  simp only [Prod.mk.injEq] at hvals
  obtain ⟨⟨h4, h2, h0⟩, hnew, hold⟩ := hvals
  rw [lineRound] at hround
  obtain ⟨h', hh, hround⟩ := Option.bind_eq_some_iff.1 hround
  obtain ⟨c₀', hc₀, hround⟩ := Option.bind_eq_some_iff.1 hround
  obtain ⟨c₁', hc₁, hround⟩ := Option.bind_eq_some_iff.1 hround
  obtain ⟨r, hr, hround⟩ := Option.bind_eq_some_iff.1 hround
  obtain ⟨rfl, rfl, rfl, rfl⟩ : h' = h ∧ c₀' = c₀ ∧ c₁' = c₁ ∧ r = (path, c₂) := by simpa using hround
  have hback : BackPath line c₁' 0 4 [⟨6, 0, 2, 1⟩, ⟨7, 2, 4, 1⟩] :=
    .link (l := ⟨7, 2, 4, 1⟩) (.link (l := ⟨6, 0, 2, 1⟩) (.source h0) (by decide) h2) (by decide) h4
  refine ⟨h', c₀', c₁', path, c₂, hh, hc₀, hc₁, hback, hr, fun hall => ?_⟩
  have hlink := hall ⟨8, 4, 2, 1⟩ (by decide)
  rw [hnew, inflated, if_pos (by decide), hold] at hlink
  exact absurd hlink (by decide)

end MpOlsr
