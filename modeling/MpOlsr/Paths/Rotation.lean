import MpOlsr.Lib.RoundRobin
import MpOlsr.Paths.Cache
import MpOlsr.Paths.Inflation

/-!
# The rotation of the paths

The lookups for two addresses take the paths of their ring in turns, whatever is looked up in between (`turns_of_run`).
The lookup that computes the paths selects the first path without moving on, so this path is selected once more
(`selections_spread`).
-/

namespace MpOlsr

open RoundRobin

variable {ws : WordSize} {g : Shape ws}

/-- The main address of the node with an address. -/
def mainAddrOf (h : Store ws) (addr : ip_v4_addr ws) : Option (ip_v4_addr ws) :=
  (tc_get_node h addr).join.bind (mainAddrIp h)

/-- The lookup is for the paths from the node of `srcAddr` to that of `dstAddr`. -/
def isCall (h : Store ws) (srcAddr dstAddr : ip_v4_addr ws) (r : ip_v4_addr ws × ip_v4_addr ws) : Bool :=
  mainAddrOf h r.1 = some srcAddr ∧ mainAddrOf h r.2 = some dstAddr

/-- The ring of the paths between two main addresses. -/
def Daemon.ring (s : Daemon ws) (srcAddr dstAddr : ip_v4_addr ws) : Option (List PathBlock) :=
  (s.g_path_buffer.find? fun entry => entry.isFor srcAddr dstAddr).map PathBuffer.lst_path

/-- The blocks of the paths selected between two main addresses. -/
def chosen (srcAddr dstAddr : ip_v4_addr ws) (sels : List (Selection ws)) : List Ptr :=
  (sels.filter fun x => x.srcAddr = srcAddr ∧ x.dstAddr = dstAddr).map fun x => x.path.name

/-! ### The new ring -/

/-- The paths of a ring have names of their own, which have been given away. -/
structure RingNames (ring : List PathBlock) (brk : Ptr) : Prop where
  nodup : (ring.map PathBlock.name).Nodup
  bound : ∀ path ∈ ring, path.name < brk

theorem RingNames.insert {ring : List PathBlock} {path : PathBlock} (h : RingNames ring path.name) :
    RingNames (insertPath path ring) (path.name + 1) := by
  have hnew : path.name ∉ ring.map PathBlock.name := by
    intro hmem
    obtain ⟨p, hp, hname⟩ := List.mem_map.1 hmem
    exact Nat.lt_irrefl _ (hname ▸ h.bound p hp)
  have hperm : (insertPath path ring).Perm (path :: ring) := by
    cases ring with
    | nil => exact .refl _
    | cons first ring => exact .swap _ _ _
  refine ⟨?_, fun p hp => ?_⟩
  · exact (hperm.map PathBlock.name).nodup_iff.2 (List.nodup_cons.2 ⟨hnew, h.nodup⟩)
  · rcases List.mem_cons.1 (hperm.mem_iff.1 hp) with rfl | hp
    · exact Nat.lt_succ_self _
    · exact Nat.lt_succ_of_lt (h.bound p hp)

theorem length_insertPath (path : PathBlock) (ring : List PathBlock) :
    (insertPath path ring).length = ring.length + 1 := by
  cases ring <;> rfl

/-- The loop inserts a path in every round, unless it stops early. -/
theorem pathLoop_ring (srcAddr : ip_v4_addr ws) (d : Ptr) (k : ℕ) {ring ring' : List PathBlock} {s s' : Daemon ws}
    {b : Bool} (hring : RingNames ring s.path_brk) (hrun : pathLoop srcAddr d k ring s = some (b, ring', s')) :
    RingNames ring' s'.path_brk ∧ s'.g_path_buffer = s.g_path_buffer ∧ s.path_brk ≤ s'.path_brk ∧
      (b = true → ring'.length = ring.length + k) ∧ (b = false → ring'.length < ring.length + k) := by
  induction k generalizing ring s with
  | zero =>
    cases hrun
    exact ⟨hring, rfl, le_rfl, fun _ => rfl, fun hb => by cases hb⟩
  | succ k ih =>
    rw [pathLoop] at hrun
    obtain ⟨c₁, -, hrun⟩ := Option.bind_eq_some_iff.1 hrun
    by_cases htop : c₁.dijkstra_cost d = ULONG_MAX
    · rw [if_pos htop] at hrun
      cases hrun
      refine ⟨hring, rfl, le_rfl, fun hb => ?_, fun _ => by omega⟩
      cases hb
    · rw [if_neg htop] at hrun
      obtain ⟨⟨path, c₂⟩, -, hrun⟩ := Option.bind_eq_some_iff.1 hrun
      let block : PathBlock := { path with name := s.path_brk }
      have hblock : RingNames ring block.name := hring
      have hring' : RingNames (insertPath block ring) (s.path_brk + 1) := hblock.insert
      obtain ⟨hnames, hbuffer, hbrk, hdone, hstop⟩ := ih hring' hrun
      rw [length_insertPath] at hdone hstop
      exact ⟨hnames, hbuffer, (Nat.le_succ _).trans hbrk, fun hb => by rw [hdone hb]; omega,
        fun hb => by have := hstop hb; omega⟩

/-- The computation adds an entry with the paths, and returns the first of them if it ran to its end. -/
theorem tc_k_dijstra_ring {s s' : Daemon ws} (hr : Rep s.store g) {srcAddr dstAddr : ip_v4_addr ws}
    {r : Option PathBlock} (hrun : tc_k_dijstra s srcAddr dstAddr = some (r, s')) :
    ∃ ring, s'.g_path_buffer = ⟨srcAddr, dstAddr, ring⟩ :: s.g_path_buffer ∧ (ring.map PathBlock.name).Nodup ∧
      (r = ring.head? ∧ ring.length = s.conf.g_conf_path.toNat ∨
        r = none ∧ (ring = [] ∨ ring.length < s.conf.g_conf_path.toNat)) := by
  rw [tc_k_dijstra, hr.get_node, Option.bind_eq_bind, Option.bind_some] at hrun
  cases hdst : resolve g.addrs dstAddr with
  | none =>
    rw [hdst] at hrun
    cases hrun
    exact ⟨[], rfl, List.nodup_nil, Or.inr ⟨rfl, Or.inl rfl⟩⟩
  | some e =>
    obtain ⟨cost, p1, hreset, -, hs⟩ := AtRound.reset hr rfl
    simp only [hdst, Option.map_some, hreset, Option.bind_eq_bind, Option.bind_some] at hrun
    obtain ⟨⟨b, ring, t⟩, hloop, hrun⟩ := Option.bind_eq_some_iff.1 hrun
    obtain ⟨hnames, hbuffer, -, hdone, hstop⟩ := pathLoop_ring srcAddr e.node _ ⟨by simp, by simp⟩ hloop
    cases hrun
    refine ⟨ring, rfl, hnames.nodup, ?_⟩
    cases b with
    | true => exact Or.inl ⟨rfl, by simpa using hdone rfl⟩
    | false => exact Or.inr ⟨rfl, Or.inr (by simpa using hstop rfl)⟩

/-! ### One lookup -/

theorem ring_nextPathFor_self {buffers : List (PathBuffer ws)} {a b : ip_v4_addr ws} {entry : PathBuffer ws}
    (hfind : buffers.find? (fun entry => entry.isFor a b) = some entry) :
    (nextPathFor a b buffers).find? (fun entry => entry.isFor a b) =
      some { entry with lst_path := nextPath entry.lst_path } := by
  induction buffers with
  | nil => cases hfind
  | cons e buffers ih =>
    rw [List.find?_cons] at hfind
    cases he : e.isFor a b with
    | true =>
      have he' : ({ e with lst_path := nextPath e.lst_path } : PathBuffer ws).isFor a b = true := he
      rw [he, Option.some_inj] at hfind
      subst hfind
      rw [nextPathFor, if_pos he, List.find?_cons, he']
    | false =>
      rw [he] at hfind
      rw [nextPathFor, he, if_neg Bool.false_ne_true, List.find?_cons, he]
      exact ih hfind

theorem ring_nextPathFor_other {a b c d : ip_v4_addr ws} (hne : ¬ (a = c ∧ b = d)) (buffers : List (PathBuffer ws)) :
    (nextPathFor c d buffers).find? (fun entry => entry.isFor a b) =
      buffers.find? fun entry => entry.isFor a b := by
  induction buffers with
  | nil => rfl
  | cons e buffers ih =>
    cases he : e.isFor c d with
    | true =>
      have hnot : e.isFor a b = false := by
        by_contra he'
        rw [Bool.not_eq_false] at he'
        obtain ⟨h1, h2⟩ := of_decide_eq_true he
        obtain ⟨h3, h4⟩ := of_decide_eq_true he'
        exact hne ⟨h3.symm.trans h1, h4.symm.trans h2⟩
      have hnot' : ({ e with lst_path := nextPath e.lst_path } : PathBuffer ws).isFor a b = false := hnot
      rw [nextPathFor, if_pos he, List.find?_cons, List.find?_cons, hnot, hnot']
    | false =>
      rw [nextPathFor, he, if_neg Bool.false_ne_true, List.find?_cons, List.find?_cons, ih]

/-- The outcome of a lookup for two main addresses. -/
def Daemon.answer (s : Daemon ws) (a b : ip_v4_addr ws) : Lookup ws × Daemon ws :=
  match s.ring a b with
  | none => (.missing a b (decide (a = s.store.g_local_addr_tab 0)), s)
  | some [] => (.failed, s)
  | some (path :: _) => (.cached ⟨a, b, decide (a = s.store.g_local_addr_tab 0), path⟩,
      { s with g_path_buffer := nextPathFor a b s.g_path_buffer })

theorem Rep.mainAddrOf_eq {h : Store ws} (hr : Rep h g) (x : ip_v4_addr ws) :
    mainAddrOf h x = (resolve g.addrs x).map fun e => g.mainOf e.node := by
  rw [mainAddrOf, hr.get_node]
  cases hx : resolve g.addrs x with
  | none => rfl
  | some e => exact hr.mainAddrIp_eq (hr.resolve_node hx)

/-- A lookup fails for an address that is not registered; otherwise the ring of the main addresses decides. -/
theorem lookup_spec {s : Daemon ws} (hr : Rep s.store g) (x y : ip_v4_addr ws) :
    s.lookup x y = some (match mainAddrOf s.store x, mainAddrOf s.store y with
      | some a, some b => s.answer a b
      | _, _ => (.failed, s)) := by
  rw [Daemon.lookup, hr.get_node, hr.get_node, hr.mainAddrOf_eq, hr.mainAddrOf_eq]
  cases hx : resolve g.addrs x with
  | none => rfl
  | some e =>
    simp only [Option.map_some, Option.bind_eq_bind, Option.bind_some, hr.mainAddrIp_eq (hr.resolve_node hx)]
    cases hy : resolve g.addrs y with
    | none => rfl
    | some e' =>
      simp only [Option.map_some, Option.bind_some, hr.mainAddrIp_eq (hr.resolve_node hy), Daemon.answer, Daemon.ring]
      cases hfind : s.g_path_buffer.find? fun entry => entry.isFor (g.mainOf e.node) (g.mainOf e'.node) with
      | none => rfl
      | some entry =>
        simp only [Option.map_some]
        cases entry.lst_path <;> rfl

theorem ring_answer {s : Daemon ws} {a b c d : ip_v4_addr ws} (hne : ¬ (a = c ∧ b = d)) :
    (s.answer c d).2.ring a b = s.ring a b := by
  rw [Daemon.answer]
  split
  · rfl
  · rfl
  · exact congrArg _ (ring_nextPathFor_other hne s.g_path_buffer)

theorem chosen_other {a b c d : ip_v4_addr ws} (hne : ¬ (a = c ∧ b = d)) (loc : Bool) (path : Option PathBlock) :
    chosen a b (path.map fun p => (⟨c, d, loc, p⟩ : Selection ws)).toList = [] := by
  cases path with
  | none => rfl
  | some p =>
    have hno : ¬ (c = a ∧ d = b) := fun h => hne ⟨h.1.symm, h.2.symm⟩
    simp [chosen, hno]

theorem chosen_self (a b : ip_v4_addr ws) (loc : Bool) (path : Option PathBlock) :
    chosen a b (path.map fun p => (⟨a, b, loc, p⟩ : Selection ws)).toList = (path.map PathBlock.name).toList := by
  cases path <;> simp [chosen]

/-- What one lookup does to the ring for two addresses, and which of its paths it selects. -/
theorem select_spec {s s' : Daemon ws} (hr : Rep s.store g) {r : ip_v4_addr ws × ip_v4_addr ws}
    {sel : Option (Selection ws)} (hrun : s.select r.1 r.2 = some (sel, s')) (a b : ip_v4_addr ws) :
    s'.store = s.store ∧ s'.conf = s.conf ∧
    (isCall s.store a b r = false → chosen a b sel.toList = [] ∧ s'.ring a b = s.ring a b) ∧
    (isCall s.store a b r = true →
      (∀ path paths, s.ring a b = some (path :: paths) →
        chosen a b sel.toList = [path.name] ∧ s'.ring a b = some (paths ++ [path])) ∧
      (s.ring a b = some [] → s'.ring a b = some []) ∧
      (s.ring a b = none → ∃ ring, s'.ring a b = some ring ∧ (ring.map PathBlock.name).Nodup ∧
        (chosen a b sel.toList = (ring.map PathBlock.name).head?.toList ∧
            ring.length = s.conf.g_conf_path.toNat ∨
          chosen a b sel.toList = [] ∧ (ring = [] ∨ ring.length < s.conf.g_conf_path.toNat)))) := by
  rw [Daemon.select, lookup_spec hr, Option.bind_eq_bind, Option.bind_some] at hrun
  cases hx : mainAddrOf s.store r.1 with
  | none =>
    rw [hx] at hrun
    cases hrun
    refine ⟨rfl, rfl, fun _ => ⟨rfl, rfl⟩, fun hcall => ?_⟩
    rw [isCall, hx] at hcall
    simp at hcall
  | some c =>
    cases hy : mainAddrOf s.store r.2 with
    | none =>
      rw [hx, hy] at hrun
      cases hrun
      refine ⟨rfl, rfl, fun _ => ⟨rfl, rfl⟩, fun hcall => ?_⟩
      rw [isCall, hy] at hcall
      simp at hcall
    | some d =>
      have hiff : isCall s.store a b r = true ↔ a = c ∧ b = d := by
        rw [isCall, hx, hy, decide_eq_true_eq, Option.some_inj, Option.some_inj, eq_comm, and_congr_right_iff]
        exact fun _ => eq_comm
      simp only [hx, hy] at hrun
      rw [Daemon.answer] at hrun
      cases hring : s.ring c d with
      | none =>
        simp only [hring] at hrun
        obtain ⟨⟨path, t⟩, hk, hsel⟩ := Option.map_eq_some_iff.1 hrun
        cases hsel
        obtain ⟨hstore, hconf⟩ := tc_k_dijstra_store hr hk
        obtain ⟨ring, hbuffer, hnodup, hcases⟩ := tc_k_dijstra_ring hr hk
        have hfind : t.ring a b = if (⟨c, d, ring⟩ : PathBuffer ws).isFor a b then some ring else s.ring a b := by
          rw [Daemon.ring, hbuffer, List.find?_cons]
          cases (⟨c, d, ring⟩ : PathBuffer ws).isFor a b <;> rfl
        refine ⟨hstore, hconf, fun hno => ?_, fun hcall => ?_⟩
        · have hne : ¬ (a = c ∧ b = d) := fun h => by rw [hiff.2 h] at hno; cases hno
          have hnot : ¬ (⟨c, d, ring⟩ : PathBuffer ws).isFor a b = true := by
            intro h
            obtain ⟨h1, h2⟩ := of_decide_eq_true h
            exact hne ⟨h1.symm, h2.symm⟩
          rw [if_neg hnot] at hfind
          exact ⟨chosen_other hne _ _, hfind⟩
        · obtain ⟨rfl, rfl⟩ := hiff.1 hcall
          have hyes : (⟨a, b, ring⟩ : PathBuffer ws).isFor a b = true := decide_eq_true ⟨rfl, rfl⟩
          rw [if_pos hyes] at hfind
          rw [hring]
          refine ⟨fun _ _ h => (by cases h), fun h => (by cases h), fun _ => ⟨ring, hfind, hnodup, ?_⟩⟩
          rw [chosen_self]
          rcases hcases with ⟨rfl, hlen⟩ | ⟨rfl, hlen⟩
          · exact Or.inl ⟨by rw [List.head?_map], hlen⟩
          · exact Or.inr ⟨rfl, hlen⟩
      | some paths =>
        cases paths with
        | nil =>
          simp only [hring] at hrun
          cases hrun
          refine ⟨rfl, rfl, fun _ => ⟨rfl, rfl⟩, fun hcall => ?_⟩
          obtain ⟨rfl, rfl⟩ := hiff.1 hcall
          rw [hring]
          exact ⟨fun _ _ h => (by cases h), fun h => h, fun h => (by cases h)⟩
        | cons path paths =>
          simp only [hring] at hrun
          cases hrun
          have hsel : some (⟨c, d, decide (c = s.store.g_local_addr_tab 0), path⟩ : Selection ws) =
              (some path).map fun p => ⟨c, d, decide (c = s.store.g_local_addr_tab 0), p⟩ := rfl
          refine ⟨rfl, rfl, fun hno => ?_, fun hcall => ?_⟩
          · have hne : ¬ (a = c ∧ b = d) := fun h => by rw [hiff.2 h] at hno; cases hno
            rw [hsel]
            exact ⟨chosen_other hne _ _, congrArg _ (ring_nextPathFor_other hne s.g_path_buffer)⟩
          · obtain ⟨rfl, rfl⟩ := hiff.1 hcall
            obtain ⟨entry, hentry, hpaths⟩ := Option.map_eq_some_iff.1 hring
            have hnext := ring_nextPathFor_self hentry
            rw [hsel, hring]
            refine ⟨fun path' paths' h => ?_, fun h => (by cases h), fun h => (by cases h)⟩
            rw [Option.some_inj, List.cons.injEq] at h
            obtain ⟨rfl, rfl⟩ := h
            refine ⟨chosen_self a b _ _, ?_⟩
            rw [Daemon.ring, hnext, Option.map_some, hpaths]
            rfl

/-! ### Lookups one after the other -/

theorem chosen_append (a b : ip_v4_addr ws) (xs ys : List (Selection ws)) :
    chosen a b (xs ++ ys) = chosen a b xs ++ chosen a b ys := by
  rw [chosen, chosen, chosen, List.filter_append, List.map_append]

/-- Once the paths are in the cache, the lookups take them in turns. -/
theorem turns_of_run {s s' : Daemon ws} (hr : Rep s.store g) (a b : ip_v4_addr ws)
    (rs : List (ip_v4_addr ws × ip_v4_addr ws)) {sels : List (Selection ws)} {ring : List PathBlock}
    (hring : s.ring a b = some ring) (hrun : s.selections rs = some (sels, s')) :
    (∃ ring', s'.ring a b = some ring' ∧ ring'.Perm ring) ∧
      (ring ≠ [] → chosen a b sels = turns (ring.map PathBlock.name) (rs.filter (isCall s.store a b)).length) := by
  induction rs generalizing s ring sels with
  | nil =>
    cases hrun
    exact ⟨⟨ring, hring, .refl _⟩, fun _ => by cases ring <;> rfl⟩
  | cons r rs ih =>
    rw [Daemon.selections] at hrun
    obtain ⟨⟨sel, t⟩, hsel, hrun⟩ := Option.bind_eq_some_iff.1 hrun
    obtain ⟨⟨others, t'⟩, hothers, hrun⟩ := Option.bind_eq_some_iff.1 hrun
    cases hrun
    obtain ⟨hstore, -, hother, hself⟩ := select_spec hr hsel a b
    have hr' : Rep t.store g := hstore ▸ hr
    rw [chosen_append]
    cases hcall : isCall s.store a b r with
    | false =>
      obtain ⟨hnone, hkeep⟩ := hother hcall
      obtain ⟨hperm, hturns⟩ := ih hr' (hkeep.trans hring) hothers
      refine ⟨hperm, fun hne => ?_⟩
      rw [hnone, List.nil_append, hturns hne, hstore, List.filter_cons_of_neg (by rw [hcall]; exact Bool.false_ne_true)]
    | true =>
      obtain ⟨hnext, hnil, -⟩ := hself hcall
      cases ring with
      | nil =>
        obtain ⟨hperm, -⟩ := ih hr' (hnil hring) hothers
        exact ⟨hperm, fun hne => (hne rfl).elim⟩
      | cons path paths =>
        obtain ⟨hpath, hring'⟩ := hnext path paths hring
        obtain ⟨⟨ring', hring'', hperm⟩, hturns⟩ := ih hr' hring' hothers
        refine ⟨⟨ring', hring'', hperm.trans (List.perm_append_singleton _ _)⟩, fun _ => ?_⟩
        rw [hpath, hturns (by simp), hstore, List.filter_cons_of_pos hcall, List.length_cons, List.map_cons, turns,
          List.map_append, List.map_singleton]
        rfl

/-- Where an `unsigned long` has the size of an address, the lookups return. -/
theorem selections_total (s : Daemon .ilp32) {g : Shape .ilp32} (hr : Rep s.store g)
    (rs : List (ip_v4_addr .ilp32 × ip_v4_addr .ilp32)) : (s.selections rs).isSome := by
  induction rs generalizing s with
  | nil => rfl
  | cons r rs ih =>
    have hsel : (s.select r.1 r.2).isSome := by
      rw [Daemon.select, lookup_spec hr, Option.bind_eq_bind, Option.bind_some]
      cases mainAddrOf s.store r.1 with
      | none => rfl
      | some a =>
        cases mainAddrOf s.store r.2 with
        | none => rfl
        | some b =>
          simp only [Daemon.answer]
          cases s.ring a b with
          | none =>
            obtain ⟨x, hx⟩ := Option.isSome_iff_exists.1 (tc_k_dijstra_total s hr a b)
            simp only [Daemon.compute, hx]
            rfl
          | some paths => cases paths <;> rfl
    obtain ⟨⟨sel, t⟩, hsel⟩ := Option.isSome_iff_exists.1 hsel
    obtain ⟨hstore, -⟩ := select_spec hr hsel 0 0
    obtain ⟨⟨others, t'⟩, hothers⟩ := Option.isSome_iff_exists.1 (ih t (hstore ▸ hr))
    rw [Daemon.selections, hsel, Option.bind_eq_bind, Option.bind_some]
    simp only [hothers, Option.bind_eq_bind, Option.bind_some]
    rfl

/-- The lookups select the computed paths between two main addresses equally often, up to one lookup, exactly when there
is one path, or the lookups after the first come out even, or the computation stopped early, so that the first lookup
selected no path. -/
theorem selections_spread (s : Daemon ws) (hr : Rep s.store g) (a b : ip_v4_addr ws)
    (rs : List (ip_v4_addr ws × ip_v4_addr ws)) : (ws = .ilp32 → (s.selections rs).isSome) ∧
    ∀ sels s' ring, s.ring a b = none → s.selections rs = some (sels, s') → s'.ring a b = some ring → ring ≠ [] →
      ((∀ p ∈ ring, ∀ q ∈ ring,
          (chosen a b sels).count p.name ≤ (chosen a b sels).count q.name + 1) ↔
        ring.length = 1 ∨ ring.length ∣ (rs.filter (isCall s.store a b)).length - 1 ∨
          ring.length < s.conf.g_conf_path.toNat) := by
  refine ⟨?_, ?_⟩
  · rintro rfl
    exact selections_total s hr rs
  · intro sels s' ring hnone hrun hring hne
    induction rs generalizing s sels with
    | nil =>
      cases hrun
      rw [hnone] at hring
      cases hring
    | cons r rs ih =>
      rw [Daemon.selections] at hrun
      obtain ⟨⟨sel, t⟩, hsel, hrun⟩ := Option.bind_eq_some_iff.1 hrun
      obtain ⟨⟨others, t'⟩, hothers, hrun⟩ := Option.bind_eq_some_iff.1 hrun
      cases hrun
      obtain ⟨hstore, hconf, hother, hself⟩ := select_spec hr hsel a b
      have hr' : Rep t.store g := hstore ▸ hr
      rw [chosen_append]
      cases hcall : isCall s.store a b r with
      | false =>
        obtain ⟨hsel', hkeep⟩ := hother hcall
        have hall := ih t hr' others (hkeep.trans hnone) hothers
        rw [hsel', List.nil_append, List.filter_cons_of_neg (by rw [hcall]; exact Bool.false_ne_true), ← hstore, ← hconf]
        exact hall
      | true =>
        obtain ⟨ring₀, hring₀, hnodup, hcases⟩ := (hself hcall).2.2 hnone
        obtain ⟨⟨ring', hring', hperm⟩, hturns⟩ := turns_of_run hr' a b rs hring₀ hothers
        rw [hring, Option.some_inj] at hring'
        subst hring'
        have hne₀ : ring₀ ≠ [] := by
          rintro rfl
          exact hne hperm.eq_nil
        have hnames : (∀ p ∈ ring, ∀ q ∈ ring, (chosen a b sel.toList ++ chosen a b others).count p.name ≤
            (chosen a b sel.toList ++ chosen a b others).count q.name + 1) ↔
            ∀ x ∈ ring₀.map PathBlock.name, ∀ y ∈ ring₀.map PathBlock.name,
              (chosen a b sel.toList ++ chosen a b others).count x ≤
                (chosen a b sel.toList ++ chosen a b others).count y + 1 := by
          simp only [List.forall_mem_map, hperm.mem_iff]
        rw [hnames, hperm.length_eq, hturns hne₀, List.filter_cons_of_pos hcall, List.length_cons, Nat.add_sub_cancel,
          hstore]
        rcases hcases with ⟨hchosen, hlen⟩ | ⟨hchosen, hstop⟩
        · obtain ⟨first, hfirst⟩ : ∃ first, (ring₀.map PathBlock.name).head? = some first := by
            cases ring₀ with
            | nil => exact (hne₀ rfl).elim
            | cons p ps => exact ⟨p.name, rfl⟩
          rw [hchosen, hfirst, Option.toList_some, List.singleton_append, spread_iff hnodup hfirst, List.length_map]
          simp [hlen]
        · rw [hchosen, List.nil_append]
          exact ⟨fun _ => Or.inr (Or.inr (hstop.resolve_left hne₀)),
            fun _ x hx y hy => count_turns_le hnodup hx hy _⟩

/-- The blocks selected on the line, between two addresses, and the ring at the end. -/
def lineSelections (conf : Conf) (a b : ip_v4_addr .ilp32) (rs : List (ip_v4_addr .ilp32 × ip_v4_addr .ilp32)) :
    Option (List Ptr × Option (List Ptr)) := do
  let h ← handleReads tc_init_data lineEvents
  let r ← Daemon.selections ⟨h, Scratch.zero, [], 0, conf⟩ rs
  return (chosen a b r.1, (r.2.ring a b).map fun ring => ring.map PathBlock.name)

/-- Two paths, and three lookups with another one in between: the second and the third lookup come out even. -/
theorem selections_spread_demo : ∃ (h : Store .ilp32) (sels : List (Selection .ilp32)) (s' : Daemon .ilp32)
    (ring : List PathBlock), handleReads tc_init_data lineEvents = some h ∧
    Daemon.selections ⟨h, Scratch.zero, [], 0, ⟨2, 2, 2⟩⟩ [(1, 3), (1, 2), (1, 3), (1, 3)] = some (sels, s') ∧
    s'.ring 1 3 = some ring ∧ ring.length = 2 ∧
    ∀ p ∈ ring, ∀ q ∈ ring, (chosen 1 3 sels).count p.name ≤ (chosen 1 3 sels).count q.name + 1 := by
  have hvals : lineSelections ⟨2, 2, 2⟩ 1 3 [(1, 3), (1, 2), (1, 3), (1, 3)] = some ([0, 0, 1], some [0, 1]) := by
    decide
  have hcalls : (handleReads tc_init_data lineEvents).all fun h =>
      ([(1, 3), (1, 2), (1, 3), (1, 3)].filter (isCall h 1 3)).length = 3 := by decide
  obtain ⟨h, hrun, hw⟩ := line_wellFormed
  rw [hrun, Option.all_some, decide_eq_true_eq] at hcalls
  rw [lineSelections, hrun, Option.bind_eq_bind, Option.bind_some] at hvals
  obtain ⟨⟨sels, s'⟩, hsels, hvals⟩ := Option.bind_eq_some_iff.1 hvals
  obtain ⟨hchosen, hring⟩ := Prod.mk.inj (Option.some_inj.1 hvals)
  obtain ⟨ring, hring, hnames⟩ := Option.map_eq_some_iff.1 hring
  have hlen : ring.length = 2 := by
    rw [← List.length_map (f := PathBlock.name), hnames]
    rfl
  have hne : ring ≠ [] := by
    rintro rfl
    cases hlen
  refine ⟨h, sels, s', ring, hrun, hsels, hring, hlen, ?_⟩
  refine ((selections_spread ⟨h, Scratch.zero, [], 0, ⟨2, 2, 2⟩⟩ hw.toRep 1 3 _).2 sels s' ring rfl hsels hring hne).2 ?_
  rw [hcalls, hlen]
  exact Or.inr (Or.inl (by decide))

/-- Two paths, and two lookups: both select the first path. -/
theorem selections_uneven : ∃ (h : Store .ilp32) (sels : List (Selection .ilp32)) (s' : Daemon .ilp32)
    (p q : PathBlock), handleReads tc_init_data lineEvents = some h ∧
    Daemon.selections ⟨h, Scratch.zero, [], 0, ⟨2, 2, 2⟩⟩ [(1, 3), (1, 3)] = some (sels, s') ∧
    s'.ring 1 3 = some [q, p] ∧ (chosen 1 3 sels).count p.name = 2 ∧ (chosen 1 3 sels).count q.name = 0 := by
  have hvals : lineSelections ⟨2, 2, 2⟩ 1 3 [(1, 3), (1, 3)] = some ([0, 0], some [1, 0]) := by decide
  obtain ⟨h, hrun, -⟩ := line_wellFormed
  rw [lineSelections, hrun, Option.bind_eq_bind, Option.bind_some] at hvals
  obtain ⟨⟨sels, s'⟩, hsels, hvals⟩ := Option.bind_eq_some_iff.1 hvals
  obtain ⟨hchosen, hring⟩ := Prod.mk.inj (Option.some_inj.1 hvals)
  obtain ⟨ring, hring, hnames⟩ := Option.map_eq_some_iff.1 hring
  obtain ⟨q, ring, rfl, hq, hnames⟩ := List.map_eq_cons_iff.1 hnames
  obtain ⟨p, ring, rfl, hp, hnames⟩ := List.map_eq_cons_iff.1 hnames
  rw [List.map_eq_nil_iff] at hnames
  subst hnames
  refine ⟨h, sels, s', p, q, hrun, hsels, hring, ?_, ?_⟩
  · rw [hchosen, hp]
    rfl
  · rw [hchosen, hq]
    rfl

end MpOlsr
