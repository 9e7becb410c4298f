import MpOlsr.Paths.Rotation
import MpOlsr.Routing.Layout

/-!
# The path in turn

Which path a lookup hands out is settled before it: the path whose turn it is in the cache, or else a path with as many
hops as `dijkstra` gives the destination (`select_spec_inTurn`).  Every block of the cache has room for its hops, and
so has every new one (`tc_k_dijstra_frame`).
-/

namespace MpOlsr

open DoublyLinked

variable {ws : WordSize}

/-- The block has room for the addresses of its hops. -/
def OlsrPath.Sized (path : OlsrPath) : Prop := path.path.length = path.path_hops * ip_v4_size

/-- All paths of the cache are sized. -/
def Daemon.Sized (s : Daemon ws) : Prop :=
  ∀ entry ∈ s.g_path_buffer, ∀ path ∈ entry.lst_path, path.toOlsrPath.Sized

/-- The number of hops that `dijkstra` gives a destination, on the costs of the links. -/
def Daemon.hopsTo (s : Daemon ws) (srcAddr dstAddr : ip_v4_addr ws) : Option ℕ := do
  let dst_node ← (tc_get_node s.store dstAddr).join
  let c ← forLinks s.store (resetCost s.store) s.scratch
  let c ← dijkstra s.store srcAddr c
  return c.dijkstra_hops dst_node

/-- The computation of the paths ends with a path. -/
def Daemon.reports (s : Daemon ws) (srcAddr dstAddr : ip_v4_addr ws) : Bool :=
  (tc_k_dijstra s srcAddr dstAddr).any fun r => r.1.isSome

/-- The number of hops of the path in turn between two main addresses. -/
def Daemon.hopsInTurn (s : Daemon ws) (srcAddr dstAddr : ip_v4_addr ws) : Option ℕ :=
  match s.ring srcAddr dstAddr with
  | some ring => ring.head?.map fun path => path.path_hops
  | none => if s.reports srcAddr dstAddr then s.hopsTo srcAddr dstAddr else none

/-- Whether the source of a request is the local node, and the number of hops of the path in turn. -/
def Daemon.inTurn (s : Daemon ws) (srcAddr_req dstAddr_req : ip_v4_addr ws) : Option (Bool × ℕ) := do
  let srcAddr ← mainAddrOf s.store srcAddr_req
  let dstAddr ← mainAddrOf s.store dstAddr_req
  let hops ← s.hopsInTurn srcAddr dstAddr
  return (decide (srcAddr = s.store.g_local_addr_tab 0), hops)

/-! ### The new paths -/

theorem copyAddr_length {h : Store ws} {c : Scratch ws} {node : Ptr} {w w' : PathWriter}
    (hw : copyAddr h c node w = some w') : w'.1.length = w.1.length := by
  rw [copyAddr] at hw
  split at hw
  · cases hw
    rfl
  · obtain ⟨addr, -, hw⟩ := Option.bind_eq_some_iff.1 hw
    obtain ⟨path, hpath, hw⟩ := Option.bind_eq_some_iff.1 hw
    cases hw
    exact (Bytes.length_write hpath).1

theorem retrievePath_sized {h : Store ws} {conf : Conf} {d : Ptr} {c c' : Scratch ws} {path : OlsrPath}
    (hrun : retrievePath h conf d c = some (path, c')) : path.Sized ∧ path.path_hops = c.dijkstra_hops d := by
  obtain ⟨t, hwalk, hrun⟩ := Option.bind_eq_some_iff.1 hrun
  obtain ⟨c₂, -, hrun⟩ := Option.bind_eq_some_iff.1 hrun
  cases hrun
  have hkeep : t.2.1.1.length = c.dijkstra_hops d * ip_v4_size := by
    apply walk_keeps (P := fun t : Scratch ws × PathWriter × Option Ptr =>
      t.2.1.1.length = c.dijkstra_hops d * ip_v4_size) _ _ hwalk
    · rintro t node r ht hr
      obtain ⟨nd, -, hr⟩ := Option.bind_eq_some_iff.1 hr
      obtain ⟨w, hw, hr⟩ := Option.bind_eq_some_iff.1 hr
      dsimp only at hr
      split at hr
      · cases hr
        exact (copyAddr_length hw).trans ht
      · obtain ⟨c₃, -, hr⟩ := Option.bind_eq_some_iff.1 hr
        cases hr
        exact (copyAddr_length hw).trans ht
    · simp
  exact ⟨hkeep, rfl⟩

theorem mem_insertPath {path p : PathBlock} {ring : List PathBlock} : p ∈ insertPath path ring ↔ p = path ∨ p ∈ ring := by
  cases ring <;> simp [insertPath, or_left_comm]

/-- The loop keeps the topology and the cache, and a ring of sized paths; a first path stays the first. -/
theorem pathLoop_frame (srcAddr : ip_v4_addr ws) (d : Ptr) (k : ℕ) {ring ring' : List PathBlock} {s s' : Daemon ws}
    {b : Bool} (hrun : pathLoop srcAddr d k ring s = some (b, ring', s')) :
    s'.store = s.store ∧ s'.g_path_buffer = s.g_path_buffer ∧
      ((∀ path ∈ ring, path.toOlsrPath.Sized) → ∀ path ∈ ring', path.toOlsrPath.Sized) ∧
      ∀ first, ring.head? = some first → ring'.head? = some first := by
  induction k generalizing ring s with
  | zero =>
    cases hrun
    exact ⟨rfl, rfl, fun h => h, fun _ h => h⟩
  | succ k ih =>
    obtain ⟨c₁, -, hrun⟩ := Option.bind_eq_some_iff.1 hrun
    split at hrun
    · cases hrun
      exact ⟨rfl, rfl, fun h => h, fun _ h => h⟩
    · obtain ⟨⟨path, c₂⟩, hpath, hrun⟩ := Option.bind_eq_some_iff.1 hrun
      obtain ⟨hstore, hbuffer, hsized, hfirst⟩ := ih hrun
      refine ⟨hstore, hbuffer, fun hall => hsized fun p hp => ?_, fun first hhead => hfirst first ?_⟩
      · rcases mem_insertPath.1 hp with rfl | hp
        · exact (retrievePath_sized hpath).1
        · exact hall p hp
      · cases ring with
        | nil => cases hhead
        | cons x ring => exact hhead

/-- The first path of a new ring has the hops that `dijkstra` gives the destination. -/
theorem pathLoop_head {srcAddr : ip_v4_addr ws} {d : Ptr} {k : ℕ} {ring : List PathBlock} {s s' : Daemon ws} {b : Bool}
    (hrun : pathLoop srcAddr d k [] s = some (b, ring, s')) {first : PathBlock} (hfirst : ring.head? = some first) :
    ∃ c, dijkstra s.store srcAddr s.scratch = some c ∧ first.path_hops = c.dijkstra_hops d := by
  cases k with
  | zero =>
    cases hrun
    cases hfirst
  | succ k =>
    obtain ⟨c₁, hdij, hrun⟩ := Option.bind_eq_some_iff.1 hrun
    refine ⟨c₁, hdij, ?_⟩
    split at hrun
    · cases hrun
      cases hfirst
    · obtain ⟨⟨path, c₂⟩, hpath, hrun⟩ := Option.bind_eq_some_iff.1 hrun
      have hhead := (pathLoop_frame srcAddr d k hrun).2.2.2 _ rfl
      rw [hfirst, Option.some_inj] at hhead
      subst hhead
      exact (retrievePath_sized hpath).2

/-- The computation keeps the topology, and a cache of sized paths; the path that it returns is in the cache. -/
theorem tc_k_dijstra_frame {s s' : Daemon ws} {srcAddr dstAddr : ip_v4_addr ws} {r : Option PathBlock}
    (hrun : tc_k_dijstra s srcAddr dstAddr = some (r, s')) :
    s'.store = s.store ∧ (s.Sized → s'.Sized ∧ ∀ path, r = some path → path.toOlsrPath.Sized) ∧
      ∀ path, r = some path → s.hopsTo srcAddr dstAddr = some path.path_hops := by
  obtain ⟨found, hfound, hrun⟩ := Option.bind_eq_some_iff.1 hrun
  cases found with
  | none =>
    cases hrun
    refine ⟨rfl, fun hs => ⟨fun entry hentry path hpath => ?_, fun path h => by cases h⟩, fun path h => by cases h⟩
    rcases List.mem_cons.1 hentry with rfl | hentry
    · cases hpath
    · exact hs entry hentry path hpath
  | some d =>
    obtain ⟨c, hreset, hrun⟩ := Option.bind_eq_some_iff.1 hrun
    obtain ⟨⟨b, ring, t⟩, hloop, hrun⟩ := Option.bind_eq_some_iff.1 hrun
    obtain ⟨hstore, -, hsized, -⟩ := pathLoop_frame srcAddr d _ hloop
    have hring : ∀ path ∈ ring, path.toOlsrPath.Sized := hsized (by simp)
    cases hrun
    have hreturned : ∀ path, (if b then ring.head? else none) = some path → ring.head? = some path := by
      intro path h
      cases b with
      | true => exact h
      | false => cases h
    refine ⟨hstore, fun hs => ⟨fun entry hentry path hpath => ?_, fun path h => ?_⟩, fun path h => ?_⟩
    · rcases List.mem_cons.1 hentry with rfl | hentry
      · exact hring path hpath
      · exact hs entry hentry path hpath
    · exact hring path (List.mem_of_mem_head? (hreturned path h))
    · obtain ⟨c₁, hdij, hhops⟩ := pathLoop_head hloop (hreturned path h)
      have hdij : dijkstra s.store srcAddr c = some c₁ := hdij
      rw [Daemon.hopsTo, hfound]
      simp [hreset, hdij, hhops]

/-! ### The lookup -/

/-- A lookup fails for an address without a main address; otherwise the ring of the main addresses decides. -/
theorem lookup_cases {s t : Daemon ws} {x y : ip_v4_addr ws} {found : Lookup ws} (hrun : s.lookup x y = some (found, t)) :
    (found = .failed ∧ t = s ∧ (mainAddrOf s.store x = none ∨ mainAddrOf s.store y = none)) ∨
      ∃ a b, mainAddrOf s.store x = some a ∧ mainAddrOf s.store y = some b ∧ (found, t) = s.answer a b := by
  obtain ⟨src, hsrc, hrun⟩ := Option.bind_eq_some_iff.1 hrun
  cases src with
  | none =>
    cases hrun
    exact Or.inl ⟨rfl, rfl, Or.inl (by rw [mainAddrOf, hsrc]; rfl)⟩
  | some n =>
    obtain ⟨a, ha, hrun⟩ := Option.bind_eq_some_iff.1 hrun
    have hmain : mainAddrOf s.store x = some a := by
      rw [mainAddrOf, hsrc]
      exact ha
    obtain ⟨dst, hdst, hrun⟩ := Option.bind_eq_some_iff.1 hrun
    cases dst with
    | none =>
      cases hrun
      exact Or.inl ⟨rfl, rfl, Or.inr (by rw [mainAddrOf, hdst]; rfl)⟩
    | some m =>
      obtain ⟨b, hb, hrun⟩ := Option.bind_eq_some_iff.1 hrun
      refine Or.inr ⟨a, b, hmain, by rw [mainAddrOf, hdst]; exact hb, ?_⟩
      rw [Daemon.answer, Daemon.ring]
      cases hfind : s.g_path_buffer.find? fun entry => entry.isFor a b with
      | none =>
        simp only [hfind] at hrun
        cases hrun
        rfl
      | some entry =>
        simp only [hfind] at hrun
        obtain ⟨entrySrc, entryDst, paths⟩ := entry
        cases paths <;> cases hrun <;> rfl

/-- A lookup turns a ring of the path cache at most. -/
theorem Daemon.lookup_store {s : Daemon ws} {x y : ip_v4_addr ws} {r : Lookup ws × Daemon ws}
    (hrun : s.lookup x y = some r) : r.2.store = s.store := by
  rcases lookup_cases hrun with ⟨-, ht, -⟩ | ⟨a, b, -, -, hanswer⟩
  · rw [ht]
  · have hanswer : r = s.answer a b := hanswer
    rw [hanswer, Daemon.answer]
    split <;> rfl

theorem lookup_of_mains {s : Daemon ws} {x y a b : ip_v4_addr ws} (hx : mainAddrOf s.store x = some a)
    (hy : mainAddrOf s.store y = some b) : s.lookup x y = some (s.answer a b) := by
  obtain ⟨n, hn, ha⟩ := Option.bind_eq_some_iff.1 hx
  obtain ⟨m, hm, hb⟩ := Option.bind_eq_some_iff.1 hy
  rw [Daemon.lookup, Option.join_eq_some_iff.1 hn, Option.bind_eq_bind, Option.bind_some]
  simp only [ha, Option.join_eq_some_iff.1 hm, hb, Option.bind_eq_bind, Option.bind_some, Daemon.answer, Daemon.ring]
  cases hfind : s.g_path_buffer.find? fun entry => entry.isFor a b with
  | none => rfl
  | some entry =>
    obtain ⟨entrySrc, entryDst, paths⟩ := entry
    cases paths <;> rfl

theorem mem_nextPathFor {a b : ip_v4_addr ws} {buffers : List (PathBuffer ws)} {entry : PathBuffer ws}
    (hentry : entry ∈ nextPathFor a b buffers) {path : PathBlock} (hpath : path ∈ entry.lst_path) :
    ∃ entry' ∈ buffers, path ∈ entry'.lst_path ∧ entry'.src_addr_ip = entry.src_addr_ip ∧
      entry'.dst_addr_ip = entry.dst_addr_ip := by
  induction buffers with
  | nil => exact (List.not_mem_nil hentry).elim
  | cons e buffers ih =>
    rw [nextPathFor] at hentry
    split at hentry
    · rcases List.mem_cons.1 hentry with rfl | hentry
      · refine ⟨e, List.mem_cons_self, ?_, rfl, rfl⟩
        have hpath : path ∈ nextPath e.lst_path := hpath
        cases hlst : e.lst_path with
        | nil =>
          rw [hlst] at hpath
          cases hpath
        | cons p ps =>
          rw [hlst, nextPath] at hpath
          simpa [or_comm] using hpath
      · exact ⟨entry, List.mem_cons_of_mem _ hentry, hpath, rfl, rfl⟩
    · rcases List.mem_cons.1 hentry with rfl | hentry
      · exact ⟨entry, List.mem_cons_self, hpath, rfl, rfl⟩
      · obtain ⟨e', he', hmem⟩ := ih hentry
        exact ⟨e', List.mem_cons_of_mem _ he', hmem⟩

theorem mem_ring {s : Daemon ws} {a b : ip_v4_addr ws} {ring : List PathBlock} (hring : s.ring a b = some ring) :
    ∃ entry ∈ s.g_path_buffer, entry.lst_path = ring := by
  obtain ⟨entry, hfind, rfl⟩ := Option.map_eq_some_iff.1 hring
  exact ⟨entry, List.mem_of_find?_eq_some hfind, rfl⟩

/-- The selected path is the one in turn. -/
theorem select_inTurn {s s' : Daemon ws} {x y : ip_v4_addr ws} {sel : Option (Selection ws)}
    (hrun : s.select x y = some (sel, s')) : s'.store = s.store ∧
      (s.Sized → s'.Sized ∧ ∀ p, sel = some p → p.path.toOlsrPath.Sized) ∧
      (sel.map fun p => (p.src_local, p.path.path_hops)) = s.inTurn x y := by
  obtain ⟨⟨found, t⟩, hlook, hfound⟩ := Option.bind_eq_some_iff.1 hrun
  clear hrun
  rcases lookup_cases hlook with ⟨rfl, rfl, hnone⟩ | ⟨a, b, hx, hy, hanswer⟩
  · cases hfound
    refine ⟨rfl, fun hs => ⟨hs, fun p h => by cases h⟩, ?_⟩
    rw [Daemon.inTurn]
    rcases hnone with hx | hy
    · simp [hx]
    · simp [hy]
  · have hturn : s.inTurn x y =
        (s.hopsInTurn a b).map fun n => (decide (a = s.store.g_local_addr_tab 0), n) := by
      rw [Daemon.inTurn, hx, hy]
      cases h : s.hopsInTurn a b <;> simp [h]
    rw [hturn, Daemon.hopsInTurn]
    rw [Daemon.answer] at hanswer
    cases hring : s.ring a b with
    | none =>
      simp only [hring] at hanswer
      cases hanswer
      obtain ⟨⟨path, t⟩, hk, hsel⟩ := Option.map_eq_some_iff.1 hfound
      cases hsel
      obtain ⟨hstore, hsized, hhops⟩ := tc_k_dijstra_frame hk
      refine ⟨hstore, fun hs => ⟨(hsized hs).1, fun p hp => ?_⟩, ?_⟩
      · obtain ⟨q, hq, rfl⟩ := Option.map_eq_some_iff.1 hp
        exact (hsized hs).2 q hq
      · cases path with
        | none => simp [Daemon.reports, hk]
        | some path => simp [Daemon.reports, hk, hhops path rfl]
    | some ring =>
      cases ring with
      | nil =>
        simp only [hring] at hanswer
        cases hanswer
        cases hfound
        exact ⟨rfl, fun hs => ⟨hs, fun p h => by cases h⟩, rfl⟩
      | cons path ring =>
        simp only [hring] at hanswer
        cases hanswer
        cases hfound
        refine ⟨rfl, fun hs => ⟨fun entry hentry q hq => ?_, fun p hp => ?_⟩, rfl⟩
        · obtain ⟨entry', hentry', hmem, -⟩ := mem_nextPathFor hentry hq
          exact hs entry' hentry' q hmem
        · cases hp
          obtain ⟨entry, hentry, hpaths⟩ := mem_ring hring
          exact hs entry hentry path (hpaths ▸ List.mem_cons_self)

/-- If there is a path in turn, the lookup selects it. -/
theorem select_isSome {s : Daemon ws} {x y : ip_v4_addr ws} {v : Bool × ℕ} (hv : s.inTurn x y = some v) :
    (s.select x y).isSome := by
  obtain ⟨a, hx, hv⟩ := Option.bind_eq_some_iff.1 hv
  obtain ⟨b, hy, hv⟩ := Option.bind_eq_some_iff.1 hv
  obtain ⟨n, hn, -⟩ := Option.bind_eq_some_iff.1 hv
  rw [Daemon.select, lookup_of_mains hx hy, Option.bind_eq_bind, Option.bind_some, Daemon.answer]
  rw [Daemon.hopsInTurn] at hn
  cases hring : s.ring a b with
  | none =>
    simp only [hring] at hn
    split at hn
    · next hreports =>
      show (s.compute a b _).isSome
      rw [Daemon.compute, Option.isSome_map]
      exact Option.isSome_of_any hreports
    · cases hn
  | some ring =>
    cases ring with
    | nil => rfl
    | cons path ring => rfl

/-- Where an `unsigned long` has the size of an address, the selection returns. -/
theorem select_total (s : Daemon .ilp32) {g : Shape .ilp32} (hr : Rep s.store g) (x y : ip_v4_addr .ilp32) :
    (s.select x y).isSome := by
  rw [Daemon.select, lookup_spec hr, Option.bind_eq_bind, Option.bind_some]
  cases mainAddrOf s.store x with
  | none => rfl
  | some a =>
    cases mainAddrOf s.store y with
    | none => rfl
    | some b =>
      simp only [Daemon.answer]
      cases s.ring a b with
      | none =>
        show (s.compute a b _).isSome
        rw [Daemon.compute, Option.isSome_map]
        exact tc_k_dijstra_total s hr a b
      | some ring => cases ring <;> rfl

end MpOlsr
