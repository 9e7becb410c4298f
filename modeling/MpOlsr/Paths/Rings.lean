import MpOlsr.Lib.Fault
import MpOlsr.Lib.Rings
import MpOlsr.Paths.Answers
import MpOlsr.Paths.Events

/-!
# The rings of the path cache

The path cache as it is in memory: the paths of an entry are cells of a ring, and `lst_path` is the one to be used next.
The functions are those of the daemon, with the rings as links in memory; `free_path_buffer` cuts and frees the rings
of all entries.  They never fault because of a ring, and agree with the daemon whose rings are lists.
-/

namespace MpOlsr

variable {ws : WordSize}

/-- `struct olsr_path_buffer`, with the paths computed for it. -/
structure CacheEntry (ws : WordSize) where
  src_addr_ip : ip_v4_addr ws
  dst_addr_ip : ip_v4_addr ws
  lst_path : Option Ptr
  /-- the blocks of the paths, in the order of their computation -/
  computed : List Ptr

/-- The data of the daemon, with the blocks of the paths in memory. -/
structure PathDaemon (ws : WordSize) where
  store : Store ws
  scratch : Scratch ws
  g_path_buffer : List (CacheEntry ws)
  /-- the blocks `struct olsr_path` -/
  paths : Ring.Cells Ptr OlsrPath
  path_brk : Ptr
  conf : Conf

/-- Free the paths of all entries: the blocks freed, in this order.  A loop takes at most as many steps as blocks were
allocated. -/
def free_path_buffer (n : ℕ) (paths : Ring.Cells Ptr OlsrPath) (buff : List (CacheEntry ws)) :
    Option (Ring.Cells Ptr OlsrPath × List Ptr) :=
  buff.foldlM (fun s curr => Ring.release n s curr.lst_path) (paths, [])

/-- The entry is for the paths between two main addresses. -/
def CacheEntry.isFor (buffer : CacheEntry ws) (srcAddr dstAddr : ip_v4_addr ws) : Bool :=
  buffer.src_addr_ip = srcAddr ∧ buffer.dst_addr_ip = dstAddr

/-- Set the path to be used next in the first entry for two addresses. -/
def setLstPath (srcAddr dstAddr : ip_v4_addr ws) (lst_path : Option Ptr) : List (CacheEntry ws) → List (CacheEntry ws)
  | [] => []
  | buffer :: buffers =>
    if buffer.isFor srcAddr dstAddr then { buffer with lst_path := lst_path } :: buffers
    else buffer :: setLstPath srcAddr dstAddr lst_path buffers

namespace PathDaemon

variable (s : PathDaemon ws)

def init (conf : Conf) : PathDaemon ws where
  store := tc_init_data
  scratch := .zero
  g_path_buffer := []
  paths := fun _ => none
  path_brk := 0
  conf := conf

/-- A block as it is handed out. -/
def block (path : Ptr) : Option PathBlock := (s.paths path).map fun cell => { cell.data with name := path }

/-- Allocate a block for a path. -/
def allocPath (path : OlsrPath) : PathDaemon ws :=
  { s with paths := Function.update s.paths s.path_brk (some ⟨path, none⟩), path_brk := s.path_brk + 1 }

/-- The loop that computes `k` paths for the new entry; with the first path, unless the destination is not reached. -/
def pathLoop (srcAddr : ip_v4_addr ws) (dst_node : Ptr) : ℕ → Option Ptr → CacheEntry ws → PathDaemon ws →
    Option (Option Ptr × CacheEntry ws × PathDaemon ws)
  | 0, first, path_buffer, s => some (first, path_buffer, s)
  | k + 1, first, path_buffer, s => do
    let c ← dijkstra s.store srcAddr s.scratch
    if c.dijkstra_cost dst_node = ULONG_MAX then return (none, path_buffer, { s with scratch := c })
    else
      let (data, c) ← retrievePath s.store s.conf dst_node c
      let path := s.path_brk
      let s := { s with scratch := c }.allocPath data
      let (paths, lst_path) ← Ring.insert s.paths path path_buffer.lst_path
      let first := if path_buffer.lst_path.isNone then some path else first
      pathLoop srcAddr dst_node k first
        { path_buffer with lst_path := lst_path, computed := path_buffer.computed ++ [path] } { s with paths := paths }

def tc_k_dijstra (srcAddr dstAddr : ip_v4_addr ws) : Option (Option Ptr × PathDaemon ws) := do
  let path_buffer : CacheEntry ws := ⟨srcAddr, dstAddr, none, []⟩
  let buffers := s.g_path_buffer
  let found ← tc_get_node s.store dstAddr
  match found with
  | none => return (none, { s with g_path_buffer := path_buffer :: buffers })
  | some dst_node =>
    let c ← forLinks s.store (resetCost s.store) s.scratch
    let (first, path_buffer, s) ←
      pathLoop srcAddr dst_node s.conf.g_conf_path.toNat none path_buffer { s with scratch := c }
    return (first, { s with g_path_buffer := path_buffer :: buffers })

def lookup (srcAddr_req dstAddr_req : ip_v4_addr ws) : Option (Lookup ws × PathDaemon ws) := do
  let src ← tc_get_node s.store srcAddr_req
  match src with
  | none => return (.failed, s)
  | some src_node =>
    let srcAddr ← mainAddrIp s.store src_node
    let src_local := decide (srcAddr = s.store.g_local_addr_tab 0)
    let dst ← tc_get_node s.store dstAddr_req
    match dst with
    | none => return (.failed, s)
    | some dst_node =>
      let dstAddr ← mainAddrIp s.store dst_node
      match s.g_path_buffer.find? fun buffer => buffer.isFor srcAddr dstAddr with
      | none => return (.missing srcAddr dstAddr src_local, s)
      | some buffer =>
        match buffer.lst_path with
        | none => return (.failed, s)
        | some path =>
          let next ← Ring.getNext s.paths path
          let block ← s.block path
          return (.cached ⟨srcAddr, dstAddr, src_local, block⟩,
            { s with g_path_buffer := setLstPath srcAddr dstAddr next s.g_path_buffer })

def compute (srcAddr dstAddr : ip_v4_addr ws) (src_local : Bool) : Option (Option (Selection ws) × PathDaemon ws) := do
  let (path, s) ← s.tc_k_dijstra srcAddr dstAddr
  match path with
  | none => return (none, s)
  | some path =>
    let block ← s.block path
    return (some ⟨srcAddr, dstAddr, src_local, block⟩, s)

def handleRead (m : OlsrEventMessage ws) : Option (PathDaemon ws) := do
  let h ← MpOlsr.handleRead s.store m
  let (paths, _) ← if flushes s.store m then free_path_buffer s.path_brk s.paths s.g_path_buffer else some (s.paths, [])
  return { s with
    store := h
    scratch := s.scratch.clearFrom s.store.brk
    g_path_buffer := if flushes s.store m then [] else s.g_path_buffer
    paths := paths }

def step (s : PathDaemon ws) : DaemonEvent ws → Option (PathDaemon ws)
  | .handleRead m => s.handleRead m
  | .lookup x y => (s.lookup x y).map Prod.snd
  | .compute srcAddr dstAddr src_local => (s.compute srcAddr dstAddr src_local).map Prod.snd

end PathDaemon

/-! ### The daemon whose rings are lists -/

/-- The entry has the ring, and it consists of the paths computed for it. -/
structure EntryRefines (paths : Ring.Cells Ptr OlsrPath) (entry : PathBuffer ws) (buffer : CacheEntry ws) : Prop where
  src_eq : buffer.src_addr_ip = entry.src_addr_ip
  dst_eq : buffer.dst_addr_ip = entry.dst_addr_ip
  ring : Ring.IsRing paths buffer.lst_path (entry.lst_path.map PathBlock.name)
  computed : (entry.lst_path.map PathBlock.name).Perm buffer.computed
  data : ∀ path ∈ entry.lst_path, (paths path.name).map Ring.Cell.data = some path.toOlsrPath

/-- The blocks of the paths of all entries. -/
def blocksOf (buffers : List (PathBuffer ws)) : List Ptr :=
  buffers.flatMap fun entry => entry.lst_path.map PathBlock.name

/-- The blocks in memory are those of the rings, and no block is on two of them. -/
structure Refines (s : Daemon ws) (t : PathDaemon ws) : Prop where
  store_eq : t.store = s.store
  scratch_eq : t.scratch = s.scratch
  conf_eq : t.conf = s.conf
  brk_eq : t.path_brk = s.path_brk
  entries : List.Forall₂ (EntryRefines t.paths) s.g_path_buffer t.g_path_buffer
  nodup : (blocksOf s.g_path_buffer).Nodup
  live : ∀ p, (t.paths p).isSome ↔ p ∈ blocksOf s.g_path_buffer
  bound : ∀ p ∈ blocksOf s.g_path_buffer, p < s.path_brk

variable {s : Daemon ws} {t : PathDaemon ws} {entry : PathBuffer ws} {buffer : CacheEntry ws}
  {entries : List (PathBuffer ws)} {buffers : List (CacheEntry ws)} {paths paths' : Ring.Cells Ptr OlsrPath}

theorem EntryRefines.congr (h : EntryRefines paths entry buffer)
    (hpaths : ∀ p ∈ entry.lst_path.map PathBlock.name, paths' p = paths p) : EntryRefines paths' entry buffer where
  src_eq := h.src_eq
  dst_eq := h.dst_eq
  ring := h.ring.congr hpaths
  computed := h.computed
  data path hpath := by
    rw [hpaths _ (List.mem_map_of_mem hpath)]
    exact h.data path hpath

theorem mem_blocksOf {p : Ptr} (hentry : entry ∈ entries) (hp : p ∈ entry.lst_path.map PathBlock.name) :
    p ∈ blocksOf entries := List.mem_flatMap.2 ⟨entry, hentry, hp⟩

theorem entries_congr (h : List.Forall₂ (EntryRefines paths) entries buffers)
    (hpaths : ∀ p ∈ blocksOf entries, paths' p = paths p) : List.Forall₂ (EntryRefines paths') entries buffers := by
  induction h with
  | nil => exact .nil
  | cons hentry _ ih =>
    refine .cons (hentry.congr fun p hp => ?_) (ih fun p hp => ?_)
    · exact hpaths p (List.mem_append_left _ hp)
    · exact hpaths p (List.mem_append_right _ hp)

theorem refines_init (conf : Conf) : Refines (Daemon.init conf : Daemon ws) (PathDaemon.init conf) where
  store_eq := rfl
  scratch_eq := rfl
  conf_eq := rfl
  brk_eq := rfl
  entries := .nil
  nodup := List.nodup_nil
  live p := by simp [PathDaemon.init, Daemon.init, blocksOf]
  bound := nofun

/-! ### Release -/

/-- The rings of all entries are cut and freed, every block once. -/
theorem free_entries (h : List.Forall₂ (EntryRefines paths) entries buffers) (hnodup : (blocksOf entries).Nodup)
    {n : ℕ} (hn : (blocksOf entries).length ≤ n) (freed : List Ptr) :
    buffers.foldlM (fun s curr => Ring.release n s curr.lst_path) (paths, freed) =
      some (fun p => if p ∈ blocksOf entries then none else paths p, freed ++ blocksOf entries) := by
  induction entries generalizing buffers paths freed with
  | nil =>
    cases h
    simp [blocksOf]
  | cons entry entries ih =>
    cases h with
    | @cons _ buffer _ buffers hentry hrest =>
      let ring := entry.lst_path.map PathBlock.name
      have hsplit : blocksOf (entry :: entries) = ring ++ blocksOf entries := List.flatMap_cons
      rw [hsplit, List.nodup_append] at hnodup
      rw [hsplit, List.length_append] at hn
      have hrelease := hentry.ring.release (Nat.le_trans (Nat.le_add_right _ _) hn) freed
      have hrest' : List.Forall₂ (EntryRefines fun p => if p ∈ ring then none else paths p) entries buffers := by
        refine entries_congr hrest fun p hp => if_neg ?_
        exact fun hring => hnodup.2.2 p hring p hp rfl
      rw [List.foldlM_cons, hrelease, Option.bind_eq_bind, Option.bind_some,
        ih hrest' hnodup.2.1 (by omega) (freed ++ ring), hsplit, List.append_assoc]
      congr 2
      funext p
      by_cases hp : p ∈ blocksOf entries
      · rw [if_pos hp, if_pos (List.mem_append_right _ hp)]
      · rw [if_neg hp]
        simp [hp]

theorem Refines.length_le (h : Refines s t) : (blocksOf s.g_path_buffer).length ≤ t.path_brk := by
  have hsub : blocksOf s.g_path_buffer ⊆ List.range t.path_brk := fun p hp =>
    List.mem_range.2 (h.brk_eq ▸ h.bound p hp)
  simpa using (h.nodup.subperm hsub).length_le

/-- The path cache is freed to the last block. -/
theorem Refines.free_path_buffer (h : Refines s t) :
    MpOlsr.free_path_buffer t.path_brk t.paths t.g_path_buffer = some (fun _ => none, blocksOf s.g_path_buffer) := by
  rw [MpOlsr.free_path_buffer, free_entries h.entries h.nodup h.length_le, List.nil_append]
  congr 2
  funext p
  by_cases hp : p ∈ blocksOf s.g_path_buffer
  · rw [if_pos hp]
  · rw [if_neg hp]
    exact Option.not_isSome_iff_eq_none.1 fun hlive => hp ((h.live p).1 hlive)

theorem Refines.handleRead (h : Refines s t) (m : OlsrEventMessage ws) :
    Option.Rel Refines (s.handleRead m) (t.handleRead m) := by
  rw [Daemon.handleRead, PathDaemon.handleRead, h.store_eq]
  cases hread : MpOlsr.handleRead s.store m with
  | none => exact .none
  | some store =>
    cases hflush : flushes s.store m with
    | true =>
      rw [h.free_path_buffer]
      refine .some ⟨rfl, by simp [h.scratch_eq], h.conf_eq, h.brk_eq, .nil, List.nodup_nil, fun p => ?_, nofun⟩
      simp [blocksOf]
    | false =>
      refine .some ⟨rfl, by simp [h.scratch_eq], h.conf_eq, h.brk_eq, ?_, ?_, ?_, ?_⟩
      · exact h.entries
      · exact h.nodup
      · exact h.live
      · exact h.bound

/-! ### Rotation -/

theorem blocksOf_nextPathFor (srcAddr dstAddr : ip_v4_addr ws) (entries : List (PathBuffer ws)) :
    (blocksOf (nextPathFor srcAddr dstAddr entries)).Perm (blocksOf entries) := by
  induction entries with
  | nil => exact .refl _
  | cons entry entries ih =>
    rw [nextPathFor]
    split
    · refine List.Perm.append_right _ ?_
      refine List.Perm.map _ ?_
      cases entry.lst_path with
      | nil => exact .refl _
      | cons path paths => exact List.perm_append_singleton path paths
    · exact List.Perm.append_left _ ih

theorem EntryRefines.isFor_eq (h : EntryRefines paths entry buffer) (srcAddr dstAddr : ip_v4_addr ws) :
    buffer.isFor srcAddr dstAddr = entry.isFor srcAddr dstAddr := by
  rw [CacheEntry.isFor, PathBuffer.isFor, h.src_eq, h.dst_eq]

/-- The entry with the next path of its ring. -/
theorem EntryRefines.rotate (h : EntryRefines paths entry buffer) {path : PathBlock} {rest : List PathBlock}
    (hring : entry.lst_path = path :: rest) : ∃ next, Ring.getNext paths path.name = some next ∧
      EntryRefines paths { entry with lst_path := nextPath entry.lst_path } { buffer with lst_path := next } := by
  have hisRing := h.ring
  have hcomputed := h.computed
  rw [hring, List.map_cons] at hisRing hcomputed
  obtain ⟨next, hnext, hrotate⟩ := hisRing.rotate
  have hmap : (nextPath entry.lst_path).map PathBlock.name = rest.map PathBlock.name ++ [path.name] := by
    simp [hring, nextPath]
  refine ⟨next, hnext, h.src_eq, h.dst_eq, hmap ▸ hrotate, ?_, ?_⟩
  · rw [hmap]
    exact (List.perm_append_singleton _ _).trans hcomputed
  · intro path' hpath'
    refine h.data path' ?_
    rw [hring] at hpath' ⊢
    exact (List.perm_append_singleton path rest).mem_iff.1 hpath'

/-- The first entries for two addresses correspond. -/
theorem find_refines (h : List.Forall₂ (EntryRefines paths) entries buffers) (srcAddr dstAddr : ip_v4_addr ws) :
    Option.Rel (EntryRefines paths) (entries.find? fun entry => entry.isFor srcAddr dstAddr)
      (buffers.find? fun buffer => buffer.isFor srcAddr dstAddr) := by
  induction h with
  | nil => exact .none
  | @cons entry buffer _ _ hentry _ ih =>
    rw [List.find?_cons, List.find?_cons, hentry.isFor_eq]
    cases entry.isFor srcAddr dstAddr with
    | true => exact .some hentry
    | false => exact ih

theorem setLstPath_refines (h : List.Forall₂ (EntryRefines paths) entries buffers) {srcAddr dstAddr : ip_v4_addr ws}
    (hfind : entries.find? (fun entry => entry.isFor srcAddr dstAddr) = some entry) {path : PathBlock}
    {rest : List PathBlock} (hring : entry.lst_path = path :: rest) {next : Option Ptr}
    (hnext : Ring.getNext paths path.name = some next) :
    List.Forall₂ (EntryRefines paths) (nextPathFor srcAddr dstAddr entries)
      (setLstPath srcAddr dstAddr next buffers) := by
  induction h with
  | nil => exact .nil
  | @cons entry' buffer' _ _ hentry hrest ih =>
    rw [nextPathFor, setLstPath, hentry.isFor_eq]
    rw [List.find?_cons] at hfind
    cases hfor : entry'.isFor srcAddr dstAddr with
    | true =>
      rw [hfor] at hfind
      cases hfind
      obtain ⟨next', hnext', hrotate⟩ := hentry.rotate hring
      obtain rfl : next' = next := Option.some.inj (hnext'.symm.trans hnext)
      exact .cons hrotate hrest
    | false =>
      rw [hfor] at hfind
      exact .cons hentry (ih hfind)

/-- The entry for two addresses has the next path of its ring. -/
theorem Refines.setLstPath (h : Refines s t) {srcAddr dstAddr : ip_v4_addr ws}
    (hfind : s.g_path_buffer.find? (fun entry => entry.isFor srcAddr dstAddr) = some entry) {path : PathBlock}
    {rest : List PathBlock} (hring : entry.lst_path = path :: rest) {next : Option Ptr}
    (hnext : Ring.getNext t.paths path.name = some next) :
    Refines { s with g_path_buffer := nextPathFor srcAddr dstAddr s.g_path_buffer }
      { t with g_path_buffer := MpOlsr.setLstPath srcAddr dstAddr next t.g_path_buffer } := by
  have hperm := blocksOf_nextPathFor srcAddr dstAddr s.g_path_buffer
  refine ⟨h.store_eq, h.scratch_eq, h.conf_eq, h.brk_eq, setLstPath_refines h.entries hfind hring hnext, ?_, ?_, ?_⟩
  · exact hperm.nodup_iff.2 h.nodup
  · exact fun p => (h.live p).trans hperm.mem_iff.symm
  · exact fun p hp => h.bound p (hperm.mem_iff.1 hp)

/-- The lookups have the same outcome. -/
theorem Refines.lookup (h : Refines s t) (x y : ip_v4_addr ws) :
    Option.Rel (fun r r' => r'.1 = r.1 ∧ Refines r.2 r'.2) (s.lookup x y) (t.lookup x y) := by
  obtain ⟨store, scratch, g_path_buffer, paths, path_brk, conf⟩ := t
  obtain rfl : store = s.store := h.store_eq
  rw [Daemon.lookup, PathDaemon.lookup]
  refine Fault.rel_bind_same fun src _ => ?_
  cases src with
  | none => exact .some ⟨rfl, h⟩
  | some src_node =>
    refine Fault.rel_bind_same fun srcAddr _ => Fault.rel_bind_same fun dst _ => ?_
    cases dst with
    | none => exact .some ⟨rfl, h⟩
    | some dst_node =>
      refine Fault.rel_bind_same fun dstAddr _ => ?_
      have hfind := find_refines h.entries srcAddr dstAddr
      cases hentry : s.g_path_buffer.find? fun entry => entry.isFor srcAddr dstAddr with
      | none =>
        rw [hentry] at hfind
        cases hbuffer : g_path_buffer.find? fun buffer => buffer.isFor srcAddr dstAddr with
        | none => exact .some ⟨rfl, h⟩
        | some buffer => rw [hbuffer] at hfind; cases hfind
      | some entry =>
        rw [hentry] at hfind
        cases hbuffer : g_path_buffer.find? fun buffer => buffer.isFor srcAddr dstAddr with
        | none => rw [hbuffer] at hfind; cases hfind
        | some buffer =>
          rw [hbuffer] at hfind
          obtain ⟨hrefines⟩ := hfind
          have hfirst := hrefines.ring.first_eq
          cases hring : entry.lst_path with
          | nil =>
            rw [hring] at hfirst
            simp only [hring, hfirst]
            exact .some ⟨rfl, h⟩
          | cons path rest =>
            rw [hring] at hfirst
            obtain ⟨next, hnext, -⟩ := hrefines.rotate hring
            have hblock : PathDaemon.block ⟨s.store, scratch, g_path_buffer, paths, path_brk, conf⟩ path.name = some path := by
              obtain ⟨cell, hcell, hdata⟩ := Option.map_eq_some_iff.1 (hrefines.data path (by simp [hring]))
              rw [PathDaemon.block, hcell, Option.map_some, hdata]
            simp only [hring, hfirst, List.map_cons, List.head?_cons, hnext, hblock, Option.bind_eq_bind,
              Option.bind_some]
            exact .some ⟨rfl, h.setLstPath hentry hring hnext⟩

/-! ### Computation -/

/-- The cache with one entry more. -/
def Daemon.withEntry (s : Daemon ws) (entry : PathBuffer ws) : Daemon ws :=
  { s with g_path_buffer := entry :: s.g_path_buffer }

def PathDaemon.withEntry (t : PathDaemon ws) (buffer : CacheEntry ws) : PathDaemon ws :=
  { t with g_path_buffer := buffer :: t.g_path_buffer }

variable {srcAddr dstAddr : ip_v4_addr ws} {ring : List PathBlock}

theorem blocksOf_insertPath (block : PathBlock) (rest : List (PathBuffer ws)) :
    (blocksOf (⟨srcAddr, dstAddr, insertPath block ring⟩ :: rest)).Perm
      (block.name :: blocksOf (⟨srcAddr, dstAddr, ring⟩ :: rest)) := by
  have hring : ((insertPath block ring).map PathBlock.name).Perm (block.name :: ring.map PathBlock.name) := by
    cases ring with
    | nil => exact .refl _
    | cons path ring => exact .swap _ _ _
  exact hring.append_right _

/-- A new path is in the ring of its entry, and the other rings are as before. -/
theorem Refines.insertPath (h : Refines (s.withEntry ⟨srcAddr, dstAddr, ring⟩) (t.withEntry buffer)) (data : OlsrPath)
    (c : Scratch ws) :
    ∃ paths lst_path, Ring.insert (Function.update t.paths t.path_brk (some ⟨data, none⟩)) t.path_brk buffer.lst_path =
        some (paths, lst_path) ∧
      Refines ({ s with scratch := c, path_brk := s.path_brk + 1 }.withEntry
          ⟨srcAddr, dstAddr, MpOlsr.insertPath { data with name := s.path_brk } ring⟩)
        ({ t with scratch := c, paths := paths, path_brk := t.path_brk + 1 }.withEntry
          { buffer with lst_path := lst_path, computed := buffer.computed ++ [t.path_brk] }) := by
  obtain ⟨hstore, -, hconf, hbrk, hentries, hnodup, hlive, hbound⟩ := h
  have hbrk : t.path_brk = s.path_brk := hbrk
  rw [hbrk]
  obtain ⟨hentry, hrest⟩ := List.forall₂_cons.1 hentries
  have hnew : s.path_brk ∉ blocksOf (s.withEntry ⟨srcAddr, dstAddr, ring⟩).g_path_buffer :=
    fun hmem => (hbound _ hmem).false
  have hframe₁ : ∀ p ∈ blocksOf (s.withEntry ⟨srcAddr, dstAddr, ring⟩).g_path_buffer,
      Function.update t.paths s.path_brk (some ⟨data, none⟩) p = t.paths p := by
    intro p hp
    refine Function.update_of_ne ?_ _ _
    rintro rfl
    exact hnew hp
  have hnewRing : s.path_brk ∉ ring.map PathBlock.name := fun hp => hnew (List.mem_append_left _ hp)
  have hring : Ring.IsRing (Function.update t.paths s.path_brk (some ⟨data, none⟩)) _ _ :=
    hentry.ring.congr fun p hp => hframe₁ p (List.mem_append_left _ hp)
  obtain ⟨paths, lst_path, hinsert, hring', hframe, hdata⟩ := hring.insert hnewRing (by simp)
  let block : PathBlock := { data with name := s.path_brk }
  have hperm := @blocksOf_insertPath ws srcAddr dstAddr ring block s.g_path_buffer
  have hnames : (MpOlsr.insertPath block ring).map PathBlock.name =
      Ring.insertSecond s.path_brk (ring.map PathBlock.name) := by
    cases ring <;> rfl
  refine ⟨paths, lst_path, hinsert, ⟨hstore, rfl, hconf, rfl, List.forall₂_cons.2 ⟨?_, ?_⟩, ?_, ?_, ?_⟩⟩
  · refine ⟨hentry.src_eq, hentry.dst_eq, hnames ▸ hring', ?_, ?_⟩
    · rw [hnames]
      refine (Ring.insertSecond_perm _ _).trans ((List.Perm.cons _ hentry.computed).trans ?_)
      exact (List.perm_append_singleton _ _).symm
    · intro path hpath
      refine (hdata _).trans ?_
      rcases mem_insertPath.1 hpath with rfl | hpath
      · rw [Function.update_self]
        rfl
      · rw [hframe₁ _ (List.mem_append_left _ (List.mem_map_of_mem hpath))]
        exact hentry.data path hpath
  · refine entries_congr hrest fun p hp => ?_
    have hp' : p ∈ blocksOf (s.withEntry ⟨srcAddr, dstAddr, ring⟩).g_path_buffer := List.mem_append_right _ hp
    refine (hframe p ?_ ?_).trans (hframe₁ p hp')
    · rintro rfl
      exact hnew hp'
    · exact fun hmem => (List.nodup_append.1 hnodup).2.2 p hmem p hp rfl
  · exact hperm.nodup_iff.2 (List.nodup_cons.2 ⟨hnew, hnodup⟩)
  · intro p
    have hsome : (paths p).isSome = (Function.update t.paths s.path_brk (some ⟨data, none⟩) p).isSome := by
      rw [← Option.isSome_map, hdata p, Option.isSome_map]
    refine Iff.trans ?_ hperm.mem_iff.symm
    show (paths p).isSome ↔ _
    rw [hsome, List.mem_cons]
    by_cases hp : p = s.path_brk
    · rw [hp, Function.update_self]
      exact iff_of_true rfl (Or.inl rfl)
    · rw [Function.update_of_ne hp]
      exact (hlive p).trans (or_iff_right hp).symm
  · intro p hp
    rcases List.mem_cons.1 (hperm.mem_iff.1 hp) with rfl | hp
    · exact Nat.lt_succ_self _
    · exact Nat.lt_succ_of_lt (hbound p hp)

/-- The first path of the new ring. -/
def firstName (ring : List PathBlock) : Option Ptr := ring.head?.map PathBlock.name

/-- The loops compute the same paths. -/
theorem Refines.pathLoop (d : Ptr) (k : ℕ)
    (h : Refines (s.withEntry ⟨srcAddr, dstAddr, ring⟩) (t.withEntry buffer)) :
    Option.Rel (fun r r' => r'.1 = (if r.1 then firstName r.2.1 else none) ∧
        Refines (r.2.2.withEntry ⟨srcAddr, dstAddr, r.2.1⟩) (r'.2.2.withEntry r'.2.1) ∧
        r.2.2.g_path_buffer = s.g_path_buffer ∧ r'.2.2.g_path_buffer = t.g_path_buffer)
      (MpOlsr.pathLoop srcAddr d k ring s) (PathDaemon.pathLoop srcAddr d k (firstName ring) buffer t) := by
  induction k generalizing ring s t buffer with
  | zero => exact .some ⟨rfl, h, rfl, rfl⟩
  | succ k ih =>
    obtain ⟨store, scratch, g_path_buffer, paths, path_brk, conf⟩ := t
    obtain rfl : store = s.store := h.store_eq
    obtain rfl : scratch = s.scratch := h.scratch_eq
    obtain rfl : conf = s.conf := h.conf_eq
    rw [MpOlsr.pathLoop, PathDaemon.pathLoop]
    refine Fault.rel_bind_same fun c _ => ?_
    dsimp only
    split
    · exact .some ⟨rfl, ⟨h.store_eq, rfl, h.conf_eq, h.brk_eq, h.entries, h.nodup, h.live, h.bound⟩, rfl, rfl⟩
    · refine Fault.rel_bind_same fun r _ => ?_
      obtain ⟨data, c'⟩ := r
      obtain ⟨paths', lst_path, hinsert, hrefines⟩ := h.insertPath data c'
      have hfirst : firstName (MpOlsr.insertPath { data with name := s.path_brk } ring) =
          if buffer.lst_path.isNone then some path_brk else firstName ring := by
        have hbrk : path_brk = s.path_brk := h.brk_eq
        rw [(List.forall₂_cons.1 h.entries).1.ring.first_eq, hbrk]
        cases ring <;> rfl
      dsimp only [PathDaemon.allocPath] at hinsert ⊢
      rw [hinsert]
      have hnext := ih hrefines
      rw [hfirst] at hnext
      exact hnext

/-- A new entry has no paths yet. -/
theorem Refines.newEntry (h : Refines s t) (srcAddr dstAddr : ip_v4_addr ws) (c : Scratch ws) :
    Refines ({ s with scratch := c }.withEntry ⟨srcAddr, dstAddr, []⟩)
      ({ t with scratch := c }.withEntry ⟨srcAddr, dstAddr, none, []⟩) where
  store_eq := h.store_eq
  scratch_eq := rfl
  conf_eq := h.conf_eq
  brk_eq := h.brk_eq
  entries := .cons ⟨rfl, rfl, Ring.isRing_nil, .refl _, nofun⟩ h.entries
  nodup := h.nodup
  live := h.live
  bound := h.bound

theorem Refines.tc_k_dijstra (h : Refines s t) (srcAddr dstAddr : ip_v4_addr ws) :
    Option.Rel (fun r r' => r'.1 = r.1.map PathBlock.name ∧ Refines r.2 r'.2 ∧
        ∀ path, r.1 = some path → r'.2.block path.name = some path)
      (MpOlsr.tc_k_dijstra s srcAddr dstAddr) (t.tc_k_dijstra srcAddr dstAddr) := by
  obtain ⟨store, scratch, g_path_buffer, paths, path_brk, conf⟩ := t
  obtain rfl : store = s.store := h.store_eq
  obtain rfl : scratch = s.scratch := h.scratch_eq
  obtain rfl : conf = s.conf := h.conf_eq
  rw [MpOlsr.tc_k_dijstra, PathDaemon.tc_k_dijstra]
  refine Fault.rel_bind_same fun found _ => ?_
  cases found with
  | none => exact .some ⟨rfl, h.newEntry srcAddr dstAddr s.scratch, fun _ hpath => by cases hpath⟩
  | some d =>
    refine Fault.rel_bind_same fun c _ => ?_
    refine Fault.rel_bind ((h.newEntry srcAddr dstAddr c).pathLoop d s.conf.g_conf_path.toNat) ?_
    rintro ⟨done, ring, s'⟩ ⟨first, buffer, t'⟩ ⟨hfirst, hrefines, hbuffers, hbuffers'⟩
    have hbuffers : s'.g_path_buffer = s.g_path_buffer := hbuffers
    have hbuffers' : t'.g_path_buffer = g_path_buffer := hbuffers'
    rw [Daemon.withEntry, PathDaemon.withEntry] at hrefines
    dsimp only at hrefines
    rw [hbuffers, hbuffers'] at hrefines
    refine .some ⟨?_, hrefines, ?_⟩
    · rw [hfirst]
      cases done <;> rfl
    · intro path hpath
      have hmem : path ∈ ring := by
        cases done with
        | true => exact List.mem_of_head? hpath
        | false => cases hpath
      obtain ⟨cell, hcell, hdata⟩ :=
        Option.map_eq_some_iff.1 ((List.forall₂_cons.1 hrefines.entries).1.data path hmem)
      show (t'.paths path.name).map _ = _
      have hcell : t'.paths path.name = some cell := hcell
      rw [hcell, Option.map_some, hdata]

theorem Refines.compute (h : Refines s t) (srcAddr dstAddr : ip_v4_addr ws) (src_local : Bool) :
    Option.Rel (fun r r' => r'.1 = r.1 ∧ Refines r.2 r'.2) (s.compute srcAddr dstAddr src_local)
      (t.compute srcAddr dstAddr src_local) := by
  rw [Daemon.compute, PathDaemon.compute, Option.map_eq_bind]
  refine Fault.rel_bind (h.tc_k_dijstra srcAddr dstAddr) ?_
  rintro ⟨path, s'⟩ ⟨name, t'⟩ ⟨hname, hrefines, hblock⟩
  obtain rfl : name = path.map PathBlock.name := hname
  cases path with
  | none => exact .some ⟨rfl, hrefines⟩
  | some path =>
    have hblock : t'.block path.name = some path := hblock path rfl
    simp only [Option.map_some, hblock, Option.bind_eq_bind, Option.bind_some]
    exact .some ⟨rfl, hrefines⟩

/-- Every section keeps the relation, and faults in both or in none. -/
theorem Refines.step (h : Refines s t) (event : DaemonEvent ws) :
    Option.Rel Refines (s.step event) (t.step event) := by
  cases event with
  | handleRead m => exact h.handleRead m
  | lookup x y =>
    rw [Daemon.step, PathDaemon.step, Option.map_eq_bind, Option.map_eq_bind]
    exact Fault.rel_bind (h.lookup x y) fun _ _ hr => .some hr.2
  | compute srcAddr dstAddr src_local =>
    rw [Daemon.step, PathDaemon.step, Option.map_eq_bind, Option.map_eq_bind]
    exact Fault.rel_bind (h.compute srcAddr dstAddr src_local) fun _ _ hr => .some hr.2

theorem run_refines (conf : Conf) (events : List (DaemonEvent ws)) :
    Option.Rel Refines (events.foldlM Daemon.step (Daemon.init conf))
      (events.foldlM PathDaemon.step (PathDaemon.init conf)) :=
  Fault.rel_foldlM (fun _ _ event h => h.step event) events (refines_init conf)

/-- Every entry has a ring that consists of the paths computed for it, or NULL if there are none, and no path is on two
rings. -/
structure RingsHold (t : PathDaemon ws) (rings : List (List Ptr)) : Prop where
  entries : List.Forall₂ (fun buffer ring => Ring.IsRing t.paths buffer.lst_path ring ∧ ring.Perm buffer.computed)
    t.g_path_buffer rings
  disjoint : rings.flatten.Nodup

theorem Refines.ringsHold (h : Refines s t) :
    RingsHold t (s.g_path_buffer.map fun entry => entry.lst_path.map PathBlock.name) where
  entries := by
    rw [List.forall₂_map_right_iff]
    exact h.entries.flip.imp fun _ _ hentry => ⟨hentry.ring, hentry.computed⟩
  disjoint := h.nodup

/-- In every run of commands, lookups and computations, the rings hold, and `free_path_buffer` ends and frees every path
of every entry once.  The rings are never the cause of a fault. -/
theorem rings_hold (conf : Conf) (events : List (DaemonEvent ws)) :
    ((events.foldlM PathDaemon.step (PathDaemon.init conf)).isSome =
      (events.foldlM Daemon.step (Daemon.init conf)).isSome) ∧
    ∀ t, events.foldlM PathDaemon.step (PathDaemon.init conf) = some t → ∃ rings, RingsHold t rings ∧
      free_path_buffer t.path_brk t.paths t.g_path_buffer = some (fun _ => none, rings.flatten) := by
  have hrun := run_refines conf events
  cases hs : events.foldlM Daemon.step (Daemon.init conf) with
  | none =>
    rw [hs] at hrun
    cases ht : events.foldlM PathDaemon.step (PathDaemon.init conf) with
    | none => exact ⟨rfl, nofun⟩
    | some t => rw [ht] at hrun; cases hrun
  | some s =>
    rw [hs] at hrun
    cases ht : events.foldlM PathDaemon.step (PathDaemon.init conf) with
    | none => rw [ht] at hrun; cases hrun
    | some t =>
      rw [ht] at hrun
      obtain ⟨hrefines⟩ := hrun
      refine ⟨rfl, ?_⟩
      rintro t' ⟨⟩
      exact ⟨_, hrefines.ringsHold, hrefines.free_path_buffer⟩

/-- Two paths along a line of three nodes, of which the second is the next to be used. -/
def lineLookups : List (DaemonEvent .ilp32) :=
  lineEvents.map .handleRead ++ [.lookup 1 3, .compute 1 3 true, .lookup 1 3]

theorem rings_hold_demo : ∃ t rings, lineLookups.foldlM PathDaemon.step (PathDaemon.init ⟨2, 2, 3⟩) = some t ∧
    RingsHold t rings ∧ free_path_buffer t.path_brk t.paths t.g_path_buffer = some (fun _ => none, rings.flatten) ∧
    t.g_path_buffer.map (fun buffer => (buffer.lst_path, buffer.computed)) = [(some 1, [0, 1])] := by
  have hrun : (lineLookups.foldlM PathDaemon.step (PathDaemon.init ⟨2, 2, 3⟩)).map
      (fun t => t.g_path_buffer.map fun buffer => (buffer.lst_path, buffer.computed)) = some [(some 1, [0, 1])] := by
    decide
  obtain ⟨t, ht, hbuffers⟩ := Option.map_eq_some_iff.1 hrun
  obtain ⟨rings, hrings, hfree⟩ := (rings_hold ⟨2, 2, 3⟩ lineLookups).2 t ht
  exact ⟨t, rings, ht, hrings, hfree, hbuffers⟩

end MpOlsr
