import MpOlsr.Paths.Compute

/-!
# The path cache

`pth_find_datagram_path` in the daemon: a lookup under the read lock (`Daemon.lookup`), and the computation of the
missing paths under the write lock (`Daemon.compute`).  A path that is found in the cache is moved to the end of its
ring.
-/

namespace MpOlsr

variable {ws : WordSize}

/-- The entry is for the paths between two main addresses. -/
def PathBuffer.isFor (entry : PathBuffer ws) (srcAddr dstAddr : ip_v4_addr ws) : Bool :=
  entry.src_addr_ip = srcAddr ∧ entry.dst_addr_ip = dstAddr

/-- `buffer->lst_path = path->next` -/
def nextPath : List PathBlock → List PathBlock
  | [] => []
  | path :: paths => paths ++ [path]

/-- Move on to the next path in the first entry for two addresses. -/
def nextPathFor (srcAddr dstAddr : ip_v4_addr ws) : List (PathBuffer ws) → List (PathBuffer ws)
  | [] => []
  | entry :: buffers =>
    if entry.isFor srcAddr dstAddr then { entry with lst_path := nextPath entry.lst_path } :: buffers
    else entry :: nextPathFor srcAddr dstAddr buffers

/-- A path that is passed to `pth_copy_path`. -/
structure Selection (ws : WordSize) where
  srcAddr : ip_v4_addr ws
  dstAddr : ip_v4_addr ws
  src_local : Bool
  path : PathBlock

/-- The outcome of the lookup: nothing to be found, a path in the cache, or paths to be computed. -/
inductive Lookup (ws : WordSize) where
  | failed
  | cached (selection : Selection ws)
  | missing (srcAddr dstAddr : ip_v4_addr ws) (src_local : Bool)

namespace Daemon

variable (s : Daemon ws)

/-- The part of `pth_find_datagram_path` under the read lock. -/
def lookup (srcAddr_req dstAddr_req : ip_v4_addr ws) : Option (Lookup ws × Daemon ws) := do
  let src ← tc_get_node s.store srcAddr_req
  match src with
  | none => return (.failed, s)
  | some src_node =>
    let srcAddr ← mainAddrIp s.store src_node
    let src_local := decide (srcAddr = s.store.g_local_addr_tab 0)
    let dst ← tc_get_node s.store dstAddr_req
    match dst with
    | none => return (.failed, s)
    | some dst_node =>
      let dstAddr ← mainAddrIp s.store dst_node
      match s.g_path_buffer.find? fun entry => entry.isFor srcAddr dstAddr with
      | none => return (.missing srcAddr dstAddr src_local, s)
      | some entry =>
        match entry.lst_path with
        | [] => return (.failed, s)
        | path :: _ =>
          return (.cached ⟨srcAddr, dstAddr, src_local, path⟩,
            { s with g_path_buffer := nextPathFor srcAddr dstAddr s.g_path_buffer })

/-- The part of `pth_find_datagram_path` under the write lock. -/
def compute (srcAddr dstAddr : ip_v4_addr ws) (src_local : Bool) : Option (Option (Selection ws) × Daemon ws) :=
  (tc_k_dijstra s srcAddr dstAddr).map fun r => (r.1.map fun path => ⟨srcAddr, dstAddr, src_local, path⟩, r.2)

/-- The path that `pth_find_datagram_path` selects. -/
def select (srcAddr_req dstAddr_req : ip_v4_addr ws) : Option (Option (Selection ws) × Daemon ws) := do
  let (found, s) ← s.lookup srcAddr_req dstAddr_req
  match found with
  | .failed => return (none, s)
  | .cached selection => return (some selection, s)
  | .missing srcAddr dstAddr src_local => s.compute srcAddr dstAddr src_local

/-- What `pth_copy_path` reads of the daemon. -/
def node : Node ws where
  local_addr := s.store.g_local_addr_tab 0
  g_local_links := s.store.g_local_links.map LocalLinkEntry.toLocalLink
  find_path := fun _ _ => none

/-- Lay out the selected path, if there is one. -/
def copySelection (path_data : List Byte) (size : ℕ) (nextHop : ip_v4_addr ws) (header : SerHeader ws) :
    Option (Selection ws) → Option (PathResult ws)
  | none => some { ret := -1, path_data := path_data, size := size, nextHop := nextHop }
  | some selection => pth_copy_path s.node selection.path.toOlsrPath path_data nextHop selection.src_local header

def pth_find_datagram_path (path_data : List Byte) (size : ℕ) (srcAddr_req dstAddr_req nextHop : ip_v4_addr ws)
    (header : SerHeader ws) : Option (PathResult ws × Daemon ws) := do
  let (selection, s) ← s.select srcAddr_req dstAddr_req
  let result ← s.copySelection path_data size nextHop header selection
  return (result, s)

/-- Lookups one after the other: the selected paths. -/
def selections (s : Daemon ws) : List (ip_v4_addr ws × ip_v4_addr ws) → Option (List (Selection ws) × Daemon ws)
  | [] => some ([], s)
  | r :: rs => do
    let (selection, s) ← s.select r.1 r.2
    let (others, s) ← s.selections rs
    return (selection.toList ++ others, s)

end Daemon

end MpOlsr
