import MpOlsr.Paths.Cache

/-!
# The daemon under any interleaving

The sections of the daemon that take the lock: a command of the plugin, the lookup of a path, and the computation of
the paths that a lookup did not find.  A command that may change the paths resets the path cache, whether it succeeds or
not.
-/

namespace MpOlsr

variable {ws : WordSize}

/-- The command resets the path cache. -/
def flushes (h : Store ws) : OlsrEventMessage ws → Bool
  | .DEV_CMD_RESET_TC => true
  | .DEV_CMD_ADD_NODE a => (tc_get_node h a).join.isNone
  | .DEV_CMD_REMOVE_NODE a => (tc_get_node h a).join.isSome
  | .DEV_CMD_ADD_LINK _ _ _ => true
  | .DEV_CMD_REMOVE_LINK _ _ => true
  | .DEV_CMD_ADD_ALIAS _ _ => false
  | .DEV_CMD_REMOVE_ALIAS _ _ => false
  | .DEV_CMD_SET_LOCAL_ADDR _ _ => false
  | .DEV_CMD_SET_ALIAS_ADDR _ _ => false

/-- The fields of the blocks from `brk` on are set to zero. -/
def Scratch.clearFrom (brk : Ptr) (c : Scratch ws) : Scratch ws where
  dijkstra_cost p := if p < brk then c.dijkstra_cost p else 0
  dijkstra_list p := if p < brk then c.dijkstra_list p else none
  dijkstra_path p := if p < brk then c.dijkstra_path p else none
  dijkstra_hops p := if p < brk then c.dijkstra_hops p else 0
  dijkstra_processed p := if p < brk then c.dijkstra_processed p else false
  link_cost p := if p < brk then c.link_cost p else 0
  link_cost_p1 p := if p < brk then c.link_cost_p1 p else 0

namespace Daemon

variable (s : Daemon ws)

/-- The daemon as it starts. -/
def init (conf : Conf) : Daemon ws where
  store := tc_init_data
  scratch := .zero
  g_path_buffer := []
  path_brk := 0
  conf := conf

/-- Process a command of the plugin. -/
def handleRead (m : OlsrEventMessage ws) : Option (Daemon ws) :=
  (MpOlsr.handleRead s.store m).map fun h =>
    { s with
      store := h
      scratch := s.scratch.clearFrom s.store.brk
      g_path_buffer := if flushes s.store m then [] else s.g_path_buffer }

end Daemon

/-- The sections of the daemon. -/
inductive DaemonEvent (ws : WordSize) where
  | handleRead (m : OlsrEventMessage ws)
  /-- the part of `pth_find_datagram_path` under the read lock -/
  | lookup (srcAddr_req dstAddr_req : ip_v4_addr ws)
  /-- the part of `pth_find_datagram_path` under the write lock -/
  | compute (srcAddr dstAddr : ip_v4_addr ws) (src_local : Bool)

def Daemon.step (s : Daemon ws) : DaemonEvent ws → Option (Daemon ws)
  | .handleRead m => s.handleRead m
  | .lookup x y => (s.lookup x y).map Prod.snd
  | .compute srcAddr dstAddr src_local => (s.compute srcAddr dstAddr src_local).map Prod.snd

end MpOlsr
