import MpOlsr.Paths.Rings
import MpOlsr.Topology.Weak

/-!
# The commands of the kernel module

The operations of `ser_path_tc.c` of the kernel module, and their dispatch by `dev_device_write`.  The store, the path
cache and most operations are those of the daemon; `tc_add_node` adds a node also where its address is registered, and
`tc_remove_node` leaves through one exit, whether it found the node or not.
-/

namespace MpOlsr.Kernel

open DoublyLinked Fault

variable {ws : WordSize}

def tc_add_node (h : Store ws) (addr_ip : ip_v4_addr ws) : Option (Store ws) := do
  let new_node := h.brk
  let h := h.allocNode
  let new_addr := h.brk
  let h := h.allocAddr
  let r ← tc_add_node_addr h new_addr new_node addr_ip true
  if r.1 = false then do
    let h ← r.2.freeAddr new_addr
    h.freeNode new_node
  else
    let D ← r.2.node_lst.insertCell r.2.liveNode (fun _ => true) () new_node
    return { r.2 with node_lst := D }

/-- The exit of `tc_remove_node`.  The table is not initialised (`none`) and the node is NULL where it was not found. -/
def remove_node_failed (h : Store ws) (node : Option Ptr) (addr_tab : Option (List Ptr)) : Option (Store ws) := do
  let addr_tab ← addr_tab
  let h ← addr_tab.foldlM Store.freeAddr h
  let node ← node
  let h ← freeLinks h node
  h.freeNode node

def tc_remove_node (h : Store ws) (addr_ip : ip_v4_addr ws) : Option (Store ws) := do
  let found ← tc_get_node h addr_ip
  match found with
  | none => remove_node_failed h none none
  | some node =>
    let h := { h with g_local_links :=
                        if addr_ip = h.g_local_addr_tab 0 then [] else removeLocalLink addr_ip h.g_local_links }
    let D ← h.node_lst.removeCell h.liveNode (fun _ => true) () node
    let h := { h with node_lst := D }
    let r ← removeAddrs node [0, 1, 2, 3, 4] h
    let h ← detachLinks r.2 node
    remove_node_failed h (some node) (some r.1)

/-- `struct dev_tc_token` -/
structure DevTcToken (ws : WordSize) where
  /-- a `long` -/
  type : ULong ws
  addr_1 : ip_v4_addr ws
  addr_2 : ip_v4_addr ws
  value : ℤ

/-- The command of a token: the cases of `dev_device_write`. -/
def DevTcToken.cmd (token : DevTcToken ws) : Option (OlsrEventMessage ws) :=
  match token.type.toInt with
  | 1 => some .DEV_CMD_RESET_TC
  | 2 => some (.DEV_CMD_ADD_NODE token.addr_1)
  | 3 => some (.DEV_CMD_REMOVE_NODE token.addr_1)
  | 4 => some (.DEV_CMD_ADD_LINK token.addr_1 token.addr_2 token.value)
  | 5 => some (.DEV_CMD_REMOVE_LINK token.addr_1 token.addr_2)
  | 6 => some (.DEV_CMD_ADD_ALIAS token.addr_1 token.addr_2)
  | 7 => some (.DEV_CMD_REMOVE_ALIAS token.addr_1 token.addr_2)
  | 8 => some (.DEV_CMD_SET_LOCAL_ADDR token.addr_1 token.addr_2)
  | 9 => some (.DEV_CMD_SET_ALIAS_ADDR token.addr_1 token.addr_2)
  | _ => none

/-- What a command does to the store. -/
def command (h : Store ws) : OlsrEventMessage ws → Option (Store ws)
  | .DEV_CMD_RESET_TC => tc_free_data h
  | .DEV_CMD_ADD_NODE a => tc_add_node h a
  | .DEV_CMD_REMOVE_NODE a => tc_remove_node h a
  | .DEV_CMD_ADD_LINK s d c => tc_add_link h s d c
  | .DEV_CMD_REMOVE_LINK s d => tc_remove_link h s d
  | .DEV_CMD_ADD_ALIAS a b => tc_add_alias h a b
  | .DEV_CMD_REMOVE_ALIAS a b => tc_remove_alias h a b
  | .DEV_CMD_SET_LOCAL_ADDR a m => some (tc_set_local_addr h a m)
  | .DEV_CMD_SET_ALIAS_ADDR a m => some (tc_set_local_alias h a m)

/-- The command resets the path cache. -/
def flushes (h : Store ws) : OlsrEventMessage ws → Bool
  | .DEV_CMD_ADD_NODE _ => true
  | m => MpOlsr.flushes h m

/-- One round of `dev_device_write`; a token of another type is only reported. -/
def dev_device_write (s : PathDaemon ws) (token : DevTcToken ws) : Option (PathDaemon ws) :=
  match token.cmd with
  | none => some s
  | some m => do
    let h ← command s.store m
    let (paths, _) ←
      if flushes s.store m then free_path_buffer s.path_brk s.paths s.g_path_buffer else some (s.paths, [])
    return { s with
      store := h
      scratch := s.scratch.clearFrom s.store.brk
      g_path_buffer := if flushes s.store m then [] else s.g_path_buffer
      paths := paths }

/-- The sections of the module that take the lock. -/
inductive ModuleEvent (ws : WordSize) where
  | write (token : DevTcToken ws)
  | lookup (srcAddr_req dstAddr_req : ip_v4_addr ws)
  | compute (srcAddr dstAddr : ip_v4_addr ws) (src_local : Bool)

def step (s : PathDaemon ws) : ModuleEvent ws → Option (PathDaemon ws)
  | .write token => dev_device_write s token
  | .lookup x y => (s.lookup x y).map Prod.snd
  | .compute srcAddr dstAddr src_local => (s.compute srcAddr dstAddr src_local).map Prod.snd

/-! ### What the commands keep -/

variable {h h' : Store ws} {g : Shape ws}

/-- Where the node is found the command is that of the daemon. -/
theorem tc_remove_node_found {a : ip_v4_addr ws} {n : Ptr} (ha : tc_get_node h a = some (some n)) :
    tc_remove_node h a = MpOlsr.tc_remove_node h a := by
  rw [tc_remove_node, MpOlsr.tc_remove_node, ha]
  rfl

/-- The removal of a node that is not found is a fault. -/
theorem tc_remove_node_unknown {a : ip_v4_addr ws} (ha : tc_get_node h a = some none) : tc_remove_node h a = none := by
  rw [tc_remove_node, ha]
  rfl

theorem weak_tc_add_node (hw : WeakRep h g) {a : ip_v4_addr ws} (hrun : tc_add_node h a = some h') :
    ∃ g', WeakRep h' g' := by
  obtain ⟨s, D, hadd, hinsert, hw'⟩ := hw.enterNode a
  have hrun' : tc_add_node h a = some { s with node_lst := D } :=
    Option.bind_eq_some_iff.2 ⟨_, hadd, Option.bind_eq_some_iff.2 ⟨_, hinsert, rfl⟩⟩
  obtain rfl := Option.some_inj.1 (hrun'.symm.trans hrun)
  exact ⟨_, hw'⟩

/-- Every command that returns leaves a store with a shape. -/
theorem weak_command (hw : WeakRep h g) {m : OlsrEventMessage ws} (hrun : command h m = some h') :
    ∃ g', WeakRep h' g' := by
  cases m with
  | DEV_CMD_RESET_TC =>
    obtain ⟨s, hrun', hs⟩ := tc_free_data_spec hw
    obtain rfl := Option.some_inj.1 (hrun'.symm.trans hrun)
    exact ⟨_, hs.weak⟩
  | DEV_CMD_ADD_NODE a => exact weak_tc_add_node hw hrun
  | DEV_CMD_REMOVE_NODE a =>
    have hget := hw.get_node a
    cases ha : resolve g.addrs a with
    | none =>
      rw [ha] at hget
      cases (tc_remove_node_unknown hget).symm.trans hrun
    | some e =>
      rw [ha] at hget
      exact hw.tc_remove_node hget ((tc_remove_node_found hget).symm.trans hrun)
  | DEV_CMD_ADD_LINK s d c => exact hw.tc_add_link hrun
  | DEV_CMD_REMOVE_LINK s d => exact hw.tc_remove_link hrun
  | DEV_CMD_ADD_ALIAS a b => exact hw.tc_add_alias hrun
  | DEV_CMD_REMOVE_ALIAS a b => exact hw.tc_remove_alias hrun
  | DEV_CMD_SET_LOCAL_ADDR a k =>
    obtain rfl := Option.some_inj.1 hrun
    exact ⟨g, hw.withLocal _ _ _⟩
  | DEV_CMD_SET_ALIAS_ADDR a k =>
    obtain rfl := Option.some_inj.1 hrun
    rw [tc_set_local_alias]
    split
    · exact ⟨g, hw⟩
    · exact ⟨g, hw.withLocal _ _ _⟩

/-! ### Runs -/

/-- The store has a shape, and the rings of the path cache are in order. -/
def Sound (s : PathDaemon ws) : Prop := (∃ g, WeakRep s.store g) ∧ ∃ d, Refines d s

theorem sound_init (conf : Conf) : Sound (PathDaemon.init conf : PathDaemon ws) :=
  ⟨⟨_, .init⟩, _, refines_init conf⟩

/-- A command resets the path cache without a fault. -/
theorem dev_device_write_eq {s : PathDaemon ws} (hs : Sound s) {token : DevTcToken ws} {m : OlsrEventMessage ws}
    (hm : token.cmd = some m) : ∃ buffers paths, dev_device_write s token = (command s.store m).map (fun h =>
      { s with store := h, scratch := s.scratch.clearFrom s.store.brk, g_path_buffer := buffers, paths := paths }) ∧
    ∀ h, ∃ d, Refines d
      { s with store := h, scratch := s.scratch.clearFrom s.store.brk, g_path_buffer := buffers, paths := paths } := by
  obtain ⟨-, d, hd⟩ := hs
  rw [dev_device_write, hm]
  dsimp only
  cases hflush : flushes s.store m with
  | true =>
    refine ⟨[], fun _ => none, ?_, fun h => ?_⟩
    · rw [hd.free_path_buffer]
      cases command s.store m <;> rfl
    · refine ⟨{ d with store := h, scratch := s.scratch.clearFrom s.store.brk, g_path_buffer := [] },
        ⟨rfl, rfl, hd.conf_eq, hd.brk_eq, .nil, List.nodup_nil, fun p => ?_, nofun⟩⟩
      simp [blocksOf]
  | false =>
    refine ⟨s.g_path_buffer, s.paths, ?_, fun h => ?_⟩
    · cases command s.store m <;> rfl
    · exact ⟨{ d with store := h, scratch := s.scratch.clearFrom s.store.brk },
        ⟨rfl, rfl, hd.conf_eq, hd.brk_eq, hd.entries, hd.nodup, hd.live, hd.bound⟩⟩

theorem Sound.step {s s' : PathDaemon ws} (hs : Sound s) {event : ModuleEvent ws} (hrun : step s event = some s') :
    Sound s' := by
  cases event with
  | write token =>
    cases hm : token.cmd with
    | none =>
      have hrun : dev_device_write s token = some s' := hrun
      rw [dev_device_write, hm] at hrun
      obtain rfl := Option.some_inj.1 hrun
      exact hs
    | some m =>
      obtain ⟨buffers, paths, hwrite, hrings⟩ := dev_device_write_eq hs hm
      have hrun := hwrite.symm.trans hrun
      obtain ⟨h, hcommand, rfl⟩ := Option.map_eq_some_iff.1 hrun
      obtain ⟨⟨g, hw⟩, -⟩ := hs
      exact ⟨weak_command hw hcommand, hrings h⟩
  | lookup x y =>
    obtain ⟨⟨g, hw⟩, d, hd⟩ := hs
    obtain ⟨r, hlookup, rfl⟩ := Option.map_eq_some_iff.1 hrun
    have hrel := hd.lookup x y
    rw [hlookup] at hrel
    obtain ⟨r', hr', -, hrefines⟩ := Fault.rel_some_right hrel
    refine ⟨⟨g, ?_⟩, _, hrefines⟩
    rw [hrefines.store_eq, Daemon.lookup_store hr', ← hd.store_eq]
    exact hw
  | compute srcAddr dstAddr src_local =>
    obtain ⟨⟨g, hw⟩, d, hd⟩ := hs
    obtain ⟨r, hcompute, rfl⟩ := Option.map_eq_some_iff.1 hrun
    have hrel := hd.compute srcAddr dstAddr src_local
    rw [hcompute] at hrel
    obtain ⟨r', hr', -, hrefines⟩ := Fault.rel_some_right hrel
    obtain ⟨q, hq, rfl⟩ := Option.map_eq_some_iff.1 hr'
    refine ⟨⟨g, ?_⟩, _, hrefines⟩
    rw [hrefines.store_eq, (tc_k_dijstra_frame hq).1, ← hd.store_eq]
    exact hw

end MpOlsr.Kernel
