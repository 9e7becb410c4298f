import MpOlsr.Kernel.Hooks
import MpOlsr.Routing.Layout

/-!
# Which datagrams the kernel module delivers

Both hooks take every value of `pth_isEndOfPath` but 0 for the end of the path, -1 included.  A datagram with an invalid
path, or with another node at its end, is therefore decapsulated like a datagram for this node, unless it is refused for
another reason (`pre_routing_delivers_iff`, `local_in_delivers_iff`).
-/

namespace MpOlsr.Kernel

open Buffer Bytes Fault IpPacket

variable {ws : WordSize}

variable (ws) in
/-- The words of the IP header, and the header of the path. -/
def pathHeader (skb : SkBuff) : Option (ℕ × SerHeader ws) := do
  let n ← ihl skb.mem
  let header ← loadSerHeader ws skb.mem (n * 4 : ℕ)
  return (n, header)

/-- The address that `cur` points to. -/
def curAddr (skb : SkBuff) (n : ℕ) (header : SerHeader ws) : Option (BitVec 32) :=
  load32 skb.mem ((n * 4 : ℕ) + (((header.cur : ℤ) - 1) * ip_v4_size + sizeof_ser_header ws))

/-- The path ends at the local node. -/
def AtEnd (node : Node ws) (skb : SkBuff) : Prop :=
  ∃ n header addr, pathHeader ws skb = some (n, header) ∧ 1 ≤ header.cur ∧ header.cur = header.hops ∧
    curAddr skb n header = some addr ∧ addr.setWidth ws.bits = node.local_addr

/-- The path is invalid, or ends at another node. -/
def Misdirected (node : Node ws) (skb : SkBuff) (n : ℕ) (header : SerHeader ws) : Prop :=
  header.hops < header.cur ∨ header.cur = 0 ∧ header.hops = 0 ∨
    1 ≤ header.cur ∧ header.cur = header.hops ∧
      ∀ addr, curAddr skb n header = some addr → addr.setWidth ws.bits ≠ node.local_addr

/-- Only a datagram for this node is accepted without its path, and a misdirected one is dropped. -/
def DeliversAtEnd (node : Node ws) (skb : SkBuff) (result : Option HookResult) : Prop :=
  (∀ r, result = some r → r.verdict = .NF_ACCEPT → r.skb.len < skb.len → AtEnd node skb) ∧
  ∀ n header, pathHeader ws skb = some (n, header) → Misdirected node skb n header →
    ∃ r, result = some r ∧ r.verdict = .NF_DROP

/-- The bytes of a path with its header. -/
def SerHeader.size (header : SerHeader ws) : ℕ := header.hops * ip_v4_size + sizeof_ser_header ws

/-- The path can be read to its end, into the buffer on the stack. -/
def Readable (skb : SkBuff) (n : ℕ) (header : SerHeader ws) : Prop :=
  n * 4 + SerHeader.size header ≤ skb.mem.length ∧ SerHeader.size header ≤ 65536

/-! ### Reading the path -/

section Reading

variable {xs : List Byte}

theorem loadSerHeader_append (pre xs : List Byte) :
    loadSerHeader ws (pre ++ xs) pre.length = loadSerHeader ws xs 0 := by
  have h0 : load (pre ++ xs) pre.length = load xs 0 := load_append pre xs 0
  have h1 : load (pre ++ xs) (pre.length + 1) = load xs 1 := load_append pre xs 1
  have h2 : loadBe16 (pre ++ xs) (pre.length + 2) = loadBe16 xs 2 := loadBe16_append pre xs 2
  have h4 : loadBe16 (pre ++ xs) (pre.length + 4) = loadBe16 xs 4 := loadBe16_append pre xs 4
  have h6 : loadBe16 (pre ++ xs) (pre.length + 6) = loadBe16 xs 6 := loadBe16_append pre xs 6
  have h8 : loadLong ws (pre ++ xs) (pre.length + 8) = loadLong ws xs 8 :=
    congrArg (Option.map _) (read_append pre xs 8 _)
  unfold loadSerHeader
  rw [h0, h1, h2, h4, h6, h8]
  rfl

theorem loadBe16_append_left {k : ℤ} (hk : k + 2 ≤ xs.length) (r : List Byte) :
    loadBe16 (xs ++ r) k = loadBe16 xs k := by
  unfold loadBe16
  rw [load_append_left (by omega), load_append_left (by omega)]

theorem loadSerHeader_append_left (hx : sizeof_ser_header ws ≤ xs.length) (r : List Byte) :
    loadSerHeader ws (xs ++ r) 0 = loadSerHeader ws xs 0 := by
  unfold sizeof_ser_header at hx
  unfold loadSerHeader loadLong
  rw [load_append_left (by omega), load_append_left (by omega), loadBe16_append_left (by omega),
    loadBe16_append_left (by omega), loadBe16_append_left (by omega), read_append_left (by omega)]

theorem length_of_loadSerHeader {header : SerHeader ws} {i : ℕ} (h : loadSerHeader ws xs i = some header) :
    i + sizeof_ser_header ws ≤ xs.length := by
  unfold loadSerHeader at h
  obtain ⟨version, -, h⟩ := Option.bind_eq_some_iff.1 h
  obtain ⟨protocol, -, h⟩ := Option.bind_eq_some_iff.1 h
  obtain ⟨empty, -, h⟩ := Option.bind_eq_some_iff.1 h
  obtain ⟨hops, -, h⟩ := Option.bind_eq_some_iff.1 h
  obtain ⟨cur, -, h⟩ := Option.bind_eq_some_iff.1 h
  obtain ⟨first, hfirst, -⟩ := Option.bind_eq_some_iff.1 h
  obtain ⟨bs, hbs, -⟩ := Option.map_eq_some_iff.1 hfirst
  unfold Bytes.read at hbs
  unfold sizeof_ser_header
  split at hbs
  · omega
  · cases hbs

end Reading

/-! ### The decision of the hooks -/

section Decision

variable (env : Env ws) (node : Node ws) {skb : SkBuff} {n : ℕ} {header : SerHeader ws}

theorem pathHeader_eq (h : pathHeader ws skb = some (n, header)) :
    ihl skb.mem = some n ∧ loadSerHeader ws skb.mem (n * 4 : ℕ) = some header := by
  obtain ⟨m, hm, h⟩ := Option.bind_eq_some_iff.1 h
  obtain ⟨header', hheader, h⟩ := Option.bind_eq_some_iff.1 h
  cases h
  exact ⟨hm, hheader⟩

/-- The path that `skb_getPath` copies to the stack. -/
structure Copied (skb : SkBuff) (n : ℕ) (data : PathData ws) : Prop where
  ret : data.ret = 0
  header : pathHeader ws skb = some (n, data.pheader)
  start : n * 4 ≤ skb.len
  readable : Readable skb n data.pheader
  size : data.size = SerHeader.size data.pheader
  block : ∃ r, data.sData = (skb.mem.drop (n * 4)).take data.size ++ r

theorem skb_getPath_cases {n : ℕ} (hn : ihl skb.mem = some n) {data : PathData ws}
    (h : skb_getPath ws skb env.path 0 SerHeader.zero = some data) :
    data.ret = -1 ∧ skb.len < n * 4 ∨ Copied skb n data := by
  unfold skb_getPath at h
  rw [bind_of_some hn] at h
  dsimp only at h
  split at h
  · cases h
    exact Or.inl ⟨rfl, by omega⟩
  next hcond =>
  rw [skb_header_pointer, if_pos (by omega)] at h
  obtain ⟨header, hheader, h⟩ := Option.bind_eq_some_iff.1 h
  obtain ⟨sData, hcopy, h⟩ := Option.bind_eq_some_iff.1 h
  cases h
  obtain ⟨blk, hread, hwrite⟩ := Option.bind_eq_some_iff.1 hcopy
  have hfits : n * 4 + SerHeader.size header ≤ skb.mem.length ∧
      blk = (skb.mem.drop (n * 4)).take (SerHeader.size header) := by
    unfold Bytes.read at hread
    split at hread
    · next hc =>
      cases hread
      exact ⟨by unfold SerHeader.size; omega, rfl⟩
    · cases hread
  have hblk : blk.length = SerHeader.size header := by
    rw [hfits.2, List.length_take, List.length_drop]
    omega
  refine Or.inr ⟨rfl, ?_, by omega, ⟨hfits.1, ?_⟩, rfl, ?_⟩
  · unfold pathHeader
    rw [bind_of_some hn, bind_of_some hheader]
    rfl
  · have hlen := (length_write hwrite).2
    rw [env.length_path] at hlen
    show SerHeader.size header ≤ 65536
    omega
  · unfold Bytes.write at hwrite
    split at hwrite
    · cases hwrite
      refine ⟨env.path.drop blk.length, ?_⟩
      show _ = (skb.mem.drop (n * 4)).take (SerHeader.size header) ++ _
      rw [← hfits.2]
      simp
    · cases hwrite

/-- The path can be copied to the stack, or the datagram is too short for an IP header, or there is a fault. -/
theorem skb_getPath_of_readable (hheader : pathHeader ws skb = some (n, header)) (hstart : n * 4 ≤ skb.len)
    (hread : Readable skb n header) :
    ∃ data, skb_getPath ws skb env.path 0 SerHeader.zero = some data ∧ data.pheader = header ∧ Copied skb n data := by
  obtain ⟨hn, hload⟩ := pathHeader_eq hheader
  obtain ⟨hlen, hmax⟩ := hread
  unfold SerHeader.size at hlen hmax
  have hblk : Bytes.read skb.mem (n * 4 : ℕ) (header.hops * ip_v4_size + sizeof_ser_header ws : ℕ) =
      some ((skb.mem.drop (n * 4)).take (header.hops * ip_v4_size + sizeof_ser_header ws)) := by
    rw [Bytes.read, if_pos (by omega)]
    rfl
  have hwrite : ∃ sData, write env.path 0
      ((skb.mem.drop (n * 4)).take (header.hops * ip_v4_size + sizeof_ser_header ws)) = some sData := by
    refine ⟨_, if_pos ⟨le_rfl, ?_⟩⟩
    rw [List.length_take, List.length_drop, env.length_path]
    omega
  obtain ⟨sData, hwrite⟩ := hwrite
  have hget : skb_getPath ws skb env.path 0 SerHeader.zero =
      some ⟨0, sData, header.hops * ip_v4_size + sizeof_ser_header ws, header⟩ := by
    unfold skb_getPath
    rw [bind_of_some hn]
    dsimp only
    rw [if_neg (by omega), skb_header_pointer, if_pos (by omega)]
    dsimp only
    rw [bind_of_some hload, memcpy, bind_of_some hblk, bind_of_some hwrite]
    rfl
  refine ⟨_, hget, rfl, ?_⟩
  rcases skb_getPath_cases env hn hget with ⟨hret, -⟩ | hcopied
  · exact absurd hret (by show (0 : ℤ) ≠ -1; decide)
  · exact hcopied

namespace Copied

variable {data : PathData ws} (hc : Copied skb n data)

include hc

/-- The memory before the path, the path, and the memory after it. -/
theorem split : ∃ pre blk post r, skb.mem = pre ++ (blk ++ post) ∧ pre.length = n * 4 ∧
    blk.length = SerHeader.size data.pheader ∧ data.sData = blk ++ r := by
  obtain ⟨r, hr⟩ := hc.block
  have hlen := hc.readable.1
  refine ⟨skb.mem.take (n * 4), (skb.mem.drop (n * 4)).take data.size, (skb.mem.drop (n * 4)).drop data.size, r, ?_, ?_,
    ?_, hr⟩
  · rw [List.take_append_drop, List.take_append_drop]
  · rw [List.length_take]
    omega
  · rw [hc.size, List.length_take, List.length_drop]
    omega

theorem loadSerHeader_eq : loadSerHeader ws data.sData 0 = some data.pheader := by
  obtain ⟨pre, blk, post, r, hmem, hpre, hblk, hdata⟩ := hc.split
  have hload := (pathHeader_eq hc.header).2
  have hsize : sizeof_ser_header ws ≤ blk.length := by
    rw [hblk]
    exact Nat.le_add_left _ _
  rw [hmem, ← hpre, loadSerHeader_append, loadSerHeader_append_left hsize] at hload
  rw [hdata, loadSerHeader_append_left hsize]
  exact hload

theorem read_eq {k m : ℕ} (hk : k + m ≤ SerHeader.size data.pheader) :
    Bytes.read data.sData k m = Bytes.read skb.mem ((n * 4 : ℕ) + (k : ℤ)) m := by
  obtain ⟨pre, blk, post, r, hmem, hpre, hblk, hdata⟩ := hc.split
  rw [hmem, ← hpre, read_append, read_append_left (by omega), hdata, read_append_left (by omega)]

/-- The hooks stop forwarding unless the cursor is before the last hop. -/
theorem pth_isEndOfPath_cases : ∃ e, pth_isEndOfPath env node data.sData = some e ∧
    (e = 0 ↔ data.pheader.cur < data.pheader.hops) ∧ (e ≠ 0 → AtEnd node skb ∨ Misdirected node skb n data.pheader) := by
  unfold pth_isEndOfPath
  rw [bind_of_some hc.loadSerHeader_eq]
  by_cases hgt : data.pheader.cur > data.pheader.hops
  · rw [if_pos hgt]
    exact ⟨-1, rfl, by constructor <;> intro h <;> omega, fun _ => Or.inr (Or.inl hgt)⟩
  rw [if_neg hgt]
  by_cases hne : data.pheader.hops ≠ data.pheader.cur
  · rw [if_pos hne]
    exact ⟨0, rfl, by constructor <;> intro h <;> omega, fun h => absurd rfl h⟩
  rw [if_neg hne]
  by_cases hlt : data.pheader.cur < 1
  · rw [if_pos hlt]
    exact ⟨-1, rfl, by constructor <;> intro h <;> omega, fun _ => Or.inr (Or.inr (Or.inl (by omega)))⟩
  rw [if_neg hlt]
  -- the last address of the path
  obtain ⟨k, hk, hsize⟩ : ∃ k : ℕ, ((data.pheader.cur : ℤ) - 1) * ip_v4_size + sizeof_ser_header ws = k ∧
      k + 4 ≤ SerHeader.size data.pheader := by
    unfold SerHeader.size ip_v4_size
    exact ⟨(data.pheader.cur - 1) * 4 + sizeof_ser_header ws, by omega, by omega⟩
  have hread : Bytes.read data.sData k ip_v4_size = Bytes.read skb.mem ((n * 4 : ℕ) + (k : ℤ)) ip_v4_size :=
    hc.read_eq hsize
  obtain ⟨bs, hbs⟩ : ∃ bs, Bytes.read skb.mem ((n * 4 : ℕ) + (k : ℤ)) ip_v4_size = some bs := by
    have := hc.readable.1
    exact ⟨_, if_pos ⟨by omega, by unfold ip_v4_size; omega, by unfold ip_v4_size; omega⟩⟩
  have hcur : curAddr skb n data.pheader = some (BitVec.ofNat 32 (ofLe bs)) := by
    unfold curAddr load32
    rw [hk, show (4 : ℤ) = ip_v4_size from rfl, hbs]
    rfl
  have haddr : ∃ addr, env.readAddr data.sData k = some addr := by
    unfold Env.readAddr
    rw [hread, hbs]
    exact ⟨_, rfl⟩
  obtain ⟨addr, haddr⟩ := haddr
  rw [hk, bind_of_some haddr]
  have hend : AtEnd node skb ∨ Misdirected node skb n data.pheader := by
    by_cases hlocal : (BitVec.ofNat 32 (ofLe bs)).setWidth ws.bits = node.local_addr
    · exact Or.inl ⟨n, data.pheader, _, hc.header, by omega, by omega, hcur, hlocal⟩
    · refine Or.inr (Or.inr (Or.inr ⟨by omega, by omega, fun a ha => ?_⟩))
      rw [hcur] at ha
      cases ha
      exact hlocal
  by_cases hloc : addr = node.local_addr
  · exact ⟨1, by rw [if_pos hloc]; rfl, by constructor <;> intro h <;> omega, fun _ => hend⟩
  · exact ⟨-1, by rw [if_neg hloc]; rfl, by constructor <;> intro h <;> omega, fun _ => hend⟩

end Copied

/-- Both hooks: a guard, the decision, and one continuation for each of its results. -/
def hookShape (guard : Bool) (onEnd onForward : PathData ws → Option HookResult) (skb : SkBuff) :
    Option HookResult := do
  if guard = false then return ⟨-1, skb, none⟩
  else
    let data ← skb_getPath ws skb env.path 0 SerHeader.zero
    if data.ret < 0 then return ⟨-1, skb, none⟩
    else if (← pth_isEndOfPath env node data.sData) ≠ 0 then onEnd data else onForward data

theorem ihl_of_getPath {data : PathData ws} (h : skb_getPath ws skb env.path 0 SerHeader.zero = some data) :
    ∃ n, ihl skb.mem = some n := by
  obtain ⟨n, hn, -⟩ := Option.bind_eq_some_iff.1 h
  exact ⟨n, hn⟩

theorem Misdirected.not_before (h : Misdirected node skb n header) : ¬ header.cur < header.hops := by
  rcases h with h | ⟨h, h'⟩ | ⟨-, h, -⟩ <;> omega

/-- If the continuations for the end of the path refuse the datagrams of `P` only, the misdirected datagrams have to
be among them. -/
theorem hookShape_delivers_iff {guard : Bool} {onEnd onForward : PathData ws → Option HookResult}
    {P : ℕ → SerHeader ws → Prop}
    (hover : ∀ n data, Copied skb n data → P n data.pheader → ∃ r, onEnd data = some r ∧ r.verdict = .NF_DROP)
    (hend : ∀ n data r, Copied skb n data → ¬ P n data.pheader → onEnd data = some r → r.verdict ≠ .NF_DROP)
    (hforward : ∀ data r, onForward data = some r → r.verdict = .NF_ACCEPT → r.skb.len = skb.len) :
    DeliversAtEnd node skb (hookShape env node guard onEnd onForward skb) ↔
      ∀ n header, pathHeader ws skb = some (n, header) → Misdirected node skb n header →
        guard = false ∨ skb.len < n * 4 ∨ Readable skb n header ∧ P n header := by
  have hdrop : (⟨-1, skb, none⟩ : HookResult).verdict = .NF_DROP := rfl
  constructor
  · rintro ⟨-, hmis⟩ n header hheader hm
    obtain ⟨r, hr, hverdict⟩ := hmis n header hheader hm
    by_cases hguard : guard = false
    · exact Or.inl hguard
    right
    unfold hookShape at hr
    rw [if_neg hguard] at hr
    obtain ⟨data, hdata, hr⟩ := Option.bind_eq_some_iff.1 hr
    rcases skb_getPath_cases env (pathHeader_eq hheader).1 hdata with ⟨-, hlt⟩ | hc
    · exact Or.inl hlt
    right
    have hsame : data.pheader = header := by
      have := hc.header.symm.trans hheader
      cases this
      rfl
    obtain ⟨e, he, hzero, -⟩ := hc.pth_isEndOfPath_cases env node
    have hne : e ≠ 0 := fun h => hm.not_before node (hsame ▸ hzero.1 h)
    rw [if_neg (by rw [hc.ret]; omega), bind_of_some he, if_pos hne] at hr
    refine ⟨hsame ▸ hc.readable, ?_⟩
    by_contra hnot
    exact hend n data r hc (hsame ▸ hnot) hr hverdict
  · intro hcond
    refine ⟨fun r hr hacc hlen => ?_, fun n header hheader hm => ?_⟩
    · unfold hookShape at hr
      split at hr
      · cases hr
        cases hacc
      next hguard =>
      obtain ⟨data, hdata, hr⟩ := Option.bind_eq_some_iff.1 hr
      obtain ⟨n, hn⟩ := ihl_of_getPath env hdata
      rcases skb_getPath_cases env hn hdata with ⟨hret, -⟩ | hc
      · rw [if_pos (by rw [hret]; omega)] at hr
        cases hr
        cases hacc
      obtain ⟨e, he, hzero, hcases⟩ := hc.pth_isEndOfPath_cases env node
      rw [if_neg (by rw [hc.ret]; omega), bind_of_some he] at hr
      by_cases hne : e ≠ 0
      · rw [if_pos hne] at hr
        rcases hcases hne with hend' | hm
        · exact hend'
        · exfalso
          rcases hcond n data.pheader hc.header hm with h | h | ⟨-, h⟩
          · exact hguard h
          · have := hc.start
            omega
          · obtain ⟨r', hr', hverdict⟩ := hover n data hc h
            rw [hr] at hr'
            cases hr'
            rw [hacc] at hverdict
            cases hverdict
      · rw [if_neg hne] at hr
        have := hforward data r hr hacc
        omega
    · unfold hookShape
      by_cases hguard : guard = false
      · rw [if_pos hguard]
        exact ⟨_, rfl, hdrop⟩
      rw [if_neg hguard]
      by_cases hlt : skb.len < n * 4
      · have hget : skb_getPath ws skb env.path 0 SerHeader.zero = some ⟨-1, env.path, 0, SerHeader.zero⟩ := by
          unfold skb_getPath
          rw [bind_of_some (pathHeader_eq hheader).1]
          dsimp only
          rw [if_pos (Or.inr (by omega))]
          rfl
        rw [bind_of_some hget, if_pos (by show (-1 : ℤ) < 0; decide)]
        exact ⟨_, rfl, hdrop⟩
      obtain ⟨hread, hov⟩ := ((hcond n header hheader hm).resolve_left hguard).resolve_left hlt
      obtain ⟨data, hget, hsame, hc⟩ := skb_getPath_of_readable env hheader (by omega) hread
      obtain ⟨e, he, hzero, -⟩ := hc.pth_isEndOfPath_cases env node
      have hne : e ≠ 0 := fun h => hm.not_before node (hsame ▸ hzero.1 h)
      rw [bind_of_some hget, if_neg (by rw [hc.ret]; omega), bind_of_some he, if_pos hne]
      exact hover n data hc (hsame ▸ hov)

end Decision

/-! ### The continuations -/

section Continuations

variable (env : Env ws) (node : Node ws) {skb skb' : SkBuff} {n : ℕ} {header : SerHeader ws}

theorem SkBuff.withMem_len {mem : List Byte} (h : skb.withMem mem = some skb') : skb'.len = skb.len := by
  unfold SkBuff.withMem at h
  split at h
  · cases h
    rfl
  · cases h

theorem skb_updateChecksumIP_len {sums : Checksums} (h : skb_updateChecksumIP sums skb = some skb') :
    skb'.len = skb.len := by
  unfold skb_updateChecksumIP at h
  obtain ⟨m, -, h⟩ := Option.bind_eq_some_iff.1 h
  obtain ⟨mem₁, -, h⟩ := Option.bind_eq_some_iff.1 h
  obtain ⟨iph, -, h⟩ := Option.bind_eq_some_iff.1 h
  obtain ⟨mem₂, -, h⟩ := Option.bind_eq_some_iff.1 h
  exact SkBuff.withMem_len h

theorem skb_updatePath_len {path : List Byte} {size : ℕ} {ret : ℤ}
    (h : skb_updatePath skb path size = some (ret, skb')) : skb'.len = skb.len := by
  unfold skb_updatePath at h
  obtain ⟨m, -, h⟩ := Option.bind_eq_some_iff.1 h
  dsimp only at h
  split at h
  · cases h
    rfl
  · split at h
    · obtain ⟨mem, -, h⟩ := Option.bind_eq_some_iff.1 h
      obtain ⟨s, hs, h⟩ := Option.bind_eq_some_iff.1 h
      cases h
      exact SkBuff.withMem_len hs
    · cases h
      rfl

/-- The path is not removed from a datagram that is shorter. -/
theorem restore_of_over {size : ℕ} (hn : ihl skb.mem = some n) (hover : skb.len < n * 4 + size) :
    restore env skb header size = some ⟨-1, skb, none⟩ := by
  have hremove : skb_removePath skb size = some (-1, skb) := by
    unfold skb_removePath
    rw [bind_of_some hn]
    dsimp only
    rw [if_pos (by omega)]
    rfl
  unfold restore
  rw [bind_of_some hremove]
  rfl

/-- The path is removed from any other datagram. -/
theorem restore_ret {size : ℕ} {r : HookResult} (hn : ihl skb.mem = some n) (hfits : n * 4 + size ≤ skb.len)
    (hr : restore env skb header size = some r) : r.ret = 0 := by
  unfold restore at hr
  obtain ⟨⟨ret, skb₁⟩, hremove, hr⟩ := Option.bind_eq_some_iff.1 hr
  have hret : ret = 0 := by
    unfold skb_removePath at hremove
    rw [bind_of_some hn] at hremove
    dsimp only at hremove
    rw [if_neg (by omega), skb_header_pointer, if_pos (by omega)] at hremove
    obtain ⟨mem, -, hremove⟩ := Option.bind_eq_some_iff.1 hremove
    obtain ⟨tot, -, hremove⟩ := Option.bind_eq_some_iff.1 hremove
    obtain ⟨mem', -, hremove⟩ := Option.bind_eq_some_iff.1 hremove
    obtain ⟨s, -, hremove⟩ := Option.bind_eq_some_iff.1 hremove
    cases hremove
    rfl
  subst hret
  dsimp only at hr
  rw [if_neg (by omega)] at hr
  obtain ⟨mem, -, hr⟩ := Option.bind_eq_some_iff.1 hr
  obtain ⟨mem', -, hr⟩ := Option.bind_eq_some_iff.1 hr
  obtain ⟨s, -, hr⟩ := Option.bind_eq_some_iff.1 hr
  obtain ⟨s', -, hr⟩ := Option.bind_eq_some_iff.1 hr
  cases hr
  rfl

/-- The first hook forwards the datagram, or looks for another path. -/
def preRoutingForward (skb : SkBuff) (data : PathData ws) : Option HookResult := do
  let (ret, path, nextHop) ← pth_checkNextHop env node data.sData 0
  if ret < 0 then return ⟨-1, skb, none⟩
  else if ret > 0 then hk_route_recovery_pre_routing env node skb data.pheader path data.size
  else
    let mem ← store32 skb.mem 16 (nextHop.setWidth 32)
    let skb ← skb.withMem mem
    let (ret, skb) ← skb_updatePath skb path data.size
    if ret < 0 then return ⟨-1, skb, none⟩
    else
      let skb ← skb_updateChecksumIP env.sums skb
      return ⟨0, skb, none⟩

/-- The second hook sends a copy. -/
def localInForward (skb : SkBuff) (data : PathData ws) : Option HookResult := do
  let srcAddr ← load32 skb.mem 16
  if env.copied = false then return ⟨-1, skb, none⟩
  else
    let (ret, path, nextHop) ← pth_checkNextHop env node data.sData 0
    if ret < 0 then return ⟨-1, skb, none⟩
    else if ret > 0 then return ⟨-1, skb, none⟩
    else
      let mem ← store32 skb.mem 16 (nextHop.setWidth 32)
      let mem ← store32 mem 12 srcAddr
      let skb_new ← skb.withMem mem
      let (ret, skb_new) ← skb_updatePath skb_new path data.size
      if ret < 0 then return ⟨-1, skb, none⟩
      else
        let skb_new ← skb_updateChecksumIP env.sums skb_new
        if env.ip_route_me_harder skb_new ≠ 0 then return ⟨-1, skb, none⟩
        else return ⟨1, skb, some skb_new⟩

theorem pre_routing_shape : hk_process_datagram_pre_routing env node skb = hookShape env node env.writable
    (fun data => restore env skb data.pheader data.size) (preRoutingForward env node skb) skb := rfl

theorem local_in_shape : hk_process_datagram_local_in env node skb = hookShape env node env.linear
    (fun data => if env.writable = false then some ⟨-1, skb, none⟩ else restore env skb data.pheader data.size)
    (localInForward env node skb) skb := rfl

theorem recovery_not_accepted {path : List Byte} {size : ℕ} {r : HookResult}
    (hr : hk_route_recovery_pre_routing env node skb header path size = some r) : r.verdict ≠ .NF_ACCEPT := by
  have hdrop : ∀ s : SkBuff, (⟨-1, s, none⟩ : HookResult).verdict ≠ .NF_ACCEPT := fun s => by
    show Verdict.NF_DROP ≠ .NF_ACCEPT
    decide
  unfold hk_route_recovery_pre_routing at hr
  obtain ⟨dst, -, hr⟩ := Option.bind_eq_some_iff.1 hr
  obtain ⟨src, -, hr⟩ := Option.bind_eq_some_iff.1 hr
  obtain ⟨res, -, hr⟩ := Option.bind_eq_some_iff.1 hr
  split at hr
  · cases hr
    exact hdrop _
  split at hr
  · cases hr
    exact hdrop _
  dsimp only at hr
  split at hr
  · obtain ⟨s₁, -, hr⟩ := Option.bind_eq_some_iff.1 hr
    obtain ⟨⟨ret, s₂⟩, -, hr⟩ := Option.bind_eq_some_iff.1 hr
    dsimp only at hr
    split at hr
    · cases hr
      exact hdrop _
    obtain ⟨mem₁, -, hr⟩ := Option.bind_eq_some_iff.1 hr
    obtain ⟨mem₂, -, hr⟩ := Option.bind_eq_some_iff.1 hr
    obtain ⟨mem₃, -, hr⟩ := Option.bind_eq_some_iff.1 hr
    obtain ⟨s₃, -, hr⟩ := Option.bind_eq_some_iff.1 hr
    obtain ⟨s₄, -, hr⟩ := Option.bind_eq_some_iff.1 hr
    split at hr
    · cases hr
      exact hdrop _
    · cases hr
      show Verdict.NF_STOLEN ≠ .NF_ACCEPT
      decide
  · cases hr
    exact hdrop _

theorem preRoutingForward_len {data : PathData ws} {r : HookResult} (hr : preRoutingForward env node skb data = some r)
    (hacc : r.verdict = .NF_ACCEPT) : r.skb.len = skb.len := by
  unfold preRoutingForward at hr
  obtain ⟨⟨ret, path, nextHop⟩, -, hr⟩ := Option.bind_eq_some_iff.1 hr
  dsimp only at hr
  split at hr
  · cases hr
    rfl
  split at hr
  · exact absurd hacc (recovery_not_accepted env node hr)
  obtain ⟨mem, -, hr⟩ := Option.bind_eq_some_iff.1 hr
  obtain ⟨s₁, h₁, hr⟩ := Option.bind_eq_some_iff.1 hr
  obtain ⟨⟨ret', s₂⟩, h₂, hr⟩ := Option.bind_eq_some_iff.1 hr
  have hlen := (skb_updatePath_len h₂).trans (SkBuff.withMem_len h₁)
  dsimp only at hr
  split at hr
  · cases hr
    exact hlen
  obtain ⟨s₃, h₃, hr⟩ := Option.bind_eq_some_iff.1 hr
  cases hr
  exact (skb_updateChecksumIP_len h₃).trans hlen

theorem localInForward_len {data : PathData ws} {r : HookResult} (hr : localInForward env node skb data = some r) :
    r.skb.len = skb.len := by
  unfold localInForward at hr
  obtain ⟨src, -, hr⟩ := Option.bind_eq_some_iff.1 hr
  split at hr
  · cases hr
    rfl
  obtain ⟨⟨ret, path, nextHop⟩, -, hr⟩ := Option.bind_eq_some_iff.1 hr
  dsimp only at hr
  split at hr
  · cases hr
    rfl
  split at hr
  · cases hr
    rfl
  obtain ⟨mem, -, hr⟩ := Option.bind_eq_some_iff.1 hr
  obtain ⟨mem', -, hr⟩ := Option.bind_eq_some_iff.1 hr
  obtain ⟨s₁, -, hr⟩ := Option.bind_eq_some_iff.1 hr
  obtain ⟨⟨ret', s₂⟩, -, hr⟩ := Option.bind_eq_some_iff.1 hr
  dsimp only at hr
  split at hr
  · cases hr
    rfl
  obtain ⟨s₃, -, hr⟩ := Option.bind_eq_some_iff.1 hr
  split at hr <;> cases hr <;> rfl

end Continuations

/-! ### The hooks -/

section Hooks

variable (env : Env ws) (node : Node ws) (skb : SkBuff)

theorem pre_routing_delivers_iff : DeliversAtEnd node skb (hk_process_datagram_pre_routing env node skb) ↔
    ∀ n header, pathHeader ws skb = some (n, header) → Misdirected node skb n header →
      env.writable = false ∨ skb.len < n * 4 ∨ Readable skb n header ∧ skb.len < n * 4 + SerHeader.size header := by
  rw [pre_routing_shape]
  apply hookShape_delivers_iff (P := fun n header => skb.len < n * 4 + SerHeader.size header)
  · intro n data hc hover
    rw [← hc.size] at hover
    exact ⟨_, restore_of_over env (pathHeader_eq hc.header).1 hover, rfl⟩
  · intro n data r hc hover hr
    rw [← hc.size] at hover
    have hret := restore_ret env (pathHeader_eq hc.header).1 (by omega) hr
    simp [HookResult.verdict, hret]
  · intro data r hr hacc
    exact preRoutingForward_len env node hr hacc

theorem local_in_delivers_iff : DeliversAtEnd node skb (hk_process_datagram_local_in env node skb) ↔
    ∀ n header, pathHeader ws skb = some (n, header) → Misdirected node skb n header →
      env.linear = false ∨ skb.len < n * 4 ∨
        Readable skb n header ∧ (env.writable = false ∨ skb.len < n * 4 + SerHeader.size header) := by
  rw [local_in_shape]
  apply hookShape_delivers_iff
    (P := fun n header => env.writable = false ∨ skb.len < n * 4 + SerHeader.size header)
  · intro n data hc hover
    by_cases hw : env.writable = false
    · rw [if_pos hw]
      exact ⟨_, rfl, rfl⟩
    · rw [if_neg hw]
      have hover := hover.resolve_left hw
      rw [← hc.size] at hover
      exact ⟨_, restore_of_over env (pathHeader_eq hc.header).1 hover, rfl⟩
  · intro n data r hc hover hr
    obtain ⟨hw, hover⟩ := not_or.1 hover
    rw [if_neg hw] at hr
    rw [← hc.size] at hover
    have hret := restore_ret env (pathHeader_eq hc.header).1 (by omega) hr
    simp [HookResult.verdict, hret]
  · intro data r hr _
    exact localInForward_len env node hr

/-- The kernel module delivers at the end of a path only, unless it receives a misdirected datagram that the hooks do not
refuse for another reason. -/
theorem kernel_delivers_iff :
    (DeliversAtEnd node skb (hk_process_datagram_pre_routing env node skb) ↔
      ∀ n header, pathHeader ws skb = some (n, header) → Misdirected node skb n header →
        env.writable = false ∨ skb.len < n * 4 ∨
          Readable skb n header ∧ skb.len < n * 4 + SerHeader.size header) ∧
    (DeliversAtEnd node skb (hk_process_datagram_local_in env node skb) ↔
      ∀ n header, pathHeader ws skb = some (n, header) → Misdirected node skb n header →
        env.linear = false ∨ skb.len < n * 4 ∨
          Readable skb n header ∧ (env.writable = false ∨ skb.len < n * 4 + SerHeader.size header)) :=
  ⟨pre_routing_delivers_iff env node skb, local_in_delivers_iff env node skb⟩

end Hooks

/-! ### A misdirected datagram -/

/-- A kernel without failures, with cleared memory and no checksums. -/
def quietEnv : Env .ilp32 where
  sums := { ip_fast_csum := fun _ => 0, csum_partial := fun _ sum => sum, csum_tcpudp_magic := fun _ _ _ _ _ => 0 }
  writable := true
  linear := true
  copied := true
  expand := fun delta => some (List.replicate delta 0)
  ip_route_me_harder := fun _ => 0
  path := List.replicate 65536 0
  newPath := List.replicate 65536 0
  length_path := List.length_replicate
  length_newPath := List.length_replicate
  addr := 0

/-- The path of the datagram has one hop, and its cursor is behind it. -/
def strayHeader : SerHeader .ilp32 :=
  { version := MPOLSR_VERSION, protocol := IPPROTO_UDP, empty := 0, hops := 1, cur := 2, first_node := 10 }

def strayIpHdr : IpHdr :=
  { version_ihl := 0x45, tos := 0, tot_len := 45, id := 1, frag_off := 0, ttl := 64, protocol := IPPROTO_MPOLSR,
    check := 0, saddr := 10, daddr := 2, options := [] }

def strayUdp : UdpHdr := { source := 5000, dest := 464, len := 9, check := 0 }

def straySkb : SkBuff where
  mem := strayIpHdr.bytes ++ (strayHeader.bytes ++ (@pathBytes .ilp32 [3] ++ (strayUdp.bytes ++ [65])))
  len := 45
  len_le := by decide

/-- A node whose address is not in the path. -/
def bystander : Node .ilp32 := ⟨7, [], fun _ _ => none⟩

theorem stray_pathHeader : pathHeader .ilp32 straySkb = some (5, strayHeader) := by decide

/-- Both hooks accept the datagram without its path. -/
theorem stray_delivered :
    ¬ DeliversAtEnd bystander straySkb (hk_process_datagram_pre_routing quietEnv bystander straySkb) ∧
    ¬ DeliversAtEnd bystander straySkb (hk_process_datagram_local_in quietEnv bystander straySkb) := by
  have hmis : Misdirected bystander straySkb 5 strayHeader := Or.inl (by decide)
  have hlen : ¬ straySkb.len < 5 * 4 := by decide
  have hsize : ¬ straySkb.len < 5 * 4 + SerHeader.size strayHeader := by decide
  rw [pre_routing_delivers_iff, local_in_delivers_iff]
  constructor
  · intro h
    rcases h 5 strayHeader stray_pathHeader hmis with hw | hl | ⟨-, hs⟩
    · cases hw
    · exact hlen hl
    · exact hsize hs
  · intro h
    rcases h 5 strayHeader stray_pathHeader hmis with hw | hl | ⟨-, hw | hs⟩
    · cases hw
    · exact hlen hl
    · cases hw
    · exact hsize hs

end MpOlsr.Kernel
