import MpOlsr.Kernel.Delivery

/-!
# Replacing the path of a datagram

`skb_replacePath` moves the UDP datagram to the end of the new path correctly, whether the path grows or shrinks, but it
writes the new block, which begins with its header, behind the header of the old one.  The old header stays, and the
block covers the first bytes of the UDP datagram (`skb_replacePath_eq`).
-/

namespace MpOlsr.Kernel

open Buffer Bytes Fault IpPacket

variable {ws : WordSize}

/-- A header and its path. -/
structure PathBlock (ws : WordSize) where
  header : SerHeader ws
  path : List (ip_v4_addr ws)
  hops : header.hops = path.length

def PathBlock.bytes (b : PathBlock ws) : List Byte := b.header.bytes ++ pathBytes b.path

@[simp]
theorem PathBlock.length_bytes (b : PathBlock ws) : b.bytes.length = sizeof_ser_header ws + b.path.length * 4 := by
  simp [bytes, length_pathBytes]

/-- The block of a path that the lookup lays out. -/
def foundBlock (header : SerHeader ws) (path : List (ip_v4_addr ws)) : PathBlock ws :=
  ⟨{ header with version := MPOLSR_VERSION, hops := path.length, cur := 1 }, path, rfl⟩

theorem pth_find_datagram_path_eq {node : Node ws} {path_data : List Byte} {size : ℕ}
    {srcAddr dstAddr nextHop : ip_v4_addr ws} {header : SerHeader ws} {path : List (ip_v4_addr ws)} {src_local : Bool}
    (hpath : node.find_path srcAddr dstAddr = some (⟨path.length, pathBytes path⟩, src_local))
    {res : PathResult ws}
    (h : pth_find_datagram_path node path_data size srcAddr dstAddr nextHop header = some res) :
    ∃ j, res.path_data = (foundBlock header path).bytes ++ j ∧ res.size = (foundBlock header path).bytes.length := by
  unfold pth_find_datagram_path at h
  rw [hpath] at h
  obtain ⟨data₁, h₁, h⟩ := Option.bind_eq_some_iff.1 h
  obtain ⟨data₂, h₂, h⟩ := Option.bind_eq_some_iff.1 h
  obtain ⟨addr, -, h⟩ := Option.bind_eq_some_iff.1 h
  have hsize : path.length * ip_v4_size + sizeof_ser_header ws = (foundBlock header path).bytes.length := by
    rw [PathBlock.length_bytes, Nat.add_comm]
    rfl
  obtain ⟨j, hj⟩ : ∃ j, data₂ = (foundBlock header path).bytes ++ j := by
    obtain ⟨ys, hread, hwrite⟩ := Option.bind_eq_some_iff.1 h₂
    have hys : ys = pathBytes path := by
      have hall : Bytes.read (pathBytes path) 0 (path.length * ip_v4_size : ℕ) = some (pathBytes path) :=
        read_eq (a := []) (c := []) (by simp) rfl (by rw [length_pathBytes, ip_v4_size])
      exact Option.some.inj (hread.symm.trans hall)
    obtain ⟨r, hr⟩ := append_of_write_zero h₁
    subst hys
    have hfits := (length_write hwrite).2
    obtain ⟨c, d, hsplit, hc⟩ : ∃ c d, r = c ++ d ∧ c.length = (pathBytes path).length := by
      refine ⟨r.take (pathBytes path).length, r.drop (pathBytes path).length, (List.take_append_drop _ _).symm, ?_⟩
      rw [List.length_take]
      rw [hr, List.length_append, SerHeader.length_bytes] at hfits
      omega
    refine ⟨d, ?_⟩
    rw [write_eq (a := (foundBlock header path).header.bytes) (b := c) (c := d) (by rw [hr, hsplit]; rfl) (by simp)
      hc.symm] at hwrite
    rw [← Option.some.inj hwrite]
    exact (List.append_assoc _ _ _).symm
  have hres : res.path_data = data₂ ∧ res.size = path.length * ip_v4_size + sizeof_ser_header ws := by
    dsimp only at h
    split at h
    · split at h <;> cases h <;> exact ⟨rfl, rfl⟩
    · cases h
      exact ⟨rfl, rfl⟩
  exact ⟨j, hres.1.trans hj, hres.2.trans hsize⟩

/-- A datagram with a path, and a UDP datagram behind the path. -/
structure PathDatagram (ws : WordSize) extends PathBlock ws where
  hdr : IpHdr
  udp : List Byte
  wf : hdr.WF
  tot_len : hdr.tot_len = hdr.bytes.length + (toPathBlock.bytes.length + udp.length)
  tot_len_lt : hdr.tot_len < 65536
  empty_lt : header.empty < 65536
  cur_lt : header.cur < 65536

namespace PathDatagram

variable (p : PathDatagram ws)

/-- The bytes of the whole datagram. -/
def datagram : List Byte := p.hdr.bytes ++ (p.bytes ++ p.udp)

/-- The datagram without its path. -/
def withoutPath : List Byte := { p.hdr with tot_len := p.hdr.bytes.length + p.udp.length }.bytes ++ p.udp

end PathDatagram

/-- After the path has been replaced by `b` in the expanded datagram, reading the path yields `b`, and removing it leaves
the UDP datagram. -/
def KeepsDatagram (env : Env ws) (skb : SkBuff) (tailroom : List Byte) (p : PathDatagram ws) (b : PathBlock ws)
    (j : List Byte) : Prop :=
  ∃ skb_new skb₁ skb₂ data,
    expanded skb tailroom (b.bytes.length - p.bytes.length) = some skb_new ∧
    skb_replacePath ws skb_new (b.bytes ++ j) b.bytes.length p.bytes.length = some (0, skb₁) ∧
    skb_getPath ws skb₁ env.path 0 SerHeader.zero = some data ∧
    data.ret = 0 ∧ data.size = b.bytes.length ∧ data.sData.take data.size = b.bytes ∧
    skb_removePath skb₁ b.bytes.length = some (0, skb₂) ∧ skb₂.datagram = p.withoutPath

/-- The path keeps its length, and the bytes that are written happen to be right. -/
structure Coincides (tailroom : List Byte) (p : PathDatagram ws) (b : PathBlock ws) : Prop where
  hops : b.path.length = p.path.length
  room : sizeof_ser_header ws ≤ p.udp.length + tailroom.length
  block : p.header.bytes ++ b.bytes.take (b.path.length * 4) = b.bytes
  udp : (b.bytes.drop (b.path.length * 4)).take p.udp.length = p.udp.take (sizeof_ser_header ws)

/-! ### The new path is written behind the old header -/

section Replace

variable {skb skb_new : SkBuff} {tailroom : List Byte} {p : PathDatagram ws} {b : PathBlock ws}

/-- The expanded datagram. -/
theorem expanded_eq (hskb : skb.datagram = p.datagram) {delta : ℕ} (hroom : delta ≤ tailroom.length) :
    ∃ skb_new, expanded skb tailroom delta = some skb_new ∧ skb_new.mem = p.datagram ++ tailroom ∧
      skb_new.len = p.datagram.length + delta := by
  have hlen : skb.len = p.datagram.length := by
    rw [← hskb, SkBuff.datagram, List.length_take, Nat.min_eq_left skb.len_le]
  unfold expanded
  by_cases hd : delta > 0
  · have hfits : skb.len + delta ≤ (skb.datagram ++ tailroom).length := by
      rw [hskb, List.length_append]
      omega
    refine ⟨⟨skb.datagram ++ tailroom, skb.len + delta, hfits⟩, ?_, ?_, ?_⟩
    · simp only [if_pos hd]
      rw [skb_put, dif_pos hfits]
    · exact congrArg (fun l => l ++ tailroom) hskb
    · exact congrArg (fun l => l + delta) hlen
  · refine ⟨⟨skb.datagram ++ tailroom, skb.len, by simp [SkBuff.datagram, skb.len_le]⟩, ?_, ?_, ?_⟩
    · simp only [if_neg hd]
    · exact congrArg (fun l => l ++ tailroom) hskb
    · show skb.len = _
      omega

/-- The three ways to make room: the UDP datagram moves to the end of a path of the new length, behind the old header. -/
theorem makeRoom (hroom : b.bytes.length - p.bytes.length ≤ tailroom.length) {i k : ℤ}
    (hi : i = (p.hdr.bytes ++ p.header.bytes).length) (hk : k = (pathBytes p.path ++ p.udp).length) :
    ∃ y t, y.length = b.path.length * 4 ∧ t.length + b.bytes.length = tailroom.length + p.bytes.length ∧
      ∀ {β : Type} (f : List Byte → Option β),
        (if b.bytes.length > p.bytes.length then
          moveDown (p.datagram ++ tailroom) (i + k + (b.bytes.length - p.bytes.length : ℤ) - 1) (i + k - 1) k.toNat >>= f
        else if b.bytes.length < p.bytes.length then
          moveUp (p.datagram ++ tailroom) i (i + (p.bytes.length - b.bytes.length : ℤ))
            (k + b.bytes.length - p.bytes.length).toNat >>= f
        else some (p.datagram ++ tailroom) >>= f) =
          f ((p.hdr.bytes ++ p.header.bytes) ++ (y ++ (p.udp ++ t))) := by
  have hmem : p.datagram ++ tailroom =
      (p.hdr.bytes ++ p.header.bytes) ++ ((pathBytes p.path ++ p.udp) ++ tailroom) := by
    simp only [PathDatagram.datagram, PathBlock.bytes, List.append_assoc]
  have hb := b.length_bytes
  have hp := p.length_bytes
  have haddrs : (pathBytes p.path).length = p.path.length * 4 := length_pathBytes p.path
  rw [hmem]
  subst hi hk
  rcases Nat.lt_trichotomy p.bytes.length b.bytes.length with hlt | heq | hgt
  · let g := tailroom.take (b.bytes.length - p.bytes.length)
    let r := tailroom.drop (b.bytes.length - p.bytes.length)
    have hg : g.length = b.bytes.length - p.bytes.length := by
      rw [List.length_take]
      omega
    have hr : r.length = tailroom.length - (b.bytes.length - p.bytes.length) := List.length_drop
    obtain ⟨y, hy, hmove⟩ := moveDown_spec (p.hdr.bytes ++ p.header.bytes) (pathBytes p.path ++ p.udp) g r
      (List.length_pos_iff.1 (by omega))
    refine ⟨y ++ pathBytes p.path, r, ?_, by omega, ?_⟩
    · rw [List.length_append]
      omega
    · intro β f
      have hcast : (b.bytes.length : ℤ) - p.bytes.length = g.length := by omega
      have htail : tailroom = g ++ r := (List.take_append_drop _ _).symm
      rw [if_pos hlt, hcast, Int.toNat_natCast, htail, bind_of_some hmove]
      simp only [List.append_assoc]
  · refine ⟨pathBytes p.path, tailroom, by omega, by omega, ?_⟩
    intro β f
    rw [if_neg (by omega), if_neg (by omega), bind_of_some rfl]
    simp only [List.append_assoc]
  · let g := (pathBytes p.path).take (p.bytes.length - b.bytes.length)
    let r := (pathBytes p.path).drop (p.bytes.length - b.bytes.length)
    have hg : g.length = p.bytes.length - b.bytes.length := by
      rw [List.length_take]
      omega
    have hr : r.length = (pathBytes p.path).length - (p.bytes.length - b.bytes.length) := List.length_drop
    obtain ⟨y, hy, hmove⟩ := moveUp_spec (p.hdr.bytes ++ p.header.bytes) g (r ++ p.udp) tailroom
      (List.length_pos_iff.1 (by omega))
    refine ⟨r, y ++ tailroom, by omega, ?_, ?_⟩
    · rw [List.length_append]
      omega
    · intro β f
      have hcast : (p.bytes.length : ℤ) - b.bytes.length = g.length := by omega
      have hcount : (((pathBytes p.path ++ p.udp).length : ℤ) + b.bytes.length - p.bytes.length).toNat =
          (r ++ p.udp).length := by
        rw [List.length_append, List.length_append]
        omega
      have hpath : pathBytes p.path = g ++ r := (List.take_append_drop _ _).symm
      rw [if_neg (by omega), if_pos hgt, hcast, hcount]
      rw [show (pathBytes p.path ++ p.udp) ++ tailroom = g ++ ((r ++ p.udp) ++ tailroom) by
        rw [hpath]
        simp only [List.append_assoc]]
      rw [bind_of_some hmove]
      simp only [List.append_assoc]

/-- The length field and the words of the IP header. -/
theorem PathDatagram.ihl_eq (p : PathDatagram ws) (t : List Byte) :
    ihl (p.hdr.bytes ++ t) = some (p.hdr.version_ihl.toNat % 16) ∧
      p.hdr.version_ihl.toNat % 16 * 4 = p.hdr.bytes.length := by
  refine ⟨IpHdr.ihl_eq p.hdr t, ?_⟩
  have hw := p.wf
  unfold IpHdr.WF at hw
  rw [IpHdr.length_bytes]
  omega

/-- The IP header after the replacement. -/
def replacedHdr (p : PathDatagram ws) (b : PathBlock ws) : IpHdr :=
  { p.hdr with tot_len := (((p.hdr.tot_len : ℤ) + ((b.bytes.length : ℤ) - p.bytes.length)) % 65536).toNat }

/-- The block is written behind the old header, over the UDP datagram; if the memory ends before, there is a fault. -/
theorem skb_replacePath_eq (hskb : skb.datagram = p.datagram)
    (hroom : b.bytes.length - p.bytes.length ≤ tailroom.length) (j : List Byte) :
    ∃ skb_new, expanded skb tailroom (b.bytes.length - p.bytes.length) = some skb_new ∧
      ∃ t, t.length + b.bytes.length = tailroom.length + p.bytes.length ∧
        (p.udp.length + t.length < sizeof_ser_header ws →
          skb_replacePath ws skb_new (b.bytes ++ j) b.bytes.length p.bytes.length = none) ∧
        (sizeof_ser_header ws ≤ p.udp.length + t.length →
          ∃ skb₁, skb_replacePath ws skb_new (b.bytes ++ j) b.bytes.length p.bytes.length = some (0, skb₁) ∧
            skb₁.mem = (replacedHdr p b).bytes ++ (p.header.bytes ++ (b.bytes ++
              (p.udp ++ t).drop (sizeof_ser_header ws))) ∧
            skb₁.len = p.datagram.length + (b.bytes.length - p.bytes.length)) := by
  obtain ⟨skb_new, hexp, hmem, hlen⟩ := expanded_eq hskb hroom
  obtain ⟨hihl, hwords⟩ := p.ihl_eq ((p.bytes ++ p.udp) ++ tailroom)
  have hsplit : skb_new.mem = p.hdr.bytes ++ ((p.bytes ++ p.udp) ++ tailroom) := by
    rw [hmem, PathDatagram.datagram, List.append_assoc]
  have hb := b.length_bytes
  have hp := p.length_bytes
  have htot := p.tot_len
  obtain ⟨y, t, hy, ht, hmove⟩ := makeRoom (p := p) (b := b) hroom
    (i := ((p.hdr.version_ihl.toNat % 16 * 4 : ℕ) : ℤ) + sizeof_ser_header ws)
    (k := (p.hdr.tot_len : ℤ) - (p.hdr.version_ihl.toNat % 16 * 4 : ℕ) - sizeof_ser_header ws)
    (by rw [List.length_append, SerHeader.length_bytes]; omega)
    (by rw [List.length_append, length_pathBytes]; omega)
  rw [← hmem] at hmove
  have hdatagram : p.datagram.length = p.hdr.tot_len := by
    simp only [PathDatagram.datagram, List.length_append]
    omega
  have hpre : (p.hdr.bytes ++ p.header.bytes).length = p.hdr.bytes.length + sizeof_ser_header ws := by
    rw [List.length_append, SerHeader.length_bytes]
  have hload : loadBe16 skb_new.mem 2 = some p.hdr.tot_len := by
    rw [hsplit]
    exact IpHdr.load_tot_len p.tot_len_lt _
  have hpointer : skb_header_pointer skb_new
      (((p.hdr.version_ihl.toNat % 16 * 4 : ℕ) : ℤ) + sizeof_ser_header ws)
      ((p.hdr.tot_len : ℤ) - (p.hdr.version_ihl.toNat % 16 * 4 : ℕ) - sizeof_ser_header ws) =
        some (((p.hdr.version_ihl.toNat % 16 * 4 : ℕ) : ℤ) + sizeof_ser_header ws) := by
    rw [skb_header_pointer, if_pos (by omega)]
  refine ⟨skb_new, hexp, t, ht, ?_⟩
  unfold skb_replacePath
  rw [hsplit] at hload ⊢
  rw [bind_of_some hihl, bind_of_some hload]
  dsimp only
  rw [hpointer]
  dsimp only
  rw [← hsplit, hmove]
  constructor
  · intro hshort
    have hcopy : memcpy ((p.hdr.bytes ++ p.header.bytes) ++ (y ++ (p.udp ++ t)))
        (((p.hdr.version_ihl.toNat % 16 * 4 : ℕ) : ℤ) + sizeof_ser_header ws) (b.bytes ++ j) 0 b.bytes.length = none := by
      have hread : Bytes.read (b.bytes ++ j) 0 b.bytes.length = some b.bytes :=
        read_eq (a := []) (b := b.bytes) (c := j) rfl rfl rfl
      rw [memcpy, bind_of_some hread, Bytes.write, if_neg]
      simp only [List.length_append, SerHeader.length_bytes]
      omega
    rw [hcopy]
    rfl
  · intro hfits
    have hrest : (p.udp ++ t) = (p.udp ++ t).take (sizeof_ser_header ws) ++ (p.udp ++ t).drop (sizeof_ser_header ws) :=
      (List.take_append_drop _ _).symm
    have htake : ((p.udp ++ t).take (sizeof_ser_header ws)).length = sizeof_ser_header ws := by
      rw [List.length_take, List.length_append]
      omega
    have hcopy : memcpy ((p.hdr.bytes ++ p.header.bytes) ++ (y ++ (p.udp ++ t)))
        (((p.hdr.version_ihl.toNat % 16 * 4 : ℕ) : ℤ) + sizeof_ser_header ws) (b.bytes ++ j) 0 b.bytes.length =
          some (p.hdr.bytes ++ (p.header.bytes ++ (b.bytes ++ (p.udp ++ t).drop (sizeof_ser_header ws)))) := by
      have hwhole : (p.hdr.bytes ++ p.header.bytes) ++ (y ++ (p.udp ++ t)) = (p.hdr.bytes ++ p.header.bytes) ++
          ((y ++ (p.udp ++ t).take (sizeof_ser_header ws)) ++ (p.udp ++ t).drop (sizeof_ser_header ws)) := by
        rw [List.append_assoc y, ← hrest]
      have hlength : b.bytes.length = (y ++ (p.udp ++ t).take (sizeof_ser_header ws)).length := by
        rw [List.length_append]
        omega
      have hsrc : b.bytes ++ j = [] ++ (b.bytes ++ j) := rfl
      have hzero : (0 : ℤ) = (([] : List Byte).length : ℤ) := rfl
      rw [memcpy_eq hwhole (by omega) hsrc hzero rfl hlength]
      simp only [List.append_assoc]
    rw [bind_of_some hcopy, bind_of_some (IpHdr.load_tot_len p.tot_len_lt _), bind_of_some (IpHdr.store_tot_len _ _ _)]
    have hkeep : skb_new.len ≤ ((replacedHdr p b).bytes ++ (p.header.bytes ++ (b.bytes ++
        (p.udp ++ t).drop (sizeof_ser_header ws)))).length := by
      have hhdr : (replacedHdr p b).bytes.length = p.hdr.bytes.length := rfl
      simp only [List.length_append, List.length_drop, SerHeader.length_bytes, hhdr]
      omega
    exact ⟨⟨_, skb_new.len, hkeep⟩, bind_of_some (dif_pos hkeep) _, rfl, hlen⟩

end Replace

/-! ### Reading and removing the path -/

section Remove

variable {skb : SkBuff} {h : IpHdr}

/-- The path read is that behind the IP header. -/
theorem skb_getPath_eq (env : Env ws) {s : SerHeader ws} {x : List Byte} (hw : h.WF)
    (hmem : skb.mem = h.bytes ++ (s.bytes ++ x)) (hlen : h.bytes.length ≤ skb.len) (hx : s.hops * 4 ≤ x.length)
    (hfits : SerHeader.size s ≤ 65536) (he : s.empty < 65536) (hh : s.hops < 65536) (hc : s.cur < 65536) :
    ∃ data, skb_getPath ws skb env.path 0 SerHeader.zero = some data ∧ data.ret = 0 ∧ data.size = SerHeader.size s ∧
      data.sData.take data.size = s.bytes ++ x.take (s.hops * 4) := by
  have hwords : h.version_ihl.toNat % 16 * 4 = h.bytes.length := by
    unfold IpHdr.WF at hw
    rw [IpHdr.length_bytes]
    omega
  have hsize : SerHeader.size s = s.bytes.length + s.hops * 4 := by
    rw [SerHeader.length_bytes, SerHeader.size, ip_v4_size, Nat.add_comm]
  have hheader : pathHeader ws skb = some (h.version_ihl.toNat % 16, s) := by
    unfold pathHeader
    rw [hmem, bind_of_some (IpHdr.ihl_eq h _), hwords, bind_of_some (loadSerHeader_eq h.bytes x he hh hc)]
    rfl
  have hread : Readable skb (h.version_ihl.toNat % 16) s := by
    refine ⟨?_, hfits⟩
    rw [hwords, hmem, hsize]
    simp only [List.length_append]
    omega
  obtain ⟨data, hget, hsame, hcopied⟩ := skb_getPath_of_readable env hheader (by omega) hread
  obtain ⟨r, hr⟩ := hcopied.block
  have hds : data.size = SerHeader.size s := by rw [hcopied.size, hsame]
  have hdrop : skb.mem.drop (h.version_ihl.toNat % 16 * 4) = s.bytes ++ x := by rw [hwords, hmem, List.drop_left]
  have htake : (s.bytes ++ x).take (SerHeader.size s) = s.bytes ++ x.take (s.hops * 4) := by
    rw [hsize, List.take_length_add_append]
  refine ⟨data, hget, hcopied.ret, hds, ?_⟩
  rw [hr, hdrop, hds, htake, List.take_append_of_le_length, List.take_of_length_le]
  · rw [hsize, List.length_append, List.length_take]
    omega
  · rw [hsize, List.length_append, List.length_take]
    omega

/-- The block behind the IP header is removed. -/
theorem skb_removePath_eq {g xs r : List Byte} (hw : h.WF) (ht : h.tot_len < 65536)
    (hmem : skb.mem = h.bytes ++ (g ++ (xs ++ r))) (hg : g ≠ [])
    (hlen : skb.len = h.bytes.length + (g.length + xs.length)) :
    ∃ skb₂, skb_removePath skb g.length = some (0, skb₂) ∧ skb₂.datagram =
      { h with tot_len := (((h.tot_len : ℤ) - g.length) % 65536).toNat }.bytes ++ xs := by
  have hwords : h.version_ihl.toNat % 16 * 4 = h.bytes.length := by
    unfold IpHdr.WF at hw
    rw [IpHdr.length_bytes]
    omega
  have hihl : ihl skb.mem = some (h.version_ihl.toNat % 16) := by rw [hmem, IpHdr.ihl_eq]
  obtain ⟨y, hy, hmove⟩ := moveUp_spec h.bytes g xs r hg
  have hcount : (((skb.len : ℤ) - h.bytes.length) - g.length).toNat = xs.length := by omega
  let h' : IpHdr := { h with tot_len := (((h.tot_len : ℤ) - g.length) % 65536).toNat }
  have hbytes : h'.bytes.length = h.bytes.length := rfl
  have hkeep : skb.len ≤ (h'.bytes ++ (xs ++ (y ++ r))).length := by
    simp only [List.length_append]
    omega
  have hpos : 0 < g.length := List.length_pos_iff.2 hg
  unfold skb_removePath
  rw [bind_of_some hihl, hwords]
  dsimp only
  rw [if_neg (by omega), skb_header_pointer, if_pos (by omega)]
  dsimp only
  rw [hcount, hmem, bind_of_some hmove, bind_of_some (IpHdr.load_tot_len ht _), bind_of_some (IpHdr.store_tot_len _ _ _)]
  have hmem' : skb.withMem (h'.bytes ++ (xs ++ (y ++ r))) = some ⟨_, skb.len, hkeep⟩ := dif_pos hkeep
  refine ⟨_, bind_of_some hmem' _, ?_⟩
  have hcut : skb.len - g.length = (h'.bytes ++ xs).length := by
    rw [List.length_append]
    omega
  unfold SkBuff.datagram
  rw [skb_trim, dif_pos (by show skb.len - g.length < skb.len; omega)]
  show (h'.bytes ++ (xs ++ (y ++ r))).take (skb.len - g.length) = h'.bytes ++ xs
  rw [hcut, ← List.append_assoc, List.take_left]

end Remove

/-! ### When the datagram is kept -/

/-- Writing `k` over the first elements of `u ++ t` changes nothing of `u` if these are the elements of `k`. -/
theorem overwrite_eq_iff {α : Type*} (k u t : List α) :
    (k ++ (u ++ t).drop k.length).take u.length = u ↔ k.take u.length = u.take k.length := by
  rcases Nat.le_total u.length k.length with hle | hle
  · rw [List.take_append_of_le_length hle, List.take_of_length_le hle]
  · have hu : u = u.take k.length ++ u.drop k.length := (List.take_append_drop _ _).symm
    have hlen : (k ++ u.drop k.length).length = u.length := by
      rw [List.length_append, List.length_drop]
      omega
    rw [List.drop_append_of_le_length hle, ← List.append_assoc, ← hlen, List.take_left, hlen,
      List.take_of_length_le hle]
    constructor
    · intro h
      rw [hu] at h
      exact (List.append_inj h (by rw [List.length_take]; omega)).1
    · intro h
      exact (congrArg (fun l => l ++ u.drop k.length) h).trans hu.symm

section Keeps

variable {skb : SkBuff} {tailroom : List Byte} {p : PathDatagram ws} {b : PathBlock ws} (env : Env ws)

theorem length_replacedHdr : (replacedHdr p b).bytes.length = p.hdr.bytes.length := by
  rw [IpHdr.length_bytes, IpHdr.length_bytes, replacedHdr]

theorem PathDatagram.size_header (p : PathDatagram ws) : SerHeader.size p.header = p.bytes.length := by
  rw [PathBlock.length_bytes, SerHeader.size, p.hops, ip_v4_size, Nat.add_comm]

/-- What is read and what remains after a replacement by a path of the same length. -/
theorem replace_same_length {skb₁ : SkBuff} {t : List Byte} (hops : b.path.length = p.path.length)
    (hmem : skb₁.mem = (replacedHdr p b).bytes ++ (p.header.bytes ++ (b.bytes ++
      (p.udp ++ t).drop (sizeof_ser_header ws))))
    (hlen : skb₁.len = p.datagram.length) (hroom : sizeof_ser_header ws ≤ p.udp.length + t.length) :
    ∃ skb₂, skb_removePath skb₁ b.bytes.length = some (0, skb₂) ∧
      (skb₂.datagram = p.withoutPath ↔
        (b.bytes.drop (b.path.length * 4)).take p.udp.length = p.udp.take (sizeof_ser_header ws)) := by
  have hb := b.length_bytes
  have hp := p.length_bytes
  have htot := p.tot_len
  have hlt := p.tot_len_lt
  obtain ⟨k, hdrop⟩ : ∃ k, b.bytes.drop (b.path.length * 4) = k := ⟨_, rfl⟩
  have hk : k.length = sizeof_ser_header ws := by
    rw [← hdrop, List.length_drop]
    omega
  let g := p.header.bytes ++ b.bytes.take (b.path.length * 4)
  have hg : g.length = b.bytes.length := by
    rw [List.length_append, SerHeader.length_bytes, List.length_take]
    omega
  let xs := (k ++ (p.udp ++ t).drop k.length).take p.udp.length
  let r := (k ++ (p.udp ++ t).drop k.length).drop p.udp.length
  have hxs : xs.length = p.udp.length := by
    rw [List.length_take, List.length_append, List.length_drop, List.length_append]
    omega
  have hsplit : skb₁.mem = (replacedHdr p b).bytes ++ (g ++ (xs ++ r)) := by
    have hblock : b.bytes = b.bytes.take (b.path.length * 4) ++ k := by rw [← hdrop, List.take_append_drop]
    have hrest : xs ++ r = k ++ (p.udp ++ t).drop k.length := List.take_append_drop _ _
    rw [hmem, hrest, hk]
    conv_lhs => rw [hblock]
    simp only [g, List.append_assoc]
  have hdatagram : p.datagram.length = p.hdr.tot_len := by
    simp only [PathDatagram.datagram, List.length_append]
    omega
  have hreplaced : (replacedHdr p b).tot_len = p.hdr.tot_len := by
    show (((p.hdr.tot_len : ℤ) + ((b.bytes.length : ℤ) - p.bytes.length)) % 65536).toNat = p.hdr.tot_len
    omega
  obtain ⟨skb₂, hrem, hdg⟩ := skb_removePath_eq (h := replacedHdr p b) p.wf (by omega) hsplit
    (List.length_pos_iff.1 (by unfold sizeof_ser_header at hb; omega)) (by rw [length_replacedHdr]; omega)
  rw [hg] at hrem hdg
  refine ⟨skb₂, hrem, ?_⟩
  have hhdr : ({ replacedHdr p b with
      tot_len := (((replacedHdr p b).tot_len : ℤ) - b.bytes.length) % 65536 |>.toNat } : IpHdr) =
      { p.hdr with tot_len := p.hdr.bytes.length + p.udp.length } := by
    have h : (((p.hdr.tot_len : ℤ) - b.bytes.length) % 65536).toNat = p.hdr.bytes.length + p.udp.length := by omega
    rw [hreplaced, h]
    rfl
  rw [hdg, hhdr, PathDatagram.withoutPath, List.append_cancel_left_eq, hdrop, ← hk]
  exact overwrite_eq_iff k p.udp t

/-- The path that is read is that of the old header. -/
theorem getPath_replaced {skb₁ : SkBuff} {t : List Byte}
    (hmem : skb₁.mem = (replacedHdr p b).bytes ++ (p.header.bytes ++ (b.bytes ++
      (p.udp ++ t).drop (sizeof_ser_header ws))))
    (hlen : skb₁.len = p.datagram.length + (b.bytes.length - p.bytes.length))
    (ht : t.length + b.bytes.length = tailroom.length + p.bytes.length)
    (hle : sizeof_ser_header ws ≤ p.udp.length + t.length) :
    ∃ data, skb_getPath ws skb₁ env.path 0 SerHeader.zero = some data ∧ data.ret = 0 ∧
      data.size = p.bytes.length ∧ (b.path.length = p.path.length →
        data.sData.take data.size = p.header.bytes ++ b.bytes.take (b.path.length * 4)) := by
  have hb := b.length_bytes
  have hp := p.length_bytes
  have htot := p.tot_len
  have hlt := p.tot_len_lt
  have hhops := p.hops
  have hsize := p.size_header
  have hstart : (replacedHdr p b).bytes.length ≤ skb₁.len := by
    rw [hlen, length_replacedHdr, PathDatagram.datagram, List.length_append]
    omega
  have hroom : p.header.hops * 4 ≤ (b.bytes ++ (p.udp ++ t).drop (sizeof_ser_header ws)).length := by
    rw [List.length_append, List.length_drop, List.length_append]
    omega
  obtain ⟨data, hget, hret, hds, hblock⟩ := skb_getPath_eq env (h := replacedHdr p b) p.wf hmem hstart hroom
    (by omega) p.empty_lt (by omega) p.cur_lt
  refine ⟨data, hget, hret, by omega, ?_⟩
  intro hops
  rw [hblock, hhops, ← hops, List.take_append_of_le_length (by omega)]

variable {env} in
theorem KeepsDatagram.coincides (hskb : skb.datagram = p.datagram)
    (hroom : b.bytes.length - p.bytes.length ≤ tailroom.length) {j : List Byte}
    (hkeeps : KeepsDatagram env skb tailroom p b j) : Coincides tailroom p b := by
  have hb := b.length_bytes
  have hp := p.length_bytes
  obtain ⟨skb_new, hexp, t, ht, hshort, hfits⟩ := skb_replacePath_eq hskb hroom j
  obtain ⟨new', skb₁, skb₂, data, hexp', hrep, hget, -, hds, hblock, hrem, hdg⟩ := hkeeps
  rw [hexp] at hexp'
  cases hexp'
  by_cases hle : sizeof_ser_header ws ≤ p.udp.length + t.length
  · obtain ⟨skb₁', hrep', hmem, hlen⟩ := hfits hle
    rw [hrep] at hrep'
    cases hrep'
    obtain ⟨data', hget', -, hds', hblock'⟩ := getPath_replaced env hmem hlen ht hle
    rw [hget] at hget'
    cases hget'
    have hops : b.path.length = p.path.length := by omega
    obtain ⟨skb₂', hrem', hiff⟩ := replace_same_length hops hmem (by omega) hle
    rw [hrem] at hrem'
    cases hrem'
    exact ⟨hops, by omega, (hblock' hops).symm.trans hblock, hiff.1 hdg⟩
  · rw [hshort (by omega)] at hrep
    cases hrep

theorem Coincides.keepsDatagram (hskb : skb.datagram = p.datagram)
    (hroom : b.bytes.length - p.bytes.length ≤ tailroom.length) (j : List Byte) (h : Coincides tailroom p b) :
    KeepsDatagram env skb tailroom p b j := by
  have hb := b.length_bytes
  have hp := p.length_bytes
  obtain ⟨hops, hle, hblock, hudp⟩ := h
  obtain ⟨skb_new, hexp, t, ht, -, hfits⟩ := skb_replacePath_eq hskb hroom j
  have hle' : sizeof_ser_header ws ≤ p.udp.length + t.length := by omega
  obtain ⟨skb₁, hrep, hmem, hlen⟩ := hfits hle'
  obtain ⟨data, hget, hret, hds, hblock'⟩ := getPath_replaced env hmem hlen ht hle'
  obtain ⟨skb₂, hrem, hiff⟩ := replace_same_length hops hmem (by omega) hle'
  exact ⟨skb_new, skb₁, skb₂, data, hexp, hrep, hget, hret, by omega, (hblock' hops).trans hblock, hrem, hiff.2 hudp⟩

/-- Replacing the path keeps the datagram only if the new path has the length of the old one, the memory does not end
before, and the bytes that are overwritten are equal to those written. -/
theorem keepsDatagram_iff (hskb : skb.datagram = p.datagram)
    (hroom : b.bytes.length - p.bytes.length ≤ tailroom.length) (j : List Byte) :
    KeepsDatagram env skb tailroom p b j ↔ Coincides tailroom p b :=
  ⟨KeepsDatagram.coincides hskb hroom, Coincides.keepsDatagram env hskb hroom j⟩

end Keeps

/-! ### Two datagrams -/

/-- A datagram with an address in its path, whose UDP datagram repeats the bytes of the header and of the new path. -/
def echoDatagram : PathDatagram .ilp32 where
  header := { version := MPOLSR_VERSION, protocol := IPPROTO_UDP, empty := 0, hops := 1, cur := 1, first_node := 3072 }
  path := [9]
  hops := rfl
  hdr := { version_ihl := 0x45, tos := 0, tot_len := 48, id := 1, frag_off := 0, ttl := 64, protocol := IPPROTO_MPOLSR,
           check := 0, saddr := 3072, daddr := 9, options := [] }
  udp := [0, 1, 0, 1, 0, 12, 0, 0, 1, 17, 0, 0]
  wf := rfl
  tot_len := rfl
  tot_len_lt := by decide
  empty_lt := by decide
  cur_lt := by decide

/-- A datagram on the way from the node 10 over 2 and 5 to 3. -/
def wayDatagram : PathDatagram .ilp32 where
  header := { version := MPOLSR_VERSION, protocol := IPPROTO_UDP, empty := 0, hops := 3, cur := 1, first_node := 10 }
  path := [2, 5, 3]
  hops := rfl
  hdr := { version_ihl := 0x45, tos := 0, tot_len := 53, id := 1, frag_off := 0, ttl := 64, protocol := IPPROTO_MPOLSR,
           check := 0, saddr := 10, daddr := 2, options := [] }
  udp := strayUdp.bytes ++ [65]
  wf := rfl
  tot_len := rfl
  tot_len_lt := by decide
  empty_lt := by decide
  cur_lt := by decide

def PathDatagram.skb (p : PathDatagram ws) : SkBuff := ⟨p.datagram, p.datagram.length, Nat.le_of_eq rfl⟩

theorem PathDatagram.skb_datagram (p : PathDatagram ws) : p.skb.datagram = p.datagram := List.take_length

theorem keepsDatagram_demo :
    KeepsDatagram quietEnv echoDatagram.skb [] echoDatagram (foundBlock echoDatagram.header [4353]) [] :=
  (keepsDatagram_iff quietEnv echoDatagram.skb_datagram (by decide) []).2 ⟨rfl, by decide, by decide, by decide⟩

/-- The node 2 has no link to 5, but one to 4. -/
def detourNode : Node .ilp32 where
  local_addr := 2
  g_local_links := [⟨4, 4⟩]
  find_path := fun src dst => if src = 2 ∧ dst = 3 then some (⟨2, @pathBytes .ilp32 [4, 3]⟩, true) else none

/-- The path found by the node 2 is not what is read after the replacement. -/
theorem detour_spoils :
    pth_find_datagram_path detourNode (List.replicate 20 0) 0 2 3 0 wayDatagram.header =
      some ⟨0, (foundBlock wayDatagram.header [4, 3]).bytes, 20, 4⟩ ∧
    ¬ KeepsDatagram quietEnv wayDatagram.skb [] wayDatagram (foundBlock wayDatagram.header [4, 3]) [] := by
  constructor
  · rfl
  · intro h
    have hops := (h.coincides wayDatagram.skb_datagram (by decide)).hops
    exact absurd hops (by decide)

end MpOlsr.Kernel
