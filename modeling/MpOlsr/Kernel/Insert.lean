import MpOlsr.Kernel.Replace

/-!
# Inserting a path

`skb_addPath` moves the payload to the end of the datagram and copies a block of any kind into the gap.  With room for
the block, `skb_getPath` reads it back and `skb_removePath` restores the datagram (`addPath_roundTrip`).
-/

namespace MpOlsr.Kernel

open Buffer Bytes Fault IpPacket

variable {ws : WordSize}

/-- Insert the first `size` bytes of `sData` behind the IP header.  The payload ends where `tot_len` says, and the room
is that of `skb->len`. -/
def skb_addPath (skb : SkBuff) (sData : List Byte) (size : ℕ) : Option (ℤ × SkBuff) := do
  let n ← ihl skb.mem
  let tot_len ← loadBe16 skb.mem 2
  let payload_offset : ℤ := (n * 4 : ℕ)
  let payload_size : ℤ := tot_len - (n * 4 : ℕ)
  if payload_offset + payload_size > skb.len ∨ payload_size < 0 ∨ payload_offset + payload_size + size > skb.len then
    return (-1, skb)
  else
    let some payload := skb_header_pointer skb payload_offset payload_size | return (-1, skb)
    let mem ← moveDown skb.mem (payload + payload_size + size - 1) (payload + payload_size - 1) payload_size.toNat
    let mem ← memcpy mem payload sData 0 size
    let tot_len ← loadBe16 mem 2
    let mem ← storeBe16 mem 2 ((tot_len + size) % 65536)
    let skb ← skb.withMem mem
    return (0, skb)

/-- An IP packet. -/
structure IpDatagram where
  hdr : IpHdr
  payload : List Byte
  wf : hdr.WF
  tot_len : hdr.tot_len = hdr.bytes.length + payload.length

namespace IpDatagram

variable (p : IpDatagram)

def bytes : List Byte := p.hdr.bytes ++ p.payload

theorem length_bytes : p.bytes.length = p.hdr.tot_len := by
  rw [bytes, List.length_append, p.tot_len]

theorem words : p.hdr.version_ihl.toNat % 16 * 4 = p.hdr.bytes.length := by
  have hw := p.wf
  unfold IpHdr.WF at hw
  rw [IpHdr.length_bytes]
  omega

end IpDatagram

section AddPath

variable {skb : SkBuff} {p : IpDatagram} {k j g r : List Byte}

/-- The block takes the place of the gap `g` behind the packet. -/
theorem skb_addPath_eq (hmem : skb.mem = p.bytes ++ (g ++ r)) (hg : g ≠ []) (hk : k.length = g.length)
    (hroom : p.hdr.tot_len + k.length ≤ skb.len) (htot : p.hdr.tot_len + k.length < 65536) :
    ∃ skb₁, skb_addPath skb (k ++ j) k.length = some (0, skb₁) ∧
      skb₁.mem = { p.hdr with tot_len := p.hdr.tot_len + k.length }.bytes ++ (k ++ (p.payload ++ r)) ∧
      skb₁.len = skb.len := by
  have htl := p.tot_len
  obtain ⟨y, hy, hmove⟩ := moveDown_spec p.hdr.bytes p.payload g r hg
  have hsplit : skb.mem = p.hdr.bytes ++ (p.payload ++ (g ++ r)) := by rw [hmem, IpDatagram.bytes, List.append_assoc]
  have hihl : ihl skb.mem = some (p.hdr.version_ihl.toNat % 16) := by rw [hsplit, IpHdr.ihl_eq]
  have hload : loadBe16 skb.mem 2 = some p.hdr.tot_len := by rw [hsplit, IpHdr.load_tot_len (by omega)]
  have hsize : (p.hdr.tot_len : ℤ) - p.hdr.bytes.length = p.payload.length := by omega
  have hcopy : memcpy (p.hdr.bytes ++ (y ++ (p.payload ++ r))) p.hdr.bytes.length (k ++ j) 0 k.length =
      some (p.hdr.bytes ++ (k ++ (p.payload ++ r))) :=
    memcpy_eq (e := []) (f := j) rfl rfl rfl rfl rfl (by omega)
  have hload' := IpHdr.load_tot_len (h := p.hdr) (by omega) (k ++ (p.payload ++ r))
  have hstore := IpHdr.store_tot_len p.hdr (k ++ (p.payload ++ r)) (p.hdr.tot_len + k.length)
  let h' : IpHdr := { p.hdr with tot_len := p.hdr.tot_len + k.length }
  have hkeep : skb.len ≤ (h'.bytes ++ (k ++ (p.payload ++ r))).length := by
    have hbytes : h'.bytes.length = p.hdr.bytes.length := rfl
    have hle := skb.len_le
    rw [hsplit] at hle
    simp only [List.length_append] at hle ⊢
    omega
  have hput : skb.withMem (h'.bytes ++ (k ++ (p.payload ++ r))) = some ⟨_, skb.len, hkeep⟩ := dif_pos hkeep
  refine ⟨⟨_, skb.len, hkeep⟩, ?_, rfl, rfl⟩
  unfold skb_addPath
  rw [bind_of_some hihl, bind_of_some hload, p.words]
  dsimp only
  rw [if_neg (by omega), skb_header_pointer, if_pos (by omega)]
  dsimp only
  rw [hsize, Int.toNat_natCast, hsplit, hk, bind_of_some hmove, ← hk, bind_of_some hcopy, bind_of_some hload',
    Nat.mod_eq_of_lt htot, bind_of_some hstore, bind_of_some hput]
  rfl

end AddPath

/-- The block behind the IP header is read, whatever the buffers contain. -/
theorem skb_getPath_block {skb : SkBuff} {h : IpHdr} {b : PathBlock ws} {x : List Byte} (hw : h.WF)
    (hmem : skb.mem = h.bytes ++ (b.bytes ++ x)) (hlen : h.bytes.length ≤ skb.len) (he : b.header.empty < 65536)
    (hc : b.header.cur < 65536) (hh : b.header.hops < 65536) {sData : List Byte} (hbuf : b.bytes.length ≤ sData.length)
    (size : ℕ) (pheader : SerHeader ws) :
    skb_getPath ws skb sData size pheader =
      some ⟨0, b.bytes ++ sData.drop b.bytes.length, b.bytes.length, b.header⟩ := by
  have hwords : h.version_ihl.toNat % 16 * 4 = h.bytes.length := by
    unfold IpHdr.WF at hw
    rw [IpHdr.length_bytes]
    omega
  have hihl : ihl skb.mem = some (h.version_ihl.toNat % 16) := by rw [hmem, IpHdr.ihl_eq]
  have hheader : loadSerHeader ws skb.mem h.bytes.length = some b.header := by
    rw [hmem, PathBlock.bytes, List.append_assoc]
    exact loadSerHeader_eq h.bytes (pathBytes b.path ++ x) he hh hc
  have hsize : b.header.hops * ip_v4_size + sizeof_ser_header ws = b.bytes.length := by
    rw [b.length_bytes, b.hops, ip_v4_size, Nat.add_comm]
  have hcopy : memcpy sData 0 skb.mem h.bytes.length b.bytes.length = some (b.bytes ++ sData.drop b.bytes.length) :=
    memcpy_eq (a := []) (b := sData.take b.bytes.length) (List.take_append_drop _ _).symm rfl hmem rfl rfl
      (by rw [List.length_take]; omega)
  unfold skb_getPath
  rw [bind_of_some hihl, hwords]
  dsimp only
  rw [if_neg (by omega), skb_header_pointer, if_pos (by omega)]
  dsimp only
  rw [bind_of_some hheader, hsize, bind_of_some hcopy]
  rfl

theorem skb_put_eq {skb₀ skb : SkBuff} {len : ℕ} (h : skb_put skb₀ len = some skb) :
    skb.mem = skb₀.mem ∧ skb.len = skb₀.len + len := by
  unfold skb_put at h
  split at h
  · cases h
    exact ⟨rfl, rfl⟩
  · cases h

/-- The block that is inserted into a packet with room for it is read back and removed again. -/
theorem addPath_roundTrip (p : IpDatagram) (b : PathBlock ws) (he : b.header.empty < 65536)
    (hc : b.header.cur < 65536) {skb₀ skb : SkBuff} {t : List Byte} (hmem : skb₀.mem = p.bytes ++ t)
    (hlen : p.hdr.tot_len ≤ skb₀.len) (hput : skb_put skb₀ b.bytes.length = some skb)
    (htot : p.hdr.tot_len + b.bytes.length < 65536) (j : List Byte) {sData : List Byte}
    (hbuf : b.bytes.length ≤ sData.length) (size : ℕ) (pheader : SerHeader ws) :
    ∃ skb₁ skb₂ t', skb_addPath skb (b.bytes ++ j) b.bytes.length = some (0, skb₁) ∧
      skb_getPath ws skb₁ sData size pheader =
        some ⟨0, b.bytes ++ sData.drop b.bytes.length, b.bytes.length, b.header⟩ ∧
      skb_removePath skb₁ b.bytes.length = some (0, skb₂) ∧ skb₂.datagram = p.bytes ++ t' ∧ skb₂.len = skb₀.len := by
  have hpos : 0 < b.bytes.length := by
    rw [b.length_bytes, sizeof_ser_header]
    omega
  have hb : b.bytes ≠ [] := List.length_pos_iff.1 hpos
  obtain ⟨hput_mem, hput_len⟩ := skb_put_eq hput
  have hfits := skb.len_le
  rw [hput_mem, hmem, List.length_append] at hfits
  have hplen := p.length_bytes
  have htl := p.tot_len
  -- the gap, and the bytes of the datagram that follow the packet
  let g := t.take b.bytes.length
  let u := (t.drop b.bytes.length).take (skb₀.len - p.hdr.tot_len)
  let r := (t.drop b.bytes.length).drop (skb₀.len - p.hdr.tot_len)
  have ht : t = g ++ (u ++ r) := by rw [List.take_append_drop, List.take_append_drop]
  have hg : g.length = b.bytes.length := by
    rw [List.length_take]
    omega
  have hu : u.length = skb₀.len - p.hdr.tot_len := by
    rw [List.length_take, List.length_drop]
    omega
  have hsplit : skb.mem = p.bytes ++ (g ++ (u ++ r)) := by rw [hput_mem, hmem, ← ht]
  obtain ⟨skb₁, hadd, hmem₁, hlen₁⟩ := skb_addPath_eq (j := j) hsplit (List.length_pos_iff.1 (by omega)) hg.symm
    (by omega) htot
  let h' : IpHdr := { p.hdr with tot_len := p.hdr.tot_len + b.bytes.length }
  have hw' : h'.WF := p.wf
  have hhops : b.header.hops < 65536 := by
    have := b.length_bytes
    have := b.hops
    omega
  have hbytes : h'.bytes.length = p.hdr.bytes.length := rfl
  have hget := skb_getPath_block hw' hmem₁ (by omega) he hc hhops hbuf size pheader
  have hsplit₁ : skb₁.mem = h'.bytes ++ (b.bytes ++ ((p.payload ++ u) ++ r)) := by rw [hmem₁, List.append_assoc]
  obtain ⟨skb₂, hremove, hdatagram⟩ := skb_removePath_eq hw' htot hsplit₁ hb (by rw [List.length_append]; omega)
  have htot' : (((h'.tot_len : ℤ) - b.bytes.length) % 65536).toNat = p.hdr.tot_len := by
    have hh' : h'.tot_len = p.hdr.tot_len + b.bytes.length := rfl
    omega
  have hresult : skb₂.datagram = p.bytes ++ u := by
    rw [hdatagram, htot', IpDatagram.bytes, List.append_assoc]
  refine ⟨skb₁, skb₂, u, hadd, hget, hremove, hresult, ?_⟩
  have hlength := congrArg List.length hresult
  rw [SkBuff.datagram, List.length_take, Nat.min_eq_left skb₂.len_le, List.length_append] at hlength
  omega

/-- A UDP datagram without data. -/
def plainDatagram : IpDatagram where
  hdr := { version_ihl := 0x45, tos := 0, tot_len := 28, id := 7, frag_off := 0, ttl := 64, protocol := IPPROTO_UDP,
           check := 0, saddr := 0x0100000A, daddr := 0x0200000A, options := [] }
  payload := strayUdp.bytes
  wf := rfl
  tot_len := rfl

/-- The datagram in a buffer with room for a header and one address. -/
def plainSkb (len : ℕ) (h : len ≤ (plainDatagram.bytes ++ List.replicate 16 0).length) : SkBuff :=
  ⟨plainDatagram.bytes ++ List.replicate 16 0, len, h⟩

theorem addPath_roundTrip_demo :
    ∃ skb₁ skb₂ t', skb_addPath (plainSkb 44 (by decide)) ((foundBlock strayHeader [4353]).bytes ++ []) 16 =
        some (0, skb₁) ∧
      skb_getPath .ilp32 skb₁ (List.replicate 16 0) 0 SerHeader.zero =
        some ⟨0, (foundBlock strayHeader [4353]).bytes ++ [], 16, (foundBlock strayHeader [4353]).header⟩ ∧
      skb_removePath skb₁ 16 = some (0, skb₂) ∧ skb₂.datagram = plainDatagram.bytes ++ t' ∧ skb₂.len = 28 :=
  addPath_roundTrip plainDatagram (foundBlock strayHeader [4353]) (by decide) (by decide)
    (show (plainSkb 28 (by decide)).mem = plainDatagram.bytes ++ List.replicate 16 0 from rfl) (by decide) rfl
    (by decide) [] (by decide) 0 SerHeader.zero

end MpOlsr.Kernel
