import MpOlsr.Routing.Layout

/-!
# Inserting, replacing and removing a header

On a UDP datagram, removing the header that was inserted gives the datagram back up to its checksums, and replacing it
gives what inserting the other header gives, with `unsigned long`s of 32 bits.  A method that refuses leaves the output
buffer alone, on every input.
-/

namespace MpOlsr

open Buffer Bytes Fault IpPacket MpOlsrPacket

/-- Construct the object and call `removeMpOlsrHeader`, which refuses if there is no header. -/
def MpOlsrPacket.remove (ws : WordSize) (iph newBuffer : List Byte) (bufferSize : ℤ) : Option (Bool × List Byte) := do
  let ser_header_ ← MpOlsrPacket.new ws iph
  ser_header_.elim (some (false, newBuffer)) fun ser_header_ =>
    removeMpOlsrHeader ws iph ser_header_ newBuffer bufferSize

/-- An IPv4 packet filled by a UDP datagram. -/
structure UdpPacket where
  hdr : IpHdr
  udp : UdpHdr
  data : List Byte
  wf : hdr.WF
  udp_len : udp.len = 8 + data.length
  tot_len : hdr.tot_len = hdr.bytes.length + (8 + data.length)

def UdpPacket.bytes (p : UdpPacket) : List Byte := p.hdr.bytes ++ (p.udp.bytes ++ p.data)

/-- A header for a packet, with its path. -/
structure HeaderBlock (p : UdpPacket) where
  header : SerHeader .ilp32
  path : List (ip_v4_addr .ilp32)
  hops : header.hops = path.length
  protocol : header.protocol = p.hdr.protocol
  first_node : header.first_node = p.hdr.saddr

namespace HeaderBlock

variable {p : UdpPacket} (b : HeaderBlock p)

def bytes : List Byte := b.header.bytes ++ pathBytes b.path

@[simp]
theorem length_bytes : b.bytes.length = sizeof_ser_header .ilp32 + b.path.length * 4 := by
  simp [bytes, length_pathBytes]

/-- The IP header of the packet with the block, before its checksum is computed. -/
def ipHdr : IpHdr := { p.hdr with tot_len := p.hdr.tot_len + b.bytes.length, protocol := IPPROTO_MPOLSR }

/-- The packet with the block, in a buffer that ends with `rest`. -/
def packet (c : ℕ) (rest : List Byte) : List Byte :=
  { b.ipHdr with check := c }.bytes ++ (b.bytes ++ ((p.udp.bytes ++ p.data) ++ rest))

theorem ipHdr_wf : b.ipHdr.WF := p.wf

variable {b} {j n : List Byte} {c : ℕ} {t : List Byte}

/-- The block fits a buffer and the 16 bits of the length. -/
def Fits (b : HeaderBlock p) (n : List Byte) : Prop :=
  p.hdr.tot_len + b.bytes.length < 65536 ∧ p.hdr.tot_len + b.bytes.length ≤ n.length

theorem add_eq (hfit : b.Fits n) : addMpOlsrHeader p.bytes (b.bytes ++ j) b.bytes.length n n.length =
    (updateIpChecksum (b.ipHdr.bytes ++ (b.bytes ++ ((p.udp.bytes ++ p.data) ++
      n.drop (p.hdr.tot_len + b.bytes.length))))).map fun r => (true, r) := by
  obtain ⟨h16, hsize⟩ := hfit
  have htot : p.hdr.tot_len = p.hdr.bytes.length + (p.udp.bytes ++ p.data).length := by
    rw [List.length_append, UdpHdr.length_bytes]
    exact p.tot_len
  exact addMpOlsrHeader_eq p.wf htot (by omega) hsize

theorem add_spec (hfit : b.Fits n) (j : List Byte) : ∃ c rest, addMpOlsrHeader p.bytes (b.bytes ++ j) b.bytes.length n
    n.length = some (true, b.packet c rest) := by
  obtain ⟨c, hc⟩ := updateIpChecksum_spec b.ipHdr_wf (b.bytes ++ ((p.udp.bytes ++ p.data) ++
    n.drop (p.hdr.tot_len + b.bytes.length)))
  refine ⟨c, n.drop (p.hdr.tot_len + b.bytes.length), ?_⟩
  rw [add_eq hfit, hc]
  rfl

/-- Replacing the block by another one is inserting the other one. -/
theorem replace_eq (b₂ : HeaderBlock p) (h16 : p.hdr.tot_len + b.bytes.length < 65536) (hfit : b₂.Fits n) :
    replaceMpOlsrHeader .ilp32 (b.packet c t) (b₂.bytes ++ j) b₂.bytes.length n n.length =
      addMpOlsrHeader p.bytes (b₂.bytes ++ j) b₂.bytes.length n n.length := by
  have hbody : (p.udp.bytes ++ p.data).length = 8 + p.data.length := by simp
  have htot := p.tot_len
  have hlen := b.length_bytes
  have hhdr : b.ipHdr.bytes.length = p.hdr.bytes.length := rfl
  have hnew : b.ipHdr.bytes.length + (b₂.bytes.length + (p.udp.bytes ++ p.data).length) =
      p.hdr.tot_len + b₂.bytes.length := by omega
  let h : IpHdr := { b.ipHdr with check := c }
  have hpacket : b.packet c t =
      h.bytes ++ (b.header.bytes ++ (pathBytes b.path ++ ((p.udp.bytes ++ p.data) ++ t))) := by
    unfold packet bytes
    rw [List.append_assoc]
  have hpath : (pathBytes b.path).length = b.header.hops * 4 := by rw [length_pathBytes, b.hops]
  have htotal : h.tot_len =
      h.bytes.length + (sizeof_ser_header .ilp32 + ((pathBytes b.path).length + (p.udp.bytes ++ p.data).length)) := by
    show p.hdr.tot_len + b.bytes.length = b.ipHdr.bytes.length + _
    rw [length_pathBytes]
    omega
  have hsize : h.bytes.length + (b₂.bytes.length + (p.udp.bytes ++ p.data).length) ≤ n.length := by
    show b.ipHdr.bytes.length + _ ≤ _
    rw [hnew]
    exact hfit.2
  rw [hpacket, replaceMpOlsrHeader_eq (h := h) p.wf hpath htotal h16 hsize, add_eq hfit]
  show (updateIpChecksum ({ h with tot_len := b.ipHdr.bytes.length + _ }.bytes ++ (_ ++ (_ ++ n.drop
    (b.ipHdr.bytes.length + _))))).map _ = _
  rw [hnew]
  exact congrArg _ (updateIpChecksum_check b₂.ipHdr c _)

/-- Removing the block restores the packet, up to its checksums. -/
theorem remove_spec (h16 : p.hdr.tot_len + b.bytes.length < 65536) (hsize : p.hdr.tot_len ≤ n.length) :
    ∃ c₁ c₂ t', MpOlsrPacket.remove .ilp32 (b.packet c t) n n.length =
      some (true, { p.hdr with check := c₁ }.bytes ++ ({ p.udp with check := c₂ }.bytes ++ (p.data ++ t'))) := by
  let h : IpHdr := { b.ipHdr with check := c }
  have hlen := b.length_bytes
  have htot := p.tot_len
  have hpath : (pathBytes b.path).length = b.header.hops * 4 := by rw [length_pathBytes, b.hops]
  have hpacket : b.packet c t =
      h.bytes ++ (b.header.bytes ++ (pathBytes b.path ++ (p.udp.bytes ++ (p.data ++ t)))) := by
    unfold packet bytes
    simp only [List.append_assoc]
    rfl
  have hhdr : h.bytes.length = p.hdr.bytes.length := rfl
  have htotal : h.tot_len =
      h.bytes.length + (sizeof_ser_header .ilp32 + ((pathBytes b.path).length + (8 + p.data.length))) := by
    show p.hdr.tot_len + b.bytes.length = _
    rw [length_pathBytes]
    omega
  have hnew : MpOlsrPacket.new .ilp32 (b.packet c t) = some (some (h.bytes.length : ℤ)) := by
    rw [hpacket]
    exact new_eq .ilp32 (h := h) p.wf h16 (by omega)
  obtain ⟨c₁, c₂, t', hrem, -⟩ := removeMpOlsrHeader_spec (h := h) p.wf (s := b.header) (t := t) (n := n) hpath
    p.udp_len htotal h16 (by omega)
  have hsaddr : b.header.first_node.setWidth 32 = p.hdr.saddr := by
    rw [b.first_node]
    exact BitVec.setWidth_eq _
  have hrestore : ({ h with tot_len := h.bytes.length + (8 + p.data.length), protocol := b.header.protocol,
                            saddr := b.header.first_node.setWidth 32, check := c₁ } : IpHdr) =
      { p.hdr with check := c₁ } := by
    rw [b.protocol, hsaddr, hhdr, ← htot]
    rfl
  refine ⟨c₁, c₂, t', ?_⟩
  unfold MpOlsrPacket.remove
  rw [bind_of_some hnew, Option.elim_some, hpacket, hrem, hrestore]

end HeaderBlock

/-! ### Refusals -/

section Refusals

variable {ws : WordSize} {iph sData newBuffer r : List Byte} {dataSize bufferSize : ℤ}

theorem addMpOlsrHeader_false (h : addMpOlsrHeader iph sData dataSize newBuffer bufferSize = some (false, r)) :
    r = newBuffer := by
  unfold addMpOlsrHeader at h
  obtain ⟨total, -, h⟩ := Option.bind_eq_some_iff.1 h
  dsimp only at h
  split at h
  · cases h
    rfl
  · simp [Option.bind_eq_some_iff] at h

theorem removeMpOlsrHeader_false {i : ℤ}
    (h : removeMpOlsrHeader ws iph i newBuffer bufferSize = some (false, r)) : r = newBuffer := by
  unfold removeMpOlsrHeader at h
  obtain ⟨total, -, h⟩ := Option.bind_eq_some_iff.1 h
  obtain ⟨headerSize, -, h⟩ := Option.bind_eq_some_iff.1 h
  dsimp only at h
  split at h
  · cases h
    rfl
  · simp [Option.bind_eq_some_iff] at h

theorem remove_false (h : MpOlsrPacket.remove ws iph newBuffer bufferSize = some (false, r)) : r = newBuffer := by
  unfold MpOlsrPacket.remove at h
  obtain ⟨header, -, h⟩ := Option.bind_eq_some_iff.1 h
  cases header with
  | none =>
    cases h
    rfl
  | some i => exact removeMpOlsrHeader_false h

theorem replaceMpOlsrHeader_false
    (h : replaceMpOlsrHeader ws iph sData dataSize newBuffer bufferSize = some (false, r)) : r = newBuffer := by
  unfold replaceMpOlsrHeader at h
  obtain ⟨header, -, h⟩ := Option.bind_eq_some_iff.1 h
  obtain ⟨total, -, h⟩ := Option.bind_eq_some_iff.1 h
  obtain ⟨headerSize, -, h⟩ := Option.bind_eq_some_iff.1 h
  dsimp only at h
  split at h
  · cases h
    rfl
  · simp [Option.bind_eq_some_iff] at h

end Refusals

/-- Removing an inserted header restores the packet up to its checksums, replacing it is inserting the other header,
and a refusal leaves the buffer alone. -/
theorem header_inverse {p : UdpPacket} (b₁ b₂ : HeaderBlock p) {n m l : List Byte} (h₁ : b₁.Fits n) (h₂ : b₂.Fits m)
    (hl : p.hdr.tot_len ≤ l.length) (j₁ j₂ : List Byte) :
    (∃ p₁ p₂ c₁ c₂ rest, addMpOlsrHeader p.bytes (b₁.bytes ++ j₁) b₁.bytes.length n n.length = some (true, p₁) ∧
      MpOlsrPacket.remove .ilp32 p₁ l l.length =
        some (true, { p.hdr with check := c₁ }.bytes ++ ({ p.udp with check := c₂ }.bytes ++ (p.data ++ rest))) ∧
      addMpOlsrHeader p.bytes (b₂.bytes ++ j₂) b₂.bytes.length m m.length = some (true, p₂) ∧
      replaceMpOlsrHeader .ilp32 p₁ (b₂.bytes ++ j₂) b₂.bytes.length m m.length = some (true, p₂)) ∧
    ∀ (ws : WordSize) (iph sData newBuffer r : List Byte) (dataSize bufferSize : ℤ),
      (addMpOlsrHeader iph sData dataSize newBuffer bufferSize = some (false, r) → r = newBuffer) ∧
      (replaceMpOlsrHeader ws iph sData dataSize newBuffer bufferSize = some (false, r) → r = newBuffer) ∧
      (MpOlsrPacket.remove ws iph newBuffer bufferSize = some (false, r) → r = newBuffer) := by
  obtain ⟨c, rest, hadd₁⟩ := HeaderBlock.add_spec h₁ j₁
  obtain ⟨c', rest', hadd₂⟩ := HeaderBlock.add_spec h₂ j₂
  obtain ⟨c₁, c₂, tail, hrem⟩ := HeaderBlock.remove_spec (b := b₁) (c := c) (t := rest) h₁.1 hl
  have hrep := HeaderBlock.replace_eq (b := b₁) (c := c) (t := rest) (j := j₂) b₂ h₁.1 h₂
  refine ⟨⟨_, _, c₁, c₂, tail, hadd₁, hrem, hadd₂, hrep.trans hadd₂⟩, ?_⟩
  intro ws iph sData newBuffer r dataSize bufferSize
  exact ⟨addMpOlsrHeader_false, replaceMpOlsrHeader_false, remove_false⟩

/-- A datagram of one byte, and a block for it. -/
def smallPacket : UdpPacket where
  hdr := { version_ihl := 0x45, tos := 0, tot_len := 29, id := 7, frag_off := 0, ttl := 64, protocol := IPPROTO_UDP,
           check := 0, saddr := 1, daddr := 3, options := [] }
  udp := { source := 5000, dest := 464, len := 9, check := 0 }
  data := [65]
  wf := rfl
  udp_len := rfl
  tot_len := rfl

def smallBlock (path : List (ip_v4_addr .ilp32)) : HeaderBlock smallPacket where
  header := { version := MPOLSR_VERSION, protocol := IPPROTO_UDP, empty := 0, hops := path.length, cur := 1,
              first_node := 1 }
  path := path
  hops := rfl
  protocol := rfl
  first_node := rfl

theorem header_inverse_demo : ∃ p₁ p₂ c₁ c₂ rest,
    addMpOlsrHeader smallPacket.bytes ((smallBlock [2, 3]).bytes ++ [0]) 20 (List.replicate 60 0) 60 =
      some (true, p₁) ∧
    MpOlsrPacket.remove .ilp32 p₁ (List.replicate 40 1) 40 =
      some (true, { smallPacket.hdr with check := c₁ }.bytes ++ ({ smallPacket.udp with check := c₂ }.bytes ++
        ([65] ++ rest))) ∧
    addMpOlsrHeader smallPacket.bytes ((smallBlock []).bytes ++ []) 12 (List.replicate 41 0) 41 = some (true, p₂) ∧
    replaceMpOlsrHeader .ilp32 p₁ ((smallBlock []).bytes ++ []) 12 (List.replicate 41 0) 41 = some (true, p₂) :=
  (header_inverse (smallBlock [2, 3]) (smallBlock []) (n := List.replicate 60 0) (m := List.replicate 41 0)
    (l := List.replicate 40 1) ⟨by decide, by decide⟩ ⟨by decide, by decide⟩ (by decide) [0] []).1

end MpOlsr
