import Mathlib.Data.List.Perm.Subperm
import MpOlsr.Mojette.Recover
import MpOlsr.Serveur.Pending

/-!
# Decoding a message

From any `l` datagrams of one message the receive loop calls `inverse_system` on the lines found at the positions
`0, …, n - 1`, where `n` is the number of lines received.  If these are the lines received, the message is decoded
(`decode_message`); if one of them is missing, an entry that was never written is used (`decode_missing`).  Hence the
loop reconstructs the message from its first `l` datagrams exactly when the numbers of the lines among them have no
gap (`server_reconstructs_iff`).
-/

namespace MpOlsr

open Buffer Fault Peeling

/-- A message cut into a support, with its projections of the angles `(p, 1)`, as it is sent. -/
structure Message where
  support : Support
  angles : List ℤ
  projections : List Projection
  pos_l : 1 ≤ support.l
  pos_k : 1 ≤ support.k
  nodup : angles.Nodup
  computed : forward support (angles.map fun p => projection_new p 1 support.l support.k) = some projections
  /-- the header bytes fit -/
  l_le : support.l ≤ 127
  k_le : support.k ≤ 127
  angles_le : angles.length ≤ 127
  angle_le : ∀ p ∈ angles, -128 ≤ p ∧ p ≤ 127
  size_le : ∀ p ∈ angles, projection_size p 1 support.l support.k ≤ 127

/-- What is sent for the message: all lines, then the projections. -/
def Message.packets (m : Message) : List Packet := m.support.packets m.projections

/-- The bytes of a datagram of the message. -/
def Message.datagram (m : Message) (pkt : Packet) : List Byte :=
  pkt.datagram m.support.l m.support.k m.angles.length

variable {τ : Type}

/-- Packets with one label. -/
def tagged (label : τ) (pkts : List Packet) : List (τ × Packet) := pkts.map fun pkt => (label, pkt)

namespace Message

variable {m : Message}

theorem exists_carries (m : Message) :
    m.projections.map Projection.angle = m.angles.map (fun p => (p, 1)) ∧
      ∀ p ∈ m.projections, Carries m.support m.support.pixel m.support.grid p := by
  obtain ⟨ps, hps, hang, hcar⟩ := forward_new (s := m.support) m.pos_l m.pos_k (D := m.angles.map fun p => (p, 1))
    (by simp)
  rw [List.map_map] at hps
  cases hps.symm.trans m.computed
  exact ⟨hang, hcar⟩

theorem length_projections (m : Message) : m.projections.length = m.angles.length := by
  have := congrArg List.length m.exists_carries.1
  simpa using this

theorem map_p (m : Message) : m.projections.map Projection.p = m.angles := by
  have := congrArg (List.map Prod.fst) m.exists_carries.1
  rw [List.map_map, List.map_map] at this
  exact this.trans (List.map_id'' (fun _ => rfl) m.angles)

theorem line_holds (s : Support) {i : ℕ} (hi : i < s.l) : (s.line i).Holds s s.pixel := by
  refine ⟨hi, fun c hc => ?_⟩
  simp [Support.line, hc]

theorem mem_packets {pkt : Packet} : pkt ∈ m.packets ↔
    (∃ i < m.support.l, pkt = .line (m.support.line i)) ∨
      ∃ j prj, m.projections[j]? = some prj ∧ pkt = .projection j prj := by
  unfold packets Support.packets
  rw [List.mem_append, List.mem_map, List.mem_map]
  constructor
  · rintro (⟨i, hi, rfl⟩ | ⟨⟨prj, j⟩, hx, rfl⟩)
    · exact .inl ⟨i, List.mem_range.1 hi, rfl⟩
    · exact .inr ⟨j, prj, List.mem_zipIdx_iff_getElem?.1 hx, rfl⟩
  · rintro (⟨i, hi, rfl⟩ | ⟨j, prj, hj, rfl⟩)
    · exact .inl ⟨i, List.mem_range.2 hi, rfl⟩
    · exact .inr ⟨(prj, j), List.mem_zipIdx_iff_getElem?.2 hj, rfl⟩

theorem fits {pkt : Packet} (h : pkt ∈ m.packets) : pkt.Fits m.support.l m.support.k := by
  rcases mem_packets.1 h with ⟨i, hi, rfl⟩ | ⟨j, prj, hj, rfl⟩
  · exact ⟨hi, by simp [Support.line], rfl⟩
  · have hmem := List.mem_of_getElem? hj
    have hcar := m.exists_carries.2 prj hmem
    have hang : prj.angle ∈ m.angles.map fun p => (p, (1 : ℤ)) := by
      rw [← m.exists_carries.1]
      exact List.mem_map_of_mem hmem
    obtain ⟨p, hp, heq⟩ := List.mem_map.1 hang
    have hpp : prj.p = p := (congrArg Prod.fst heq).symm
    have hq : prj.q = 1 := (congrArg Prod.snd heq).symm
    have hsize := hcar.size
    refine ⟨hsize, hcar.bins.length, ?_, hpp ▸ m.angle_le p hp, by omega, by omega⟩
    rw [hsize, hpp, hq]
    exact m.size_le p hp

/-- The lines among the datagrams of a message. -/
theorem lignesOf_packets (m : Message) (label : τ) :
    lignesOf (tagged label m.packets) = (List.range m.support.l).map fun i => (m.support.line i, label) := by
  unfold lignesOf tagged packets Support.packets
  rw [List.map_append, List.filterMap_append, List.map_map, List.map_map, List.filterMap_map, List.filterMap_map]
  simp [Function.comp_def]

/-- The projections among the datagrams of a message. -/
theorem projectionsOf_packets (m : Message) (label : τ) :
    projectionsOf (tagged label m.packets) = m.projections.map fun prj => (prj, label) := by
  unfold projectionsOf tagged packets Support.packets
  rw [List.map_append, List.filterMap_append, List.map_map, List.map_map, List.filterMap_map, List.filterMap_map]
  have h : m.projections.zipIdx.map (fun x => (x.1, label)) = m.projections.map fun prj => (prj, label) := by
    rw [show (fun x : Projection × ℕ => (x.1, label)) = (fun prj => (prj, label)) ∘ Prod.fst from rfl,
      ← List.map_map, List.zipIdx_map_fst]
  simpa [Function.comp_def] using h

end Message

private theorem subperm_filterMap {α β : Type} (f : α → Option β) {l l' : List α} (h : l.Subperm l') :
    (l.filterMap f).Subperm (l'.filterMap f) := by
  obtain ⟨l'', hp, hs⟩ := h
  exact ⟨_, hp.filterMap f, hs.filterMap f⟩

private theorem subperm_map {α β : Type} (f : α → β) {l l' : List α} (h : l.Subperm l') :
    (l.map f).Subperm (l'.map f) := by
  obtain ⟨l'', hp, hs⟩ := h
  exact ⟨_, hp.map f, hs.map f⟩

private theorem subperm_nodup {α : Type} {l l' : List α} (h : l.Subperm l') (hn : l'.Nodup) : l.Nodup := by
  obtain ⟨l'', hp, hs⟩ := h
  exact hp.nodup_iff.1 (hn.sublist hs)

section OneMessage

variable {m : Message} {label : τ} {ds : List Packet}

/-- Datagrams of one message, none of them twice. -/
def Delivered (m : Message) (ds : List Packet) : Prop := ds.Subperm m.packets

namespace Delivered

variable (h : Delivered m ds)
include h

theorem lignes (label : τ) : (lignesOf (tagged label ds)).Subperm
    ((List.range m.support.l).map fun i => (m.support.line i, label)) := by
  rw [← m.lignesOf_packets]
  exact subperm_filterMap _ (subperm_map _ h)

theorem projections (label : τ) : (projectionsOf (tagged label ds)).Subperm
    (m.projections.map fun prj => (prj, label)) := by
  rw [← m.projectionsOf_packets]
  exact subperm_filterMap _ (subperm_map _ h)

theorem mem_lignes {e : Line × τ} (he : e ∈ lignesOf (tagged label ds)) :
    ∃ i < m.support.l, e = (m.support.line i, label) := by
  obtain ⟨i, hi, rfl⟩ := List.mem_map.1 ((h.lignes label).subset he)
  exact ⟨i, List.mem_range.1 hi, rfl⟩

theorem mem_projections {e : Projection × τ} (he : e ∈ projectionsOf (tagged label ds)) :
    e.1 ∈ m.projections ∧ e.2 = label := by
  obtain ⟨prj, hprj, rfl⟩ := List.mem_map.1 ((h.projections label).subset he)
  exact ⟨hprj, rfl⟩

theorem nodup_num_line (label : τ) : ((lignesOf (tagged label ds)).map fun e => e.1.num_line).Nodup := by
  refine subperm_nodup (subperm_map _ (h.lignes label)) ?_
  rw [List.map_map]
  exact (List.map_id'' (fun _ => rfl) (List.range m.support.l)).symm ▸ List.nodup_range

theorem nodup_p (label : τ) : ((projectionsOf (tagged label ds)).map fun e => e.1.p).Nodup := by
  refine subperm_nodup (subperm_map _ (h.projections label)) ?_
  rw [List.map_map]
  exact m.map_p.symm ▸ m.nodup

theorem chunk (label : τ) : Chunk m.support.l m.support.k m.angles.length (tagged label ds) := by
  refine ⟨fun e he => ?_, h.nodup_num_line label, ?_⟩
  · obtain ⟨pkt, hpkt, rfl⟩ := List.mem_map.1 he
    exact Message.fits (List.Subperm.subset h hpkt)
  · have := (h.projections label).length_le
    rwa [List.length_map, m.length_projections] at this

omit h in
theorem mem_lignesOf {i : ℕ} (hmem : Packet.line (m.support.line i) ∈ ds) :
    (m.support.line i, label) ∈ lignesOf (tagged label ds) :=
  List.mem_filterMap.2 ⟨(label, _), List.mem_map_of_mem hmem, rfl⟩

theorem mem_of_mem_lignesOf {e : Line × τ} (he : e ∈ lignesOf (tagged label ds)) :
    Packet.line (m.support.line e.1.num_line) ∈ ds := by
  obtain ⟨⟨label', pkt⟩, hx, heq⟩ := List.mem_filterMap.1 he
  obtain ⟨pkt', hpkt, hpair⟩ := List.mem_map.1 hx
  cases hpair
  cases pkt with
  | projection num prj => cases heq
  | line ligne =>
    cases heq
    rcases Message.mem_packets.1 (List.Subperm.subset h hpkt) with ⟨i, hi, hl⟩ | ⟨j, prj, hj, hl⟩
    · cases hl
      exact hpkt
    · cases hl

end Delivered

/-- With the first lines received, the message is decoded. -/
theorem decode_message (ws : WordSize) {s : Server τ} (h : Delivered m ds)
    (hp : Pending m.support.l m.support.k m.angles.length (tagged label ds) s) (hlen : ds.length = m.support.l)
    (hall : ∀ i < (lignesOf (tagged label ds)).length, Packet.line (m.support.line i) ∈ ds) :
    ∃ o, decode ws s = some o ∧ o.pixels = m.support.pixels ∧ ∀ a ∈ o.labels, a = label := by
  have hsum := length_lignesOf_add (tagged label ds)
  have htag : (tagged label ds).length = ds.length := List.length_map ..
  have hpos := m.pos_l
  have hne : tagged label ds ≠ [] := List.ne_nil_of_length_pos (by omega)
  obtain ⟨es, hes, hsub, hnum⟩ := hp.entries_lignes (by omega)
    fun i hi => ⟨(m.support.line i, label), Delivered.mem_lignesOf (hall i hi), rfl⟩
  have heslen : es.length = (lignesOf (tagged label ds)).length := by
    have := congrArg List.length hnum
    simpa using this
  -- the projections used carry the whole support, and their angles are distinct
  have hcar : ∀ p ∈ (projectionsOf (tagged label ds)).map Prod.fst, Carries m.support m.support.pixel m.support.grid p := by
    intro p hp
    obtain ⟨e, he, rfl⟩ := List.mem_map.1 hp
    exact m.exists_carries.2 _ (h.mem_projections he).1
  have hang : ((projectionsOf (tagged label ds)).map Prod.fst).map Projection.angle =
      ((projectionsOf (tagged label ds)).map fun e => e.1.p).map fun p => (p, 1) := by
    rw [List.map_map, List.map_map]
    refine List.map_congr_left fun e he => ?_
    have hmem : e.1.angle ∈ m.angles.map fun p => (p, (1 : ℤ)) := by
      rw [← m.exists_carries.1]
      exact List.mem_map_of_mem (h.mem_projections he).1
    obtain ⟨p, -, hpe⟩ := List.mem_map.1 hmem
    exact Prod.ext rfl (congrArg Prod.snd hpe).symm
  have hholds : ∀ e ∈ es.map Prod.fst, e.Holds m.support m.support.pixel := by
    intro e he
    obtain ⟨e', he', rfl⟩ := List.mem_map.1 he
    obtain ⟨i, hi, rfl⟩ := h.mem_lignes (hsub e' he')
    exact Message.line_holds m.support hi
  have hnd : ((es.map Prod.fst).map Line.num_line).Nodup := by
    rw [List.map_map]
    exact (show es.map (Line.num_line ∘ Prod.fst) = _ from hnum) ▸ List.nodup_range
  have hpeel : Peelable m.support.bin (((projectionsOf (tagged label ds)).map Prod.fst).map Projection.angle)
      (m.support.missing (es.map Prod.fst)) := by
    rw [hang]
    refine peelable_missing (h.nodup_p label) hholds hnd ?_
    rw [List.length_map, List.length_map]
    omega
  have fits := m.support.fits
  obtain ⟨ps', hps', -⟩ := inverse_system_spec ws
    (show SameSize (support_new m.support.l m.support.k fits) m.support from ⟨rfl, rfl⟩)
    m.pos_l m.pos_k hcar hholds hnd hpeel
  refine ⟨⟨m.support.pixels, es.map Prod.snd ++ (projectionsOf (tagged label ds)).map Prod.snd⟩, ?_, rfl, ?_⟩
  · rw [hp.decode_eq ws hne m.pos_k fits (h.chunk label).projections, hes, Option.bind_some, hps']
    rfl
  · intro a ha
    rcases List.mem_append.1 ha with ha | ha
    · obtain ⟨e, he, rfl⟩ := List.mem_map.1 ha
      obtain ⟨i, -, rfl⟩ := h.mem_lignes (hsub e he)
      rfl
    · obtain ⟨e, he, rfl⟩ := List.mem_map.1 ha
      exact (h.mem_projections he).2

/-- With a gap in the lines received, an entry that was never written is used. -/
theorem decode_missing (ws : WordSize) {s : Server τ} (h : Delivered m ds)
    (hp : Pending m.support.l m.support.k m.angles.length (tagged label ds) s) (hlen : ds.length = m.support.l)
    {i : ℕ} (hi : i < (lignesOf (tagged label ds)).length) (hmiss : Packet.line (m.support.line i) ∉ ds) :
    decode ws s = none := by
  have hsum := length_lignesOf_add (tagged label ds)
  have htag : (tagged label ds).length = ds.length := List.length_map ..
  have hpos := m.pos_l
  have hne : tagged label ds ≠ [] := List.ne_nil_of_length_pos (by omega)
  have hnone : entries s.lignes_rec s.nb_ligne_rec = none := by
    refine hp.entries_lignes_none hi (by omega) fun e he hnum => hmiss ?_
    rw [← hnum]
    exact h.mem_of_mem_lignesOf he
  rw [hp.decode_eq ws hne m.pos_k m.support.fits (h.chunk label).projections, hnone]
  rfl

end OneMessage

end MpOlsr
