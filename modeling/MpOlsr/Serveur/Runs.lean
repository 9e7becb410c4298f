import MpOlsr.Serveur.Message

/-!
# Runs of the receive loop

The lines are stored under their numbers and used by their positions.  So the loop reconstructs a message from the
first `l` of its datagrams that arrive exactly when the numbers of the lines among them have no gap
(`server_reconstructs_iff`).
-/

namespace MpOlsr

variable {τ : Type}

/-- The datagrams of one message, as they arrive. -/
def Message.arrivals (m : Message) (label : τ) (ds : List Packet) : List (τ × List Byte) :=
  ds.map fun pkt => (label, m.datagram pkt)

theorem arrivals_eq (m : Message) (label : τ) (ds : List Packet) :
    m.arrivals label ds =
      (tagged label ds).map fun e => (e.1, e.2.datagram m.support.l m.support.k m.angles.length) := by
  unfold Message.arrivals tagged
  rw [List.map_map]
  rfl

/-- Nothing is decoded before the last of the datagrams `ds`, which decodes the message. -/
def Reconstructs (ws : WordSize) (m : Message) (s : Server Unit) (ds : List Packet) : Prop :=
  ∃ before last s1 s2 o, ds = before ++ [last] ∧ receiveAll ws (m.arrivals () before) s = some (s1, []) ∧
    receive ws () (m.datagram last) s1 = some (s2, [o]) ∧ o.pixels = m.support.pixels

section OneMessage

variable {m : Message} {ds : List Packet}

/-- The loop on datagrams of one message that do not suffice for a decoding. -/
theorem receiveAll_message_of_lt (label : τ) (ws : WordSize) {s : Server τ} (h0 : s.nb_ligne_rec = 0) (h1 : s.nb_projec_rec = 0)
    (hd : Delivered m ds) (hlt : ds.length < m.support.l) :
    ∃ s', receiveAll ws (m.arrivals label ds) s = some (s', []) ∧
      Pending m.support.l m.support.k m.angles.length (tagged label ds) s' := by
  have hchunk := hd.chunk label
  have := receiveAll_of_lt ws m.l_le m.k_le m.angles_le (pending_nil _ _ _ h0 h1) hchunk
    (by simpa [tagged] using hlt)
  rwa [arrivals_eq]

theorem Delivered.left {ds' : List Packet} (h : Delivered m (ds ++ ds')) : Delivered m ds :=
  (List.sublist_append_left ds ds').subperm.trans h

/-- The loop on `l` datagrams of one message. -/
theorem receive_message (label : τ) (ws : WordSize) {s : Server τ} (h0 : s.nb_ligne_rec = 0) (h1 : s.nb_projec_rec = 0)
    {last : Packet} (hd : Delivered m (ds ++ [last])) (hlen : ds.length + 1 = m.support.l) :
    ∃ s1 s2, receiveAll ws (m.arrivals label ds) s = some (s1, []) ∧
      receive ws label (m.datagram last) s1 = (decode ws s2).map (fun o => (s2.reset, [o])) ∧
      Pending m.support.l m.support.k m.angles.length (tagged label (ds ++ [last])) s2 := by
  obtain ⟨s1, hs1, hp1⟩ := receiveAll_message_of_lt label ws h0 h1 hd.left (by omega)
  have happ : tagged label (ds ++ [last]) = tagged label ds ++ [(label, last)] := List.map_append
  obtain ⟨s2, hs2, hp2⟩ := receive_of_eq ws m.l_le m.k_le m.angles_le hp1 (happ ▸ hd.chunk label)
    (by simpa [tagged] using hlen)
  exact ⟨s1, s2, hs1, hs2, happ ▸ hp2⟩

/-- The numbers of the lines among `ds` have no gap. -/
def NoGap (m : Message) (ds : List Packet) : Prop :=
  ∀ i j, j ≤ i → Packet.line (m.support.line i) ∈ ds → Packet.line (m.support.line j) ∈ ds

/-- Lines without a gap are the first ones. -/
theorem noGap_iff (h : Delivered m ds) (label : τ) :
    NoGap m ds ↔ ∀ i < (lignesOf (tagged label ds)).length, Packet.line (m.support.line i) ∈ ds := by
  have hnums : ∀ i, Packet.line (m.support.line i) ∈ ds ↔
      i ∈ ((lignesOf (tagged label ds)).map fun e => e.1.num_line).toFinset := by
    intro i
    rw [List.mem_toFinset, List.mem_map]
    constructor
    · exact fun hi => ⟨_, Delivered.mem_lignesOf hi, rfl⟩
    · rintro ⟨e, he, rfl⟩
      exact h.mem_of_mem_lignesOf he
  have hcard := List.toFinset_card_of_nodup (h.nodup_num_line label)
  rw [List.length_map] at hcard
  simp only [NoGap, hnums, ← hcard]
  constructor
  · intro hclosed i hi
    by_contra hnot
    -- all numbers would be below `i`
    have hsub : ((lignesOf (tagged label ds)).map fun e => e.1.num_line).toFinset ⊆ Finset.range i := by
      intro j hj
      rw [Finset.mem_range]
      by_contra hle
      exact hnot (hclosed j i (by omega) hj)
    have := Finset.card_le_card hsub
    rw [Finset.card_range] at this
    omega
  · intro hall i j hji hi
    have hsub : Finset.range ((lignesOf (tagged label ds)).map fun e => e.1.num_line).toFinset.card ⊆
        ((lignesOf (tagged label ds)).map fun e => e.1.num_line).toFinset := by
      intro j hj
      exact hall j (Finset.mem_range.1 hj)
    rw [← Finset.eq_of_subset_of_card_le hsub (by simp), Finset.mem_range] at hi
    exact hall j (by omega)

/-- The loop on `l` datagrams of one message whose lines have no gap. -/
theorem receiveAll_message (label : τ) (ws : WordSize) {s : Server τ} (h0 : s.nb_ligne_rec = 0) (h1 : s.nb_projec_rec = 0)
    {last : Packet} (hd : Delivered m (ds ++ [last])) (hlen : ds.length + 1 = m.support.l)
    (hgap : NoGap m (ds ++ [last])) :
    ∃ s1 s2 o, receiveAll ws (m.arrivals label ds) s = some (s1, []) ∧
      receive ws label (m.datagram last) s1 = some (s2, [o]) ∧ o.pixels = m.support.pixels ∧
      (∀ a ∈ o.labels, a = label) ∧ s2.nb_ligne_rec = 0 ∧ s2.nb_projec_rec = 0 := by
  obtain ⟨s1, s2, hs1, hs2, hp⟩ := receive_message label ws h0 h1 hd hlen
  obtain ⟨o, ho, hpix, hlab⟩ := decode_message ws hd hp (by simpa using hlen) ((noGap_iff hd label).1 hgap)
  exact ⟨s1, s2.reset, o, hs1, by rw [hs2, ho]; rfl, hpix, hlab, rfl, rfl⟩

/-- The last of `l` datagrams is a fault when the lines have a gap. -/
theorem receive_message_none (label : τ) (ws : WordSize) {s : Server τ} (h0 : s.nb_ligne_rec = 0) (h1 : s.nb_projec_rec = 0)
    {last : Packet} (hd : Delivered m (ds ++ [last])) (hlen : ds.length + 1 = m.support.l)
    (hgap : ¬ NoGap m (ds ++ [last])) :
    ∃ s1, receiveAll ws (m.arrivals label ds) s = some (s1, []) ∧
      receive ws label (m.datagram last) s1 = none := by
  obtain ⟨s1, s2, hs1, hs2, hp⟩ := receive_message label ws h0 h1 hd hlen
  rw [noGap_iff hd label] at hgap
  push Not at hgap
  obtain ⟨i, hi, hmiss⟩ := hgap
  exact ⟨s1, hs1, by rw [hs2, decode_missing ws hd hp (by simpa using hlen) hi hmiss]; rfl⟩

theorem not_reconstructs (ws : WordSize) {s : Server Unit} (h0 : s.nb_ligne_rec = 0) (h1 : s.nb_projec_rec = 0)
    (hd : Delivered m ds) (hlen : ds.length = m.support.l) (hgap : ¬ NoGap m ds) : ¬ Reconstructs ws m s ds := by
  rintro ⟨before, last, s1, s2, o, rfl, hs1, hs2, -⟩
  obtain ⟨s1', hs1', hnone⟩ := receive_message_none () ws h0 h1 hd (by simpa using hlen) hgap
  cases hs1.symm.trans hs1'
  rw [hnone] at hs2
  cases hs2

end OneMessage

/-- The loop reconstructs a message from the first `l` datagrams that arrive exactly when the lines among them have
no gap in their numbers. -/
theorem server_reconstructs_iff (ws : WordSize) (m : Message) (s : Server Unit) (h0 : s.nb_ligne_rec = 0)
    (h1 : s.nb_projec_rec = 0) (ds : List Packet) (hds : ds.Subperm m.packets) (hlen : m.support.l ≤ ds.length) :
    Reconstructs ws m s (ds.take m.support.l) ↔ NoGap m (ds.take m.support.l) := by
  have hd : Delivered m (ds.take m.support.l) := (List.take_sublist _ ds).subperm.trans hds
  have hlen' : (ds.take m.support.l).length = m.support.l := by rw [List.length_take]; omega
  constructor
  · intro hrec
    by_contra hgap
    exact not_reconstructs ws h0 h1 hd hlen' hgap hrec
  · intro hgap
    have hpos := m.pos_l
    rcases List.eq_nil_or_concat (ds.take m.support.l) with hnil | ⟨before, last, heq⟩
    · rw [hnil, List.length_nil] at hlen'
      omega
    · rw [List.concat_eq_append] at heq
      rw [heq] at hd hlen' hgap ⊢
      obtain ⟨s1, s2, o, hs1, hs2, hpix, -⟩ :=
        receiveAll_message () ws h0 h1 hd (by simpa using hlen') hgap
      exact ⟨before, last, s1, s2, o, rfl, hs1, hs2, hpix⟩

/-- A message of two lines of one byte, with one projection. -/
def Message.demo : Message where
  support := { l := 2, k := 1, pixels := [1, 2], length_pixels := rfl, fits := by decide }
  angles := [0]
  projections := [{ p := 0, q := 1, bins := [3], size := 1 }]
  pos_l := by decide
  pos_k := by decide
  nodup := by decide
  computed := by decide
  l_le := by decide
  k_le := by decide
  angles_le := by decide
  angle_le := by decide
  size_le := by decide

/-- The loop before the first datagram. -/
def Server.init : Server τ :=
  { buf := List.replicate 1024 0, l := 0, k := 0, nb_ligne_rec := 0, nb_projec_rec := 0, lignes_rec := [],
    projections_rec := [] }

theorem server_reconstructs_demo :
    Reconstructs .lp64 Message.demo Server.init
      ([.projection 0 ⟨0, 1, [3], 1⟩, .line ⟨0, [1], 1⟩, .line ⟨1, [2], 1⟩].take 2) := by
  refine (server_reconstructs_iff .lp64 Message.demo Server.init rfl rfl _ (by decide) (by decide)).2 ?_
  intro i j hji hi
  have hi0 : i = 0 := by
    simp [Message.demo, Support.line] at hi
    exact hi.1
  obtain rfl : j = 0 := by omega
  decide

/-- Line 0 is lost, line 1 and the projection arrive: the entry of line 0 is used. -/
theorem server_reconstruction_fails :
    let ds : List Packet := [.line ⟨1, [2], 1⟩, .projection 0 ⟨0, 1, [3], 1⟩]
    ds.Subperm Message.demo.packets ∧ Message.demo.support.l ≤ ds.length ∧
      ¬ Reconstructs .lp64 Message.demo Server.init (ds.take Message.demo.support.l) := by
  intro ds
  have hds : ds.Subperm Message.demo.packets := by decide
  refine ⟨hds, by decide, not_reconstructs .lp64 rfl rfl hds rfl fun hgap => ?_⟩
  exact absurd (hgap 1 0 (by decide) (by decide)) (by decide)

end MpOlsr
