import MpOlsr.Serveur.Message

/-!
# The format of the datagrams

The sender squeezes the length of a line and the size of a projection into one byte, which the server reads as a signed
`char`.  So what the server extracts is what was sent exactly as long as these are at most 127 (`formats_agree_iff`),
although a datagram may have 1024 bytes.
-/

namespace MpOlsr

open Buffer Fault

/-! ### What the server extracts -/

/-- The fields of a datagram of type `l`, with the values of the line. -/
structure LineFields where
  num_line : ℤ
  l : ℤ
  k : ℤ
  val : List Byte
  deriving DecidableEq

/-- The fields of a datagram of type `p`, with the bins of the projection. -/
structure ProjectionFields where
  p : ℤ
  q : ℤ
  l : ℤ
  k : ℤ
  taille_projec : ℤ
  bins : List Byte
  deriving DecidableEq

def extractLine (buf : List Byte) : Option LineFields := do
  let l ← header buf 2
  let num_line ← header buf 1
  let k ← header buf 3
  let val ← (List.range k.toNat).mapM fun (j : ℕ) => load buf (j + 4)
  return ⟨num_line, l, k, val⟩

def extractProjection (buf : List Byte) : Option ProjectionFields := do
  let p ← header buf 4
  let q ← header buf 5
  let l ← header buf 6
  let k ← header buf 7
  let taille_projec ← header buf 3
  let bins ← (List.range taille_projec.toNat).foldlM (fun bins (j : ℕ) => do
    let v ← load buf (j + 8)
    store bins j v) (projection_new p q l k).bins
  return ⟨p, q, l, k, taille_projec, bins⟩

/-- The fields of a datagram. -/
inductive Fields where
  | line (f : LineFields)
  | projection (f : ProjectionFields)
  deriving DecidableEq

/-- What the server extracts from the buffer, by the type of the datagram. -/
def extract (buf : List Byte) : Option Fields := do
  let type_data ← load buf 0
  if type_data = charByte 'l' then (extractLine buf).map .line
  else if type_data = charByte 'p' then (extractProjection buf).map .projection
  else none

/-- What the sender puts into a datagram. -/
def Packet.fields (l k : ℕ) : Packet → Fields
  | .line ligne => .line ⟨ligne.num_line, l, k, ligne.val⟩
  | .projection _ prj => .projection ⟨prj.p, prj.q, l, k, prj.size, prj.bins⟩

section Receive

variable {τ : Type} (label : τ) (s : Server τ)

/-- The server stores the line that it extracts. -/
theorem receiveLine_eq : receiveLine label s = (extractLine s.buf).bind fun f =>
    (store (if s.nb_ligne_rec = 0 then List.replicate f.l.toNat none else s.lignes_rec) f.num_line
      (some (⟨f.num_line.toNat, f.val, f.k.toNat⟩, label))).map fun lignes_rec =>
        { s with l := f.l, k := f.k, nb_ligne_rec := s.nb_ligne_rec + 1, lignes_rec := lignes_rec } := by
  unfold receiveLine extractLine
  cases header s.buf 2 with
  | none => rfl
  | some l =>
    cases header s.buf 1 with
    | none => rfl
    | some num_line =>
      cases header s.buf 3 with
      | none => rfl
      | some k =>
        simp only [Option.bind_eq_bind, Option.bind_some]
        cases (List.range k.toNat).mapM fun (j : ℕ) => load s.buf (j + 4) with
        | none => rfl
        | some val =>
          simp only [Option.bind_some, Option.pure_def]
          rw [Option.map_eq_bind]
          rfl

/-- The server stores the projection that it extracts. -/
theorem receiveProjection_eq : receiveProjection label s = (header s.buf 2).bind fun nb_projections =>
    (extractProjection s.buf).bind fun f =>
      (store (if s.nb_projec_rec = 0 then List.replicate nb_projections.toNat none else s.projections_rec)
        s.nb_projec_rec (some ({ projection_new f.p f.q f.l f.k with bins := f.bins }, label))).map
          fun projections_rec => { s with l := f.l, k := f.k, nb_projec_rec := s.nb_projec_rec + 1,
                                          projections_rec := projections_rec } := by
  unfold receiveProjection extractProjection
  cases header s.buf 2 with
  | none => rfl
  | some nb_projections =>
    cases header s.buf 4 with
    | none => rfl
    | some p =>
      cases header s.buf 5 with
      | none => rfl
      | some q =>
        cases header s.buf 6 with
        | none => rfl
        | some l =>
          cases header s.buf 7 with
          | none => rfl
          | some k =>
            cases header s.buf 3 with
            | none => rfl
            | some taille_projec =>
              simp only [Option.bind_eq_bind, Option.bind_some]
              cases (List.range taille_projec.toNat).foldlM (fun bins (j : ℕ) => (load s.buf (j + 8)).bind
                fun v => store bins j v) (projection_new p q l k).bins with
              | none => rfl
              | some bins =>
                simp only [Option.bind_some, Option.pure_def]
                rw [Option.map_eq_bind]
                rfl

end Receive

/-! ### One datagram -/

section Datagram

variable {l k : ℕ} {buf : List Byte}

theorem header_of_load {d : List Byte} {j : ℕ} {b : Byte} (hj : d[j]? = some b) (hlt : j < 1024) :
    header (recvfrom buf d) j = some b.toInt := by
  obtain ⟨hd, -⟩ := List.getElem?_eq_some_iff.1 hj
  have hload : load (recvfrom buf d) j = some b := by
    rw [load, if_pos (by omega), Int.toNat_natCast, recvfrom, List.getElem?_take, if_pos hlt,
      List.getElem?_append_left hd, hj]
  rw [header, hload]
  rfl

theorem toInt_byte_le (b : Byte) : b.toInt ≤ 127 := by
  have h := BitVec.toInt_lt (x := b)
  omega

/-- A line is extracted as it was sent exactly if its length fits a signed byte. -/
theorem extract_line_iff (hl : l ≤ 127) {ligne : Line} (hfit : (Packet.line ligne).Fits l k) (r : ℕ) :
    extract (recvfrom buf ((Packet.line ligne).datagram l k r)) = some ((Packet.line ligne).fields l k) ↔
      k ≤ 127 := by
  have htype : load (recvfrom buf ((Packet.line ligne).datagram l k r)) 0 = some (charByte 'l') := rfl
  have h1 : header (recvfrom buf ((Packet.line ligne).datagram l k r)) 1 = _ := header_of_load (j := 1) rfl (by decide)
  have h2 : header (recvfrom buf ((Packet.line ligne).datagram l k r)) 2 = _ := header_of_load (j := 2) rfl (by decide)
  have h3 : header (recvfrom buf ((Packet.line ligne).datagram l k r)) 3 = _ := header_of_load (j := 3) rfl (by decide)
  rw [extract, bind_of_some htype, if_pos rfl]
  constructor
  · intro h
    obtain ⟨f, hf, heq⟩ := Option.map_eq_some_iff.1 h
    cases heq
    rw [extractLine, bind_of_some h2, bind_of_some h1, bind_of_some h3] at hf
    obtain ⟨val, -, hf⟩ := Option.bind_eq_some_iff.1 hf
    have hk := congrArg LineFields.k (Option.some.inj hf)
    have hle := toInt_byte_le (BitVec.ofNat 8 k)
    have hk : (BitVec.ofNat 8 k).toInt = (k : ℤ) := hk
    omega
  · intro hk
    have hd := Packet.length_datagram_le hk hfit r
    obtain ⟨hnum, hlen, hsize⟩ := hfit
    have hval : ((List.range k).mapM fun (j : ℕ) =>
        load (recvfrom buf ((Packet.line ligne).datagram l k r)) (j + 4)) = some ligne.val := by
      rw [← hlen]
      exact mapM_load_payload hd
    rw [toInt_ofNat_byte (by omega)] at h1 h2 h3
    rw [extractLine, bind_of_some h2, bind_of_some h1, bind_of_some h3, Int.toNat_natCast, bind_of_some hval]
    rfl

/-- A projection is extracted as it was sent exactly if its size fits a signed byte. -/
theorem extract_projection_iff (hl : l ≤ 127) {num : ℕ} {prj : Projection}
    (hsize : prj.size = projection_size prj.p prj.q l k) (hlen : (prj.bins.length : ℤ) = prj.size)
    (hk : (k : ℤ) ≤ prj.size) (hp : -128 ≤ prj.p ∧ prj.p ≤ 127) (hq : -128 ≤ prj.q ∧ prj.q ≤ 127) (r : ℕ) :
    extract (recvfrom buf ((Packet.projection num prj).datagram l k r)) =
      some ((Packet.projection num prj).fields l k) ↔ prj.size ≤ 127 := by
  let data := recvfrom buf ((Packet.projection num prj).datagram l k r)
  have htype : load data 0 = some (charByte 'p') := rfl
  have h3 : header data 3 = _ := header_of_load (j := 3) rfl (by decide)
  have h4 : header data 4 = _ := header_of_load (j := 4) rfl (by decide)
  have h5 : header data 5 = _ := header_of_load (j := 5) rfl (by decide)
  have h6 : header data 6 = _ := header_of_load (j := 6) rfl (by decide)
  have h7 : header data 7 = _ := header_of_load (j := 7) rfl (by decide)
  have hne : ¬ charByte 'p' = charByte 'l' := by decide
  show extract data = _ ↔ _
  rw [extract, bind_of_some htype, if_neg hne, if_pos rfl]
  constructor
  · intro h
    obtain ⟨f, hf, heq⟩ := Option.map_eq_some_iff.1 h
    cases heq
    rw [extractProjection, bind_of_some h4, bind_of_some h5, bind_of_some h6, bind_of_some h7, bind_of_some h3] at hf
    obtain ⟨bins, -, hf⟩ := Option.bind_eq_some_iff.1 hf
    have htaille : (BitVec.ofInt 8 prj.size).toInt = prj.size :=
      congrArg ProjectionFields.taille_projec (Option.some.inj hf)
    have hle := toInt_byte_le (BitVec.ofInt 8 prj.size)
    omega
  · intro hsmall
    have hd := Packet.length_datagram_le (by omega)
      (show (Packet.projection num prj).Fits l k from ⟨hsize, hlen, hsmall, hp, hq⟩) r
    have hbins : ((List.range prj.size.toNat).foldlM (fun bins (j : ℕ) => do
        let v ← load data (j + 8)
        store bins j v) (projection_new prj.p prj.q l k).bins) = some prj.bins := by
      have hn : prj.size.toNat = prj.bins.length := by omega
      rw [hn]
      refine foldlM_store_payload hd ?_
      rw [projection_new, List.length_replicate, ← hsize, hn]
    rw [toInt_ofInt_byte (by omega) hsmall] at h3
    rw [toInt_ofInt_byte hp.1 hp.2] at h4
    rw [toInt_ofInt_byte hq.1 hq.2] at h5
    rw [toInt_ofNat_byte hl] at h6
    rw [toInt_ofNat_byte (by omega)] at h7
    rw [extractProjection, bind_of_some h4, bind_of_some h5, bind_of_some h6, bind_of_some h7, bind_of_some h3,
      bind_of_some hbins]
    rfl

end Datagram

/-! ### A message -/

/-- The angles `p` of the sender's table; `q` is 1. -/
def angles_p : List ℤ := [-1, 0, 1]

/-- The server extracts from every datagram what the sender put in, whatever the buffer held before. -/
def FormatsAgree (support : Support) (projections : List Projection) : Prop :=
  ∀ pkt ∈ support.packets projections, ∀ buf,
    extract (recvfrom buf (pkt.datagram support.l support.k projections.length)) =
      some (pkt.fields support.l support.k)

section Sender

variable {s : Support} {angles : List ℤ} {ps : List Projection}

theorem projection_size_angle (p l k : ℤ) : projection_size p 1 l k = |p| * (l - 1) + k := by
  have hone : |(1 : ℤ)| = 1 := rfl
  rw [projection_size, hone]
  ring

/-- The projections that `forward` computes have the angles and the sizes they were created with. -/
theorem forward_shape (hl : 1 ≤ s.l) (hps : forward s (angles.map fun p => projection_new p 1 s.l s.k) = some ps) :
    ps.map Projection.p = angles ∧ ∀ prj ∈ ps, prj.q = 1 ∧ prj.size = projection_size prj.p 1 s.l s.k ∧
      (prj.bins.length : ℤ) = prj.size := by
  by_cases hk : s.k = 0
  · have hcells : s.cells = [] := by
      rw [← List.length_eq_zero_iff, ← List.length_map s.index, Support.map_index_cells, List.length_range, hk,
        Nat.mul_zero]
    rw [forward, hcells] at hps
    cases hps
    refine ⟨by rw [List.map_map]; exact List.map_id'' (fun _ => rfl) angles, fun prj hprj => ?_⟩
    obtain ⟨p, -, rfl⟩ := List.mem_map.1 hprj
    refine ⟨rfl, rfl, ?_⟩
    have hpos : 0 ≤ |p| * ((s.l : ℤ) - 1) := mul_nonneg (abs_nonneg p) (by omega)
    have hsize : 0 ≤ projection_size p 1 s.l s.k := by
      rw [projection_size_angle]
      omega
    simp only [projection_new, List.length_replicate]
    omega
  · obtain ⟨ps', hps', hang, hcar⟩ := forward_new (s := s) hl (Nat.one_le_iff_ne_zero.2 hk)
      (D := angles.map fun p => (p, 1)) (by simp)
    rw [List.map_map] at hps'
    cases hps'.symm.trans hps
    refine ⟨?_, fun prj hprj => ?_⟩
    · have hp := congrArg (List.map Prod.fst) hang
      rw [List.map_map, List.map_map] at hp
      exact hp.trans (List.map_id'' (fun _ => rfl) angles)
    · have hmem : prj.angle ∈ angles.map fun p => (p, (1 : ℤ)) := hang ▸ List.mem_map_of_mem hprj
      obtain ⟨p, -, hpe⟩ := List.mem_map.1 hmem
      have hq : prj.q = 1 := (congrArg Prod.snd hpe).symm
      have hsize := (hcar prj hprj).size
      rw [hq] at hsize
      exact ⟨hq, hsize, (hcar prj hprj).bins.length⟩

theorem length_datagram_line (s : Support) (i l k r : ℕ) :
    ((Packet.line (s.line i)).datagram l k r).length = s.k + 4 := by
  simp [Packet.datagram, Support.line]

theorem mem_angles_p {p : ℤ} (hp : p ∈ angles_p) : p = -1 ∨ p = 0 ∨ p = 1 := by
  simpa [angles_p] using hp

/-- For a message of nine lines, sent with projections of the angles of the table, the server extracts from every
datagram what the sender put in exactly if the lines have at most 127 bytes and the projections at most 127 bins. -/
theorem formats_agree_iff (s : Support) (hl : s.l = 9) (angles : List ℤ) (hangles : ∀ p ∈ angles, p ∈ angles_p)
    (ps : List Projection) (hps : forward s (angles.map fun p => projection_new p 1 s.l s.k) = some ps) :
    FormatsAgree s ps ↔ s.k ≤ 127 ∧ ∀ p ∈ angles, |p| * 8 + s.k ≤ 127 := by
  obtain ⟨hp, hshape⟩ := forward_shape (by omega) hps
  have hline : ∀ buf i, i < 9 → (extract (recvfrom buf ((Packet.line (s.line i)).datagram s.l s.k ps.length)) =
      some ((Packet.line (s.line i)).fields s.l s.k) ↔ s.k ≤ 127) :=
    fun buf i hi => extract_line_iff (by omega) ⟨by rw [hl]; exact hi, by simp [Support.line], rfl⟩ _
  have hprj : ∀ buf num, ∀ prj ∈ ps, prj.p ∈ angles ∧ prj.size = |prj.p| * 8 + s.k ∧
      (extract (recvfrom buf ((Packet.projection num prj).datagram s.l s.k ps.length)) =
        some ((Packet.projection num prj).fields s.l s.k) ↔ prj.size ≤ 127) := by
    intro buf num prj hmem
    obtain ⟨hq, hsize, hlen⟩ := hshape prj hmem
    have hpa : prj.p ∈ angles := hp ▸ List.mem_map_of_mem hmem
    have hrange := mem_angles_p (hangles _ hpa)
    have hvalue : prj.size = |prj.p| * 8 + s.k := by
      rw [hsize, projection_size_angle, hl]
      rfl
    have habs := abs_nonneg prj.p
    exact ⟨hpa, hvalue, extract_projection_iff (by omega) (by rw [hq]; exact hsize) hlen (by omega) (by omega)
      (by omega) _⟩
  unfold FormatsAgree Support.packets
  constructor
  · intro h
    refine ⟨(hline [] 0 (by decide)).1 (h _ (List.mem_append_left _ (List.mem_map.2 ⟨0, ?_, rfl⟩)) []), fun p hpa => ?_⟩
    · rw [List.mem_range, hl]
      decide
    · rw [← hp] at hpa
      obtain ⟨prj, hmem, rfl⟩ := List.mem_map.1 hpa
      obtain ⟨num, hnum⟩ := List.getElem?_of_mem hmem
      obtain ⟨-, hvalue, hiff⟩ := hprj [] num prj hmem
      rw [← hvalue]
      exact hiff.1 (h _ (List.mem_append_right _
        (List.mem_map.2 ⟨(prj, num), List.mem_zipIdx_iff_getElem?.2 hnum, rfl⟩)) [])
  · rintro ⟨hk, hall⟩ pkt hpkt buf
    rcases List.mem_append.1 hpkt with hpkt | hpkt
    · obtain ⟨i, hi, rfl⟩ := List.mem_map.1 hpkt
      rw [List.mem_range, hl] at hi
      exact (hline buf i hi).2 hk
    · obtain ⟨⟨prj, num⟩, hx, rfl⟩ := List.mem_map.1 hpkt
      obtain ⟨hpa, hvalue, hiff⟩ := hprj buf num prj (List.fst_mem_of_mem_zipIdx hx)
      refine hiff.2 ?_
      rw [hvalue]
      exact hall _ hpa

end Sender

/-- The message of the demonstration client, of 90 bytes, with three projections. -/
theorem formats_agree_demo : ∃ ps, forward (support_new 9 10 (by decide))
    (angles_p.map fun p => projection_new p 1 9 10) = some ps ∧ FormatsAgree (support_new 9 10 (by decide)) ps := by
  obtain ⟨ps, hps, -⟩ := forward_new (s := support_new 9 10 (by decide)) (by decide) (by decide)
    (D := angles_p.map fun p => (p, 1)) (by decide)
  exact ⟨ps, hps, (formats_agree_iff (support_new 9 10 (by decide)) rfl angles_p (fun _ hp => hp) ps hps).2
    ⟨by decide, by decide⟩⟩

/-- A message of 1152 bytes: the server reads -128 as the length of its lines. -/
theorem long_lines_disagree : forward (support_new 9 128 (by decide)) [] = some [] ∧
    (∀ pkt ∈ (support_new 9 128 (by decide)).packets [], (pkt.datagram 9 128 0).length ≤ 1024) ∧
    ¬ FormatsAgree (support_new 9 128 (by decide)) [] := by
  have hps : forward (support_new 9 128 (by decide)) [] = some [] := by
    obtain ⟨ps, hps, hang, -⟩ := forward_new (s := support_new 9 128 (by decide)) (by decide) (by decide) (D := [])
      (by simp)
    rw [List.map_eq_nil_iff] at hang
    rw [hang] at hps
    exact hps
  refine ⟨hps, fun pkt hpkt => ?_, fun h => ?_⟩
  · rcases List.mem_append.1 hpkt with hpkt | hpkt
    · obtain ⟨i, -, rfl⟩ := List.mem_map.1 hpkt
      rw [length_datagram_line]
      decide
    · cases hpkt
  · have hmem : Packet.line ((support_new 9 128 (by decide)).line 0) ∈ (support_new 9 128 (by decide)).packets [] :=
      List.mem_append_left _ (List.mem_map.2 ⟨0, List.mem_range.2 (by decide), rfl⟩)
    have hfit : (Packet.line ((support_new 9 128 (by decide)).line 0)).Fits 9 128 :=
      ⟨by decide, by simp only [Support.line, List.length_map, List.length_range]; rfl, rfl⟩
    have hline := (extract_line_iff (by decide) hfit 0).1 (h _ hmem [])
    exact absurd hline (by decide)

end MpOlsr
