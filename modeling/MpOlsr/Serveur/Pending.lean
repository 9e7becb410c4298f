import MpOlsr.Lib.Fault
import MpOlsr.Serveur.Receive

/-!
# The datagrams that wait for a decoding

Between two decodings the two counters and the two arrays of the receive loop describe the datagrams received since
the last decoding (`Pending`).  One more datagram extends the description (`storeDatagram_spec`), and the loop decodes
exactly when as many datagrams wait as the support has lines (`receive_of_lt`, `receive_of_eq`).
-/

namespace MpOlsr

open Buffer Fault

variable {τ : Type} {l k r : ℕ}

/-! ### Reading a datagram -/

/-- The header of the datagram fits into signed bytes. -/
def Packet.Fits (l k : ℕ) : Packet → Prop
  | .line ligne => ligne.num_line < l ∧ ligne.val.length = k ∧ ligne.size = k
  | .projection _ prj => prj.size = projection_size prj.p prj.q l k ∧ (prj.bins.length : ℤ) = prj.size ∧
      prj.size ≤ 127 ∧ (-128 ≤ prj.p ∧ prj.p ≤ 127) ∧ -128 ≤ prj.q ∧ prj.q ≤ 127

theorem Packet.length_datagram_le {pkt : Packet} (hk : k ≤ 127) (hfit : pkt.Fits l k) (r : ℕ) :
    (pkt.datagram l k r).length ≤ 1024 := by
  cases pkt with
  | line ligne =>
    have := hfit.2.1
    simp [Packet.datagram]
    omega
  | projection num prj =>
    obtain ⟨-, hlen, hsmall, -⟩ := hfit
    simp [Packet.datagram]
    omega

theorem toInt_ofInt_byte {z : ℤ} (h0 : -128 ≤ z) (h1 : z ≤ 127) : (BitVec.ofInt 8 z).toInt = z := by
  rw [BitVec.toInt_ofInt]
  simp only [Int.bmod]
  split <;> omega

theorem toInt_ofNat_byte {n : ℕ} (h : n ≤ 127) : (BitVec.ofNat 8 n).toInt = n := by
  rw [← BitVec.ofInt_natCast]
  exact toInt_ofInt_byte (by omega) (by omega)

/-- Reading within the datagram just received. -/
theorem load_recvfrom {buf d : List Byte} (hd : d.length ≤ 1024) {j : ℕ} (hj : j < d.length) :
    load (recvfrom buf d) j = d[j]? := by
  rw [load, if_pos (by omega), Int.toNat_natCast, recvfrom, List.getElem?_take, if_pos (by omega),
    List.getElem?_append_left hj]

theorem header_recvfrom {s : Server τ} {buf d : List Byte} (hbuf : s.buf = recvfrom buf d) (hd : d.length ≤ 1024)
    (j : ℕ) {b : Byte} (hj : d[j]? = some b) {z : ℤ} (hz : b.toInt = z) : header s.buf j = some z := by
  obtain ⟨hlt, -⟩ := List.getElem?_eq_some_iff.1 hj
  rw [hbuf, header, load_recvfrom hd hlt, hj, ← hz]
  rfl

/-- Reading the part of the datagram that follows the header. -/
theorem load_payload {buf hdr xs : List Byte} (hd : (hdr ++ xs).length ≤ 1024) {j : ℕ} (hj : j < xs.length) :
    load (recvfrom buf (hdr ++ xs)) (j + hdr.length) = xs[j]? := by
  have h : ((j : ℤ) + hdr.length) = ((hdr.length + j : ℕ) : ℤ) := by push_cast; omega
  rw [h, load_recvfrom hd (by rw [List.length_append]; omega), List.getElem?_append_right (by omega),
    Nat.add_sub_cancel_left]

theorem mapM_load_payload {buf hdr xs : List Byte} (hd : (hdr ++ xs).length ≤ 1024) :
    ((List.range xs.length).mapM fun (j : ℕ) => load (recvfrom buf (hdr ++ xs)) (j + hdr.length)) = some xs := by
  refine mapM_range_eq fun j hj => ?_
  rw [load_payload hd hj, List.getElem?_eq_getElem hj]

/-- Copying the payload into an array of the same length. -/
theorem foldlM_store_payload {buf hdr xs ys : List Byte} (hd : (hdr ++ xs).length ≤ 1024)
    (hlen : ys.length = xs.length) :
    ((List.range xs.length).foldlM (fun bins (j : ℕ) => do
      let v ← load (recvfrom buf (hdr ++ xs)) (j + hdr.length)
      store bins j v) ys) = some xs := by
  obtain ⟨zs, hzs, hl, hz⟩ := foldlM_invariant
    (fun done (zs : List Byte) => zs.length = xs.length ∧ ∀ j ∈ done, zs[j]? = xs[j]?)
    (f := fun (bins : List Byte) (j : ℕ) => do
      let v ← load (recvfrom buf (hdr ++ xs)) (j + hdr.length)
      store bins j v)
    (l := List.range xs.length) (s := ys) ⟨hlen, by simp⟩
    (by
      rintro done j rest zs hsplit ⟨hl, hz⟩
      have hj : j < xs.length := List.mem_range.1 (by rw [hsplit]; simp)
      refine ⟨zs.set j xs[j], ?_, by simpa using hl, fun i hi => ?_⟩
      · rw [load_payload hd hj, List.getElem?_eq_getElem hj]
        exact if_pos ⟨by omega, by rw [Int.toNat_natCast]; omega⟩
      · by_cases hij : i = j
        · subst hij
          rw [List.getElem?_set_self (by omega), List.getElem?_eq_getElem hj]
        · rw [List.getElem?_set_ne (Ne.symm hij)]
          rcases List.mem_append.1 hi with h | h
          · exact hz i h
          · exact absurd (List.mem_singleton.1 h) hij)
  rw [hzs]
  congr 1
  refine List.ext_getElem? fun j => ?_
  by_cases hj : j < xs.length
  · exact hz j (List.mem_range.2 hj)
  · rw [List.getElem?_eq_none (by omega), List.getElem?_eq_none (by omega)]

/-! ### The stored datagrams -/

/-- The lines among labelled datagrams. -/
def lignesOf (pend : List (τ × Packet)) : List (Line × τ) :=
  pend.filterMap fun e => match e.2 with
    | .line ligne => some (ligne, e.1)
    | .projection _ _ => none

/-- The projections among labelled datagrams. -/
def projectionsOf (pend : List (τ × Packet)) : List (Projection × τ) :=
  pend.filterMap fun e => match e.2 with
    | .line _ => none
    | .projection _ prj => some (prj, e.1)

/-- The stored line of a given number. -/
def findLigne (lignes : List (Line × τ)) (i : ℤ) : Option (Line × τ) :=
  lignes.find? fun e => (e.1.num_line : ℤ) = i

/-- The variables of the loop describe the datagrams `pend` received since the last decoding. -/
structure Pending (l k r : ℕ) (pend : List (τ × Packet)) (s : Server τ) : Prop where
  nb_ligne : s.nb_ligne_rec = (lignesOf pend).length
  nb_projec : s.nb_projec_rec = (projectionsOf pend).length
  size : pend ≠ [] → s.l = l ∧ s.k = k
  lignes : lignesOf pend ≠ [] → Holds s.lignes_rec l (findLigne (lignesOf pend))
  projections : projectionsOf pend ≠ [] →
    Holds s.projections_rec r fun j => (projectionsOf pend)[j.toNat]?

theorem lignesOf_append (pend pend' : List (τ × Packet)) :
    lignesOf (pend ++ pend') = lignesOf pend ++ lignesOf pend' := List.filterMap_append

theorem projectionsOf_append (pend pend' : List (τ × Packet)) :
    projectionsOf (pend ++ pend') = projectionsOf pend ++ projectionsOf pend' := List.filterMap_append

theorem length_lignesOf_add (pend : List (τ × Packet)) :
    (lignesOf pend).length + (projectionsOf pend).length = pend.length := by
  induction pend with
  | nil => rfl
  | cons e pend ih =>
    obtain ⟨label, pkt⟩ := e
    cases pkt with
    | line ligne => simp [lignesOf, projectionsOf] at ih ⊢; omega
    | projection num prj => simp [lignesOf, projectionsOf] at ih ⊢; omega

/-- Nothing waits when both counters are zero. -/
theorem pending_nil (l k r : ℕ) {s : Server τ} (h0 : s.nb_ligne_rec = 0) (h1 : s.nb_projec_rec = 0) :
    Pending l k r [] s :=
  ⟨h0, h1, fun h => absurd rfl h, fun h => absurd rfl h, fun h => absurd rfl h⟩

theorem findLigne_append {lignes : List (Line × τ)} {e : Line × τ}
    (hnew : ∀ e' ∈ lignes, e'.1.num_line ≠ e.1.num_line) :
    findLigne (lignes ++ [e]) = Function.update (findLigne lignes) e.1.num_line (some e) := by
  funext i
  unfold findLigne
  rw [List.find?_append]
  by_cases hi : i = e.1.num_line
  · subst hi
    have hnone : lignes.find? (fun e' => ((e'.1.num_line : ℤ) = e.1.num_line : Bool)) = none := by
      rw [List.find?_eq_none]
      intro e' he'
      have := hnew e' he'
      simp only [decide_eq_true_eq]
      omega
    rw [hnone, Function.update_self]
    simp
  · rw [Function.update_of_ne hi]
    have : ¬ (e.1.num_line : ℤ) = i := fun h => hi h.symm
    simp [this]

/-! ### Storing one more datagram -/

section Store

variable {pend : List (τ × Packet)} {s : Server τ} {label : τ}

theorem Pending.recvfrom (h : Pending l k r pend s) (d : List Byte) :
    Pending l k r pend { s with buf := recvfrom s.buf d } :=
  ⟨h.nb_ligne, h.nb_projec, h.size, h.lignes, h.projections⟩

/-- The array of lines, allocated when the first line arrives. -/
theorem Pending.lignes_alloc (h : Pending l k r pend s) :
    Holds (if s.nb_ligne_rec = 0 then List.replicate l none else s.lignes_rec) l (findLigne (lignesOf pend)) := by
  split
  · rename_i h0
    have hnil : lignesOf pend = [] := List.length_eq_zero_iff.1 (h.nb_ligne ▸ h0)
    rw [hnil]
    exact holds_replicate l none (by omega)
  · rename_i h0
    refine h.lignes fun hnil => h0 ?_
    rw [h.nb_ligne, hnil]
    rfl

/-- The array of projections, allocated when the first projection arrives. -/
theorem Pending.projections_alloc (h : Pending l k r pend s) :
    Holds (if s.nb_projec_rec = 0 then List.replicate r none else s.projections_rec) r
      fun j => (projectionsOf pend)[j.toNat]? := by
  split
  · rename_i h0
    have hnil : projectionsOf pend = [] := List.length_eq_zero_iff.1 (h.nb_projec ▸ h0)
    rw [hnil]
    exact holds_replicate r none (by omega)
  · rename_i h0
    refine h.projections fun hnil => h0 ?_
    rw [h.nb_projec, hnil]
    rfl

variable (label) in
theorem receiveLine_spec (hl : l ≤ 127) (hk : k ≤ 127) (h : Pending l k r pend s) {ligne : Line}
    (hfit : (Packet.line ligne).Fits l k) (hnew : ∀ e ∈ lignesOf pend, e.1.num_line ≠ ligne.num_line)
    {buf : List Byte} (hbuf : s.buf = MpOlsr.recvfrom buf ((Packet.line ligne).datagram l k r)) :
    ∃ s', receiveLine label s = some s' ∧ Pending l k r (pend ++ [(label, .line ligne)]) s' := by
  have hd := Packet.length_datagram_le hk hfit r
  obtain ⟨hnum, hlen, hsize⟩ := hfit
  have h1 : header s.buf 1 = some (ligne.num_line : ℤ) :=
    header_recvfrom hbuf hd 1 rfl (toInt_ofNat_byte (by omega))
  have h2 : header s.buf 2 = some (l : ℤ) := header_recvfrom hbuf hd 2 rfl (toInt_ofNat_byte hl)
  have h3 : header s.buf 3 = some (k : ℤ) := header_recvfrom hbuf hd 3 rfl (toInt_ofNat_byte hk)
  have hval : ((List.range k).mapM fun (j : ℕ) => load s.buf (j + 4)) = some ligne.val := by
    rw [hbuf, ← hlen]
    exact mapM_load_payload hd
  obtain ⟨arr, harr, hholds⟩ := h.lignes_alloc.store (i := ligne.num_line) (by omega) (by omega) (some (ligne, label))
  refine ⟨{ s with l := l, k := k, nb_ligne_rec := s.nb_ligne_rec + 1, lignes_rec := arr }, ?_, ?_⟩
  · refine Option.bind_eq_some_iff.2 ⟨_, h2, Option.bind_eq_some_iff.2 ⟨_, h1,
      Option.bind_eq_some_iff.2 ⟨_, h3, Option.bind_eq_some_iff.2 ⟨_, hval, ?_⟩⟩⟩⟩
    have hline : ({ num_line := ligne.num_line, val := ligne.val, size := k } : Line) = ligne := by
      rw [← hsize]
    simp only [Int.toNat_natCast, hline]
    exact Option.bind_eq_some_iff.2 ⟨_, harr, rfl⟩
  · have hlignes : lignesOf (pend ++ [(label, .line ligne)]) = lignesOf pend ++ [(ligne, label)] :=
      lignesOf_append _ _
    have hprojs : projectionsOf (pend ++ [(label, .line ligne)]) = projectionsOf pend := by
      rw [projectionsOf_append]
      exact List.append_nil _
    refine ⟨by rw [hlignes, List.length_append, ← h.nb_ligne]; rfl, by rw [hprojs]; exact h.nb_projec,
      fun _ => ⟨rfl, rfl⟩, fun _ => ?_, fun hne => ?_⟩
    · rw [hlignes, findLigne_append hnew]
      exact hholds
    · rw [hprojs] at hne ⊢
      exact h.projections hne

variable (label) in
theorem receiveProjection_spec (hl : l ≤ 127) (hk : k ≤ 127) (hr : r ≤ 127) (h : Pending l k r pend s) {num : ℕ}
    {prj : Projection} (hfit : (Packet.projection num prj).Fits l k) (hroom : (projectionsOf pend).length < r)
    {buf : List Byte} (hbuf : s.buf = MpOlsr.recvfrom buf ((Packet.projection num prj).datagram l k r)) :
    ∃ s', receiveProjection label s = some s' ∧ Pending l k r (pend ++ [(label, .projection num prj)]) s' := by
  have hd := Packet.length_datagram_le hk hfit r
  obtain ⟨hsize, hlen, hsmall, ⟨hp0, hp1⟩, hq0, hq1⟩ := hfit
  have h2 : header s.buf 2 = some (r : ℤ) := header_recvfrom hbuf hd 2 rfl (toInt_ofNat_byte hr)
  have h3 : header s.buf 3 = some prj.size := header_recvfrom hbuf hd 3 rfl (toInt_ofInt_byte (by omega) hsmall)
  have h4 : header s.buf 4 = some prj.p := header_recvfrom hbuf hd 4 rfl (toInt_ofInt_byte hp0 hp1)
  have h5 : header s.buf 5 = some prj.q := header_recvfrom hbuf hd 5 rfl (toInt_ofInt_byte hq0 hq1)
  have h6 : header s.buf 6 = some (l : ℤ) := header_recvfrom hbuf hd 6 rfl (toInt_ofNat_byte hl)
  have h7 : header s.buf 7 = some (k : ℤ) := header_recvfrom hbuf hd 7 rfl (toInt_ofNat_byte hk)
  have hbins : ((List.range prj.size.toNat).foldlM (fun bins (j : ℕ) => do
      let v ← load s.buf (j + 8)
      store bins j v) (projection_new prj.p prj.q l k).bins) = some prj.bins := by
    have hn : prj.size.toNat = prj.bins.length := by omega
    rw [hbuf, hn]
    refine foldlM_store_payload hd ?_
    rw [projection_new, List.length_replicate, ← hsize, hn]
  have hholds := h.projections_alloc
  rw [show r = (r : ℤ).toNat from rfl] at hholds
  obtain ⟨arr, harr, hholds⟩ := hholds.store (i := s.nb_projec_rec) (by omega)
    (by rw [h.nb_projec]; omega) (some (prj, label))
  refine ⟨{ s with l := l, k := k, nb_projec_rec := s.nb_projec_rec + 1, projections_rec := arr }, ?_, ?_⟩
  · refine Option.bind_eq_some_iff.2 ⟨_, h2, Option.bind_eq_some_iff.2 ⟨_, h4,
      Option.bind_eq_some_iff.2 ⟨_, h5, Option.bind_eq_some_iff.2 ⟨_, h6, Option.bind_eq_some_iff.2 ⟨_, h7,
      Option.bind_eq_some_iff.2 ⟨_, h3, Option.bind_eq_some_iff.2 ⟨_, hbins, ?_⟩⟩⟩⟩⟩⟩⟩
    have hprj : ({ projection_new prj.p prj.q l k with bins := prj.bins } : Projection) = prj := by
      simp only [projection_new, ← hsize]
    rw [hprj]
    exact Option.bind_eq_some_iff.2 ⟨_, harr, rfl⟩
  · have hlignes : lignesOf (pend ++ [(label, .projection num prj)]) = lignesOf pend := by
      rw [lignesOf_append]
      exact List.append_nil _
    have hprojs : projectionsOf (pend ++ [(label, .projection num prj)]) = projectionsOf pend ++ [(prj, label)] :=
      projectionsOf_append _ _
    refine ⟨by rw [hlignes]; exact h.nb_ligne, by rw [hprojs, List.length_append, ← h.nb_projec]; rfl,
      fun _ => ⟨rfl, rfl⟩, fun hne => ?_, fun _ => ?_⟩
    · rw [hlignes] at hne ⊢
      exact h.lignes hne
    · rw [hprojs]
      refine hholds.congr fun j h0 h1 => ?_
      rw [h.nb_projec]
      by_cases hj : j = (projectionsOf pend).length
      · subst hj
        rw [Function.update_self, Int.toNat_natCast]
        simp
      · rw [Function.update_of_ne hj, List.getElem?_append]
        split
        · rfl
        · rw [List.getElem?_eq_none (by omega), List.getElem?_eq_none (by simp; omega)]

/-- What the senders guarantee about the datagrams that wait: the headers fit, no line is sent twice, and there are
no more projections than announced. -/
structure Chunk (l k r : ℕ) (pend : List (τ × Packet)) : Prop where
  fits : ∀ e ∈ pend, e.2.Fits l k
  lignes : ((lignesOf pend).map fun e => e.1.num_line).Nodup
  projections : (projectionsOf pend).length ≤ r

theorem Chunk.left {pend' : List (τ × Packet)} (h : Chunk l k r (pend ++ pend')) : Chunk l k r pend := by
  refine ⟨fun e he => h.fits e (List.mem_append_left _ he), ?_, ?_⟩
  · have := h.lignes
    rw [lignesOf_append, List.map_append] at this
    exact (List.nodup_append.1 this).1
  · have := h.projections
    rw [projectionsOf_append, List.length_append] at this
    omega

theorem storeDatagram_line (hk : k ≤ 127) {ligne : Line} (hfit : (Packet.line ligne).Fits l k) :
    storeDatagram label ((Packet.line ligne).datagram l k r) s =
      receiveLine label { s with buf := MpOlsr.recvfrom s.buf ((Packet.line ligne).datagram l k r) } := by
  have hd := Packet.length_datagram_le hk hfit r
  have htype : load (MpOlsr.recvfrom s.buf ((Packet.line ligne).datagram l k r)) 0 = some (charByte 'l') :=
    load_recvfrom hd (j := 0) (by simp [Packet.datagram])
  have hne : ¬ charByte 'l' = charByte 'p' := by decide
  simp only [storeDatagram, htype, Option.bind_eq_bind, Option.bind_some, if_true, if_neg hne, Option.bind_fun_some]

theorem storeDatagram_projection (hk : k ≤ 127) {num : ℕ} {prj : Projection}
    (hfit : (Packet.projection num prj).Fits l k) :
    storeDatagram label ((Packet.projection num prj).datagram l k r) s =
      receiveProjection label
        { s with buf := MpOlsr.recvfrom s.buf ((Packet.projection num prj).datagram l k r) } := by
  have hd := Packet.length_datagram_le hk hfit r
  have htype : load (MpOlsr.recvfrom s.buf ((Packet.projection num prj).datagram l k r)) 0 = some (charByte 'p') :=
    load_recvfrom hd (j := 0) (by simp [Packet.datagram])
  have hne : ¬ charByte 'p' = charByte 'l' := by decide
  simp only [storeDatagram, htype, Option.bind_eq_bind, Option.bind_some, if_true, if_neg hne]

/-- Storing a datagram adds it to those that wait. -/
theorem storeDatagram_spec (hl : l ≤ 127) (hk : k ≤ 127) (hr : r ≤ 127) (h : Pending l k r pend s) {pkt : Packet}
    (hc : Chunk l k r (pend ++ [(label, pkt)])) :
    ∃ s', storeDatagram label (pkt.datagram l k r) s = some s' ∧ Pending l k r (pend ++ [(label, pkt)]) s' := by
  have hfit : pkt.Fits l k := hc.fits (label, pkt) (by simp)
  have h' := h.recvfrom (pkt.datagram l k r)
  cases pkt with
  | line ligne =>
    have hnew : ∀ e ∈ lignesOf pend, e.1.num_line ≠ ligne.num_line := by
      intro e he
      have := hc.lignes
      rw [lignesOf_append, List.map_append, List.nodup_append] at this
      exact this.2.2 _ (List.mem_map_of_mem he) _ (by simp [lignesOf])
    obtain ⟨s', hs', hp⟩ := receiveLine_spec label hl hk h' hfit hnew rfl
    exact ⟨s', (storeDatagram_line hk hfit).trans hs', hp⟩
  | projection num prj =>
    have hroom : (projectionsOf pend).length < r := by
      have := hc.projections
      rw [projectionsOf_append, List.length_append] at this
      exact this
    obtain ⟨s', hs', hp⟩ := receiveProjection_spec label hl hk hr h' hfit hroom rfl
    exact ⟨s', (storeDatagram_projection hk hfit).trans hs', hp⟩

end Store

/-! ### The three tests -/

section Tests

variable (ws : WordSize) {pend : List (τ × Packet)} {s : Server τ} {label : τ}

/-- The state after a decoding. -/
def Server.reset (s : Server τ) : Server τ := { s with nb_ligne_rec := 0, nb_projec_rec := 0 }

theorem decodeIf_false (s : Server τ) {cond : Bool} (h : cond = false) : decodeIf ws s cond = some (s, []) := by
  rw [h]; rfl

theorem decodeIf_true (s : Server τ) {cond : Bool} (h : cond = true) :
    decodeIf ws s cond = (decode ws s).map fun o => (s.reset, [o]) := by
  rw [h]
  unfold decodeIf
  cases decode ws s <;> rfl

/-- The number of datagrams received since the last decoding. -/
def Server.waiting (s : Server τ) : ℕ := s.nb_ligne_rec + s.nb_projec_rec

omit ws in
theorem Pending.waiting (h : Pending l k r pend s) : s.waiting = pend.length := by
  rw [← length_lignesOf_add pend, ← h.nb_ligne, ← h.nb_projec]
  rfl

/-- Too few datagrams wait: nothing is decoded. -/
theorem decodeTests_of_lt (hl : s.l = l) (hlt : s.waiting < l) :
    decodeTests ws s = some (s, []) := by
  unfold Server.waiting at hlt
  have ht1 : decide (s.l = s.nb_projec_rec) = false := decide_eq_false (by omega)
  have ht2 : decide ((s.nb_ligne_rec : ℤ) = s.l) = false := decide_eq_false (by omega)
  have ht3 : decide ((s.nb_ligne_rec : ℤ) + s.nb_projec_rec = s.l ∧ (s.nb_ligne_rec : ℤ) ≠ s.l) = false :=
    decide_eq_false (by omega)
  simp only [decodeTests, decodeIf_false ws s ht1, decodeIf_false ws s ht2, decodeIf_false ws s ht3,
    Option.bind_eq_bind, Option.bind_some]
  rfl

/-- As many datagrams wait as there are lines: exactly one of the tests succeeds. -/
theorem decodeTests_of_eq (hl : s.l = l) (hl1 : 1 ≤ l) (heq : s.waiting = l) :
    decodeTests ws s = (decode ws s).map fun o => (s.reset, [o]) := by
  unfold Server.waiting at heq
  -- after a decoding both counters are zero, and no further test succeeds
  have hn : s.reset.nb_ligne_rec = 0 := rfl
  have hp : s.reset.nb_projec_rec = 0 := rfl
  have hl' : s.reset.l = l := hl
  have hr2 : decide ((s.reset.nb_ligne_rec : ℤ) = s.reset.l) = false := decide_eq_false (by omega)
  have hr3 : decide ((s.reset.nb_ligne_rec : ℤ) + s.reset.nb_projec_rec = s.reset.l ∧
      (s.reset.nb_ligne_rec : ℤ) ≠ s.reset.l) = false := decide_eq_false (by omega)
  by_cases ht1 : s.l = s.nb_projec_rec
  · simp only [decodeTests, decodeIf_true ws s (decide_eq_true ht1), Option.bind_eq_bind]
    cases decode ws s with
    | none => rfl
    | some o =>
      simp only [Option.map_some, Option.bind_some, decodeIf_false ws s.reset hr2, decodeIf_false ws s.reset hr3]
      rfl
  · by_cases ht2 : (s.nb_ligne_rec : ℤ) = s.l
    · simp only [decodeTests, decodeIf_false ws s (decide_eq_false ht1), decodeIf_true ws s (decide_eq_true ht2),
        Option.bind_eq_bind, Option.bind_some]
      cases decode ws s with
      | none => rfl
      | some o =>
        simp only [Option.map_some, Option.bind_some, decodeIf_false ws s.reset hr3]
        rfl
    · have ht3 : (s.nb_ligne_rec : ℤ) + s.nb_projec_rec = s.l ∧ (s.nb_ligne_rec : ℤ) ≠ s.l := by omega
      simp only [decodeTests, decodeIf_false ws s (decide_eq_false ht1), decodeIf_false ws s (decide_eq_false ht2),
        decodeIf_true ws s (decide_eq_true ht3), Option.bind_eq_bind, Option.bind_some]
      cases decode ws s <;> rfl

/-- The loop stores a datagram and waits for more. -/
theorem receive_of_lt (hl : l ≤ 127) (hk : k ≤ 127) (hr : r ≤ 127) (h : Pending l k r pend s) {pkt : Packet}
    (hc : Chunk l k r (pend ++ [(label, pkt)])) (hlt : pend.length + 1 < l) :
    ∃ s', receive ws label (pkt.datagram l k r) s = some (s', []) ∧ Pending l k r (pend ++ [(label, pkt)]) s' := by
  obtain ⟨s', hs', hp⟩ := storeDatagram_spec hl hk hr h hc
  refine ⟨s', ?_, hp⟩
  rw [receive, hs']
  have hw := hp.waiting
  rw [List.length_append, List.length_singleton] at hw
  exact decodeTests_of_lt ws (hp.size (by simp)).1 (by omega)

/-- The loop stores a datagram, decodes, and resets the counters. -/
theorem receive_of_eq (hl : l ≤ 127) (hk : k ≤ 127) (hr : r ≤ 127) (h : Pending l k r pend s) {pkt : Packet}
    (hc : Chunk l k r (pend ++ [(label, pkt)])) (heq : pend.length + 1 = l) :
    ∃ s', receive ws label (pkt.datagram l k r) s = (decode ws s').map (fun o => (s'.reset, [o])) ∧
      Pending l k r (pend ++ [(label, pkt)]) s' := by
  obtain ⟨s', hs', hp⟩ := storeDatagram_spec hl hk hr h hc
  refine ⟨s', ?_, hp⟩
  rw [receive, hs']
  have hw := hp.waiting
  rw [List.length_append, List.length_singleton] at hw
  exact decodeTests_of_eq ws (hp.size (by simp)).1 (by omega) (by omega)

/-- The loop on datagrams that do not complete a decoding. -/
theorem receiveAll_of_lt (hl : l ≤ 127) (hk : k ≤ 127) (hr : r ≤ 127) (h : Pending l k r pend s)
    {new : List (τ × Packet)} (hc : Chunk l k r (pend ++ new)) (hlt : (pend ++ new).length < l) :
    ∃ s', receiveAll ws (new.map fun e => (e.1, e.2.datagram l k r)) s = some (s', []) ∧
      Pending l k r (pend ++ new) s' := by
  induction new generalizing pend s with
  | nil => exact ⟨s, rfl, by simpa using h⟩
  | cons e new ih =>
    obtain ⟨label, pkt⟩ := e
    have happ : pend ++ (label, pkt) :: new = pend ++ [(label, pkt)] ++ new := by simp
    rw [happ] at hc hlt
    obtain ⟨s1, hs1, hp1⟩ := receive_of_lt ws hl hk hr h hc.left (by simp at hlt ⊢; omega)
    obtain ⟨s2, hs2, hp2⟩ := ih hp1 hc hlt
    refine ⟨s2, ?_, happ ▸ hp2⟩
    exact Option.bind_eq_some_iff.2 ⟨_, hs1, Option.bind_eq_some_iff.2 ⟨_, hs2, rfl⟩⟩

end Tests

/-! ### The call to `inverse_system` -/

section Decode

variable {pend : List (τ × Packet)} {s : Server τ}

theorem Pending.entries_projections (h : Pending l k r pend s) (hr : (projectionsOf pend).length ≤ r) :
    entries s.projections_rec s.nb_projec_rec = some (projectionsOf pend) := by
  rw [h.nb_projec]
  refine mapM_range_eq fun j hj => ?_
  have hne : projectionsOf pend ≠ [] := List.ne_nil_of_length_pos (by omega)
  rw [(h.projections hne).getElem? (show ((j : ℕ) : ℤ) < r by omega), Int.toNat_natCast,
    List.getElem?_eq_getElem hj]
  rfl

/-- The entry for line `i` is the line received under this number. -/
theorem Pending.ligne_entry (h : Pending l k r pend s) (hne : lignesOf pend ≠ []) {i : ℕ} (hi : i < l) :
    (s.lignes_rec[i]?).join = findLigne (lignesOf pend) i := by
  rw [(h.lignes hne).getElem? (by omega)]
  rfl

theorem findLigne_eq_some {lignes : List (Line × τ)} {i : ℤ} {e : Line × τ} (h : findLigne lignes i = some e) :
    e ∈ lignes ∧ (e.1.num_line : ℤ) = i :=
  ⟨List.mem_of_find?_eq_some h, by simpa using List.find?_some h⟩

theorem findLigne_eq_none {lignes : List (Line × τ)} {i : ℕ} (h : ∀ e ∈ lignes, e.1.num_line ≠ i) :
    findLigne lignes i = none := by
  refine List.find?_eq_none.2 fun e he => ?_
  have := h e he
  simp only [decide_eq_true_eq]
  omega

/-- The lines used are lines that wait, and they carry the numbers of their positions. -/
theorem Pending.entries_lignes (h : Pending l k r pend s) (hle : (lignesOf pend).length ≤ l)
    (hall : ∀ i < (lignesOf pend).length, ∃ e ∈ lignesOf pend, e.1.num_line = i) :
    ∃ es, entries s.lignes_rec s.nb_ligne_rec = some es ∧ (∀ e ∈ es, e ∈ lignesOf pend) ∧
      es.map (fun e => e.1.num_line) = List.range (lignesOf pend).length := by
  rw [h.nb_ligne]
  have hentry : ∀ i ∈ List.range (lignesOf pend).length, ∃ e, (s.lignes_rec[i]?).join = some e ∧
      e ∈ lignesOf pend ∧ e.1.num_line = i := by
    intro i hi
    have hi := List.mem_range.1 hi
    rw [h.ligne_entry (List.ne_nil_of_length_pos (by omega)) (by omega)]
    cases hf : findLigne (lignesOf pend) i with
    | none =>
      obtain ⟨e, he, hnum⟩ := hall i hi
      have := List.find?_eq_none.1 hf e he
      simp only [decide_eq_true_eq] at this
      omega
    | some e =>
      obtain ⟨he, hnum⟩ := findLigne_eq_some hf
      exact ⟨e, rfl, he, by omega⟩
  obtain ⟨es, hes, hrel⟩ := mapM_forall₂ hentry
  refine ⟨es, hes, forall_of_forall₂ hrel fun _ _ h => h.1, ?_⟩
  have := map_eq_of_forall₂ (f := id) hrel fun _ _ h => h.2
  rwa [List.map_id] at this

/-- A position below the number of lines received whose line is missing: an entry that was never written is used. -/
theorem Pending.entries_lignes_none (h : Pending l k r pend s) {i : ℕ} (hi : i < (lignesOf pend).length)
    (hil : i < l) (hmiss : ∀ e ∈ lignesOf pend, e.1.num_line ≠ i) :
    entries s.lignes_rec s.nb_ligne_rec = none := by
  rw [h.nb_ligne]
  refine mapM_eq_none (List.mem_range.2 hi) ?_
  rw [h.ligne_entry (List.ne_nil_of_length_pos (by omega)) hil, findLigne_eq_none hmiss]

theorem newSupport_eq (fits : l * k ≤ INT_MAX) : newSupport l k = some (support_new l k fits) := by
  have h0 : (0 : ℤ) ≤ (l : ℤ) * k := by positivity
  simp only [newSupport, Int.toNat_natCast, dif_pos fits]
  exact if_pos ⟨by omega, h0⟩

theorem Pending.decode_eq (ws : WordSize) (h : Pending l k r pend s) (hne : pend ≠ []) (hk : 1 ≤ k)
    (fits : l * k ≤ INT_MAX) (hr : (projectionsOf pend).length ≤ r) :
    decode ws s = (entries s.lignes_rec s.nb_ligne_rec).bind fun es =>
      (inverse_system ws (support_new l k fits) ((projectionsOf pend).map Prod.fst) (es.map Prod.fst)).map
        fun res => { pixels := res.1, labels := es.map Prod.snd ++ (projectionsOf pend).map Prod.snd } := by
  have hk0 : ¬ (support_new l k fits).k = 0 := by
    change ¬ k = 0
    omega
  rw [decode, (h.size hne).1, (h.size hne).2, newSupport_eq fits, h.entries_projections hr]
  simp only [Option.bind_eq_bind, Option.bind_some, if_neg hk0]
  cases entries s.lignes_rec s.nb_ligne_rec with
  | none => rfl
  | some es =>
    simp only [Option.bind_some]
    cases inverse_system ws (support_new l k fits) ((projectionsOf pend).map Prod.fst) (es.map Prod.fst) <;> rfl

end Decode

end MpOlsr
