import MpOlsr.Mojette.Bins

/-!
# The peeling loop

Invariant: for the set `R` of the pixels still unknown, `pu`, `pd` and `bins` hold for each bin the number, the index
sum and the exclusive or of the pixels of `R` that fall into it (`Tracks`), and every bin with exactly one such pixel
is on the list of univocal bins from `curr` on.  One iteration then removes from `R` a pixel that is alone in a bin
(`peelStep_spec`) and faults when there is none (`peelStep_none`); the loop ends with all pixels known exactly when
`R` contains no stopping set (`peelLoop_spec`, `peelLoop_none`).
-/

namespace MpOlsr

open Buffer Peeling Fault

variable {ws : WordSize} {s : Support} {px : ℕ × ℕ → Byte} {R : Finset (ℕ × ℕ)} {w : Work ws} {x : ℕ × ℕ}

/-- The value of `pu` in bin `b` when the pixels of `R` are unknown. -/
def puOf (ws : WordSize) (s : Support) (d : ℤ × ℤ) (R : Finset (ℕ × ℕ)) (b : ℤ) : ULong ws :=
  binFold (· + ·) 0 (fun _ => 1) (s.bin d) R b

/-- The value of `pd` in bin `b` when the pixels of `R` are unknown. -/
def pdOf (ws : WordSize) (s : Support) (d : ℤ × ℤ) (R : Finset (ℕ × ℕ)) (b : ℤ) : ULong ws :=
  binFold (· + ·) 0 (fun x => BitVec.ofNat _ (s.index x)) (s.bin d) R b

/-- The number of pixels of `R` in bin `b`. -/
def unknowns (s : Support) (d : ℤ × ℤ) (R : Finset (ℕ × ℕ)) (b : ℤ) : ℕ :=
  (R.filter fun x => s.bin d x = b).card

theorem puOf_eq (d : ℤ × ℤ) (b : ℤ) : puOf ws s d R b = BitVec.ofNat _ (unknowns s d R b) := by
  unfold puOf binFold unknowns
  induction R.filter fun x => s.bin d x = b using Finset.induction_on with
  | empty => rfl
  | insert a t ha ih =>
    rw [Finset.fold_insert ha, ih, Finset.card_insert_of_notMem ha, BitVec.add_comm, BitVec.ofNat_add]; rfl

theorem unknowns_le (hR : R ⊆ s.grid) (d : ℤ × ℤ) (b : ℤ) : unknowns s d R b ≤ INT_MAX :=
  calc unknowns s d R b ≤ R.card := Finset.card_filter_le _ _
    _ ≤ s.grid.card := Finset.card_le_card hR
    _ = s.l * s.k := Support.card_grid
    _ ≤ INT_MAX := s.fits

variable (ws) in
theorem puOf_eq_one_iff (hR : R ⊆ s.grid) (d : ℤ × ℤ) (b : ℤ) : puOf ws s d R b = 1 ↔ unknowns s d R b = 1 := by
  have h := lt_two_pow_bits ws (unknowns_le hR d b)
  have h1 := lt_two_pow_bits ws (show 1 ≤ INT_MAX by decide)
  rw [puOf_eq, ← BitVec.toNat_inj, BitVec.toNat_ofNat, Nat.mod_eq_of_lt h]
  rw [show (1 : ULong ws) = BitVec.ofNat _ 1 from rfl, BitVec.toNat_ofNat, Nat.mod_eq_of_lt h1]

/-- The work arrays `pu` and `pd` of `w` count the pixels of `R` as unknown. -/
structure Counts (s : Support) (R : Finset (ℕ × ℕ)) (w : Work ws) : Prop where
  pu : Holds w.pu w.prj.size (puOf ws s w.prj.angle R)
  pd : Holds w.pd w.prj.size (pdOf ws s w.prj.angle R)

/-- All three arrays of `w` are about the pixels of `R`. -/
structure Tracks (s : Support) (px : ℕ × ℕ → Byte) (R : Finset (ℕ × ℕ)) (w : Work ws) : Prop where
  carries : Carries s px R w.prj
  counts : Counts s R w

theorem Work.new_counts (hl : 1 ≤ s.l) (hk : 1 ≤ s.k) {p : Projection}
    (hp : p.size = projection_size p.p p.q s.l s.k) : Counts s ∅ (Work.new ws s p) := by
  have hpos := (projection_size_pos hl hk p.p p.q).le
  constructor
  · have h := holds_replicate (projection_size p.p p.q s.l s.k) (0 : ULong ws) hpos
    exact hp ▸ h.congr fun b _ _ => (binFold_empty b).symm
  · have h := holds_replicate (projection_size p.p p.q s.l s.k) (0 : ULong ws) hpos
    exact hp ▸ h.congr fun b _ _ => (binFold_empty b).symm

theorem Work.count_spec (hw : ∃ B, Carries s px B w.prj) (h : Counts s R w) (hx : x ∈ s.grid) (hR : x ∉ R) :
    ∃ w', w.count s x.1 x.2 (s.index x) = some w' ∧ w'.prj = w.prj ∧ Counts s (insert x R) w' := by
  obtain ⟨B, hB⟩ := hw
  obtain ⟨h0, h1⟩ := hB.range hx
  obtain ⟨pu, hpu, hu⟩ := h.pu.modify h0 h1 (· + 1)
  obtain ⟨pd, hpd, hd⟩ := h.pd.modify h0 h1 (· + ((s.index x : ℕ) : ULong ws))
  refine ⟨{ w with pu := pu, pd := pd }, ?_, rfl, ?_, ?_⟩
  · exact Option.bind_eq_some_iff.2 ⟨pu, hpu, Option.bind_eq_some_iff.2 ⟨pd, hpd, rfl⟩⟩
  · unfold puOf; rw [binFold_insert hR, BitVec.add_comm]; exact hu
  · unfold pdOf; rw [binFold_insert hR, BitVec.add_comm]; exact hd

/-- After counting, `pu` and `pd` are about all pixels of the support. -/
theorem countAll_spec {works : List (Work ws)} (hw : ∀ w ∈ works, ∃ B, Carries s px B w.prj)
    (h : ∀ w ∈ works, Counts s ∅ w) :
    ∃ works', countAll s works = some works' ∧ works'.map Work.prj = works.map Work.prj ∧
      ∀ w ∈ works', Counts s s.grid w := by
  have hcar : ∀ ws' : List (Work ws), ws'.map Work.prj = works.map Work.prj →
      ∀ w ∈ ws', ∃ B, Carries s px B w.prj := by
    intro ws' heq w hmem
    have : w.prj ∈ works.map Work.prj := heq ▸ List.mem_map_of_mem hmem
    obtain ⟨w₀, hw₀, he⟩ := List.mem_map.1 this
    exact he ▸ hw w₀ hw₀
  have step : ∀ done x rest (st : List (Work ws) × ℕ), s.cells = done ++ x :: rest →
      (st.2 = done.length ∧ st.1.map Work.prj = works.map Work.prj ∧ ∀ w ∈ st.1, Counts s done.toFinset w) →
      ∃ st', countPixel s st x = some st' ∧
        (st'.2 = (done ++ [x]).length ∧ st'.1.map Work.prj = works.map Work.prj ∧
          ∀ w ∈ st'.1, Counts s (done ++ [x]).toFinset w) := by
    rintro done x rest ⟨qs, d⟩ hl ⟨hd, hprj, hcnt⟩
    have hx : x ∈ s.grid := Support.mem_cells.1 (by rw [hl]; simp)
    have hnot : x ∉ done.toFinset := by
      rw [List.mem_toFinset]; exact notMem_of_nodup Support.cells_nodup hl
    have hidx : d = s.index x := hd.trans (Support.index_eq_length hl).symm
    subst hidx
    obtain ⟨qs', hqs, hall⟩ := mapM_forall₂ fun w hw' => Work.count_spec (hcar qs hprj w hw') (hcnt w hw') hx hnot
    refine ⟨(qs', s.index x + 1), ?_, ?_, (map_eq_of_forall₂ hall fun _ _ hQ => hQ.1).trans hprj, ?_⟩
    · exact Option.bind_eq_some_iff.2 ⟨qs', hqs, rfl⟩
    · simpa using hd
    · rw [toFinset_append_singleton]
      exact forall_of_forall₂ hall fun _ _ hQ => hQ.2
  obtain ⟨st, hst, -, hprj, hcnt⟩ := foldlM_invariant
    (fun done (st : List (Work ws) × ℕ) => st.2 = done.length ∧ st.1.map Work.prj = works.map Work.prj ∧
      ∀ w ∈ st.1, Counts s done.toFinset w) (s := (works, 0)) ⟨rfl, rfl, by simpa using h⟩ step
  refine ⟨st.1, ?_, hprj, fun w hmem => Support.cells_toFinset (s := s) ▸ hcnt w hmem⟩
  exact Option.bind_eq_some_iff.2 ⟨st, hst, rfl⟩

/-! ### Removing a pixel -/

/-- Removing a pixel of `R` from its bin leaves the arrays to `R.erase x`. -/
theorem Work.strike_spec (h : Tracks s px R w) (hx : x ∈ s.grid) (hR : x ∈ R) :
    ∃ w', w.strike s x.1 x.2 (px x) (BitVec.ofNat _ (s.index x)) =
        some (w', s.bin w.prj.angle x, puOf ws s w.prj.angle (R.erase x) (s.bin w.prj.angle x)) ∧
      w'.prj.angle = w.prj.angle ∧ Tracks s px (R.erase x) w' := by
  obtain ⟨h0, h1⟩ := h.carries.range hx
  obtain ⟨bins, hb, hc⟩ := h.carries.erase hx hR
  obtain ⟨pd, hpd, hd⟩ := h.counts.pd.modify h0 h1 (· - BitVec.ofNat _ (s.index x))
  obtain ⟨pu, hpu, hu⟩ := h.counts.pu.modify h0 h1 (· - 1)
  have hsub : ∀ a y : ULong ws, a + y - a = y := add_sub_cancel_left
  have hpu' : Holds pu w.prj.size (puOf ws s w.prj.angle (R.erase x)) := by
    unfold puOf; rw [binFold_erase hsub hR]; exact hu
  have hpd' : Holds pd w.prj.size (pdOf ws s w.prj.angle (R.erase x)) := by
    unfold pdOf; rw [binFold_erase hsub hR]; exact hd
  refine ⟨{ prj := { w.prj with bins := bins }, pu := pu, pd := pd }, ?_, rfl, hc, hpu', hpd'⟩
  exact Option.bind_eq_some_iff.2 ⟨bins, hb, Option.bind_eq_some_iff.2 ⟨pd, hpd,
    Option.bind_eq_some_iff.2 ⟨pu, hpu, Option.bind_eq_some_iff.2 ⟨_, hpu'.load _ h0 h1, rfl⟩⟩⟩⟩

/-- The pixels outside `R` have their value in the array `pixels`. -/
structure Known (s : Support) (px : ℕ × ℕ → Byte) (R : Finset (ℕ × ℕ)) (pixels : List Byte) : Prop where
  length : pixels.length = s.l * s.k
  get : ∀ x ∈ s.grid, x ∉ R → pixels[s.index x]? = some (px x)

theorem Known.store {pixels : List Byte} (h : Known s px R pixels) (hx : x ∈ s.grid) :
    ∃ pixels', store pixels ((x.1 : ℤ) * s.k + x.2) (px x) = some pixels' ∧ Known s px (R.erase x) pixels' := by
  have hlt := Support.index_lt hx
  have hidx : ((x.1 : ℤ) * s.k + x.2) = (s.index x : ℕ) := by simp [Support.index]
  refine ⟨pixels.set (s.index x) (px x), ?_, by simpa using h.length, fun y hy hyR => ?_⟩
  · rw [hidx, Buffer.store, if_pos (by rw [h.length]; omega), Int.toNat_natCast]
  · by_cases hxy : y = x
    · subst hxy
      rw [List.getElem?_set_self (by rw [h.length]; exact hlt)]
    · rw [List.getElem?_set_ne fun he => hxy (Support.index_injOn hx hy he).symm]
      exact h.get y hy fun hm => hyR (Finset.mem_erase.2 ⟨hxy, hm⟩)

/-- `ligne` holds its line of the support. -/
structure Line.Holds (s : Support) (px : ℕ × ℕ → Byte) (ligne : Line) : Prop where
  num_line : ligne.num_line < s.l
  val : ∀ c < s.k, ligne.val[c]? = some (px (ligne.num_line, c))

/-- The pixels of line `n`. -/
def Support.row (s : Support) (n : ℕ) : Finset (ℕ × ℕ) :=
  (Finset.range s.k).image fun c => (n, c)

theorem Support.mem_row {n : ℕ} {x : ℕ × ℕ} : x ∈ s.row n ↔ x.1 = n ∧ x.2 < s.k := by
  obtain ⟨a, b⟩ := x
  simp only [row, Finset.mem_image, Finset.mem_range, Prod.mk.injEq]
  constructor
  · rintro ⟨c, hc, rfl, rfl⟩; exact ⟨rfl, hc⟩
  · rintro ⟨rfl, h⟩; exact ⟨b, h, rfl, rfl⟩

theorem fillPixel_spec {ligne : Line} (hl : ligne.Holds s px) {D : List (ℤ × ℤ)} {st : List Byte × List (Work ws)}
    {c : ℕ} (hc : c < s.k) (hR : (ligne.num_line, c) ∈ R) (hk : Known s px R st.1)
    (hD : st.2.map (·.prj.angle) = D) (hw : ∀ w ∈ st.2, Tracks s px R w) :
    ∃ st', fillPixel s ligne st c = some st' ∧ Known s px (R.erase (ligne.num_line, c)) st'.1 ∧
      st'.2.map (·.prj.angle) = D ∧ ∀ w ∈ st'.2, Tracks s px (R.erase (ligne.num_line, c)) w := by
  have hx : (ligne.num_line, c) ∈ s.grid := Support.mem_grid.2 ⟨hl.num_line, hc⟩
  have hv : load ligne.val c = some (px (ligne.num_line, c)) := by
    rw [load, if_pos (by omega), Int.toNat_natCast, hl.val c hc]
  have hdiet : (BitVec.ofInt _ (c + ligne.num_line * s.k) : ULong ws) =
      BitVec.ofNat _ (s.index (ligne.num_line, c)) := by
    rw [← BitVec.ofInt_natCast]
    congr 1
    simp [Support.index, Int.add_comm]
  obtain ⟨pixels', hp, hk'⟩ := hk.store hx
  have hstrike : ∀ w ∈ st.2, ∃ w', (w.strike s ligne.num_line c (px (ligne.num_line, c))
      (BitVec.ofInt _ (c + ligne.num_line * s.k))).map Prod.fst = some w' ∧
      w'.prj.angle = w.prj.angle ∧ Tracks s px (R.erase (ligne.num_line, c)) w' := by
    intro w hmem
    obtain ⟨w', hw', hang, htr⟩ := Work.strike_spec (hw w hmem) hx hR
    exact ⟨w', Option.map_eq_some_iff.2 ⟨_, hdiet ▸ hw', rfl⟩, hang, htr⟩
  obtain ⟨works', hws, hall⟩ := mapM_forall₂ hstrike
  refine ⟨(pixels', works'), ?_, hk', (map_eq_of_forall₂ hall fun _ _ hQ => hQ.1).trans hD,
    forall_of_forall₂ hall fun _ _ hQ => hQ.2⟩
  exact Option.bind_eq_some_iff.2 ⟨_, hv, Option.bind_eq_some_iff.2 ⟨_, hp,
    Option.bind_eq_some_iff.2 ⟨_, hws, rfl⟩⟩⟩

/-- Filling in a line makes its pixels known. -/
theorem fillLine_spec {ligne : Line} (hl : ligne.Holds s px) {D : List (ℤ × ℤ)} {st : List Byte × List (Work ws)}
    (hrow : s.row ligne.num_line ⊆ R) (hk : Known s px R st.1)
    (hD : st.2.map (·.prj.angle) = D) (hw : ∀ w ∈ st.2, Tracks s px R w) :
    ∃ st', fillLine s ligne st = some st' ∧ Known s px (R \ s.row ligne.num_line) st'.1 ∧
      st'.2.map (·.prj.angle) = D ∧ ∀ w ∈ st'.2, Tracks s px (R \ s.row ligne.num_line) w := by
  let left (done : List ℕ) : Finset (ℕ × ℕ) := R \ (done.toFinset.image fun c => (ligne.num_line, c))
  have step : ∀ done (c : ℕ) rest (st : List Byte × List (Work ws)), List.range s.k = done ++ c :: rest →
      (Known s px (left done) st.1 ∧ st.2.map (·.prj.angle) = D ∧ ∀ w ∈ st.2, Tracks s px (left done) w) →
      ∃ st', fillPixel s ligne st c = some st' ∧
        (Known s px (left (done ++ [c])) st'.1 ∧ st'.2.map (·.prj.angle) = D ∧
          ∀ w ∈ st'.2, Tracks s px (left (done ++ [c])) w) := by
    rintro done c rest st hrange ⟨hk, hD, hw⟩
    have hc : c < s.k := List.mem_range.1 (by rw [hrange]; simp)
    have hnot := notMem_of_nodup List.nodup_range hrange
    have hR : (ligne.num_line, c) ∈ left done :=
      Finset.mem_sdiff.2 ⟨hrow (Support.mem_row.2 ⟨rfl, hc⟩), by simpa using hnot⟩
    have hleft : left (done ++ [c]) = (left done).erase (ligne.num_line, c) := by
      ext y
      simp only [left, List.toFinset_append, List.toFinset_cons, List.toFinset_nil, Finset.mem_sdiff,
        Finset.mem_image, Finset.mem_union, Finset.mem_erase, List.mem_toFinset, Finset.mem_insert]
      grind
    rw [hleft]
    exact fillPixel_spec hl hc hR hk hD hw
  have hleft0 : left [] = R := by simp [left]
  have hleftk : left (List.range s.k) = R \ s.row ligne.num_line := by
    have : (List.range s.k).toFinset = Finset.range s.k := by ext; simp
    simp only [left, Support.row, this]
  obtain ⟨st', hst, hk', hD', hw'⟩ := foldlM_invariant
    (fun done (st : List Byte × List (Work ws)) => Known s px (left done) st.1 ∧ st.2.map (·.prj.angle) = D ∧
      ∀ w ∈ st.2, Tracks s px (left done) w) (s := st) (by rw [hleft0]; exact ⟨hk, hD, hw⟩) step
  exact ⟨st', hst, hleftk ▸ hk', hD', hleftk ▸ hw'⟩

/-! ### The list of univocal bins -/

/-- The entry `u` of the univocal list points to a bin with one pixel of `R`; `D` are the angles of the
projections. -/
def Univocal (s : Support) (D : List (ℤ × ℤ)) (R : Finset (ℕ × ℕ)) (u : Univoc) : Prop :=
  ∃ d, D[u.1]? = some d ∧ unknowns s d R u.2 = 1

/-- The entry `u` of the univocal list points to a bin of a projection. -/
def InRange (s : Support) (D : List (ℤ × ℤ)) (u : Univoc) : Prop :=
  ∃ d, D[u.1]? = some d ∧ 0 ≤ u.2 ∧ u.2 < projection_size d.1 d.2 s.l s.k

theorem getElem?_angle {works : List (Work ws)} {D : List (ℤ × ℤ)} (hD : works.map (·.prj.angle) = D) {i : ℕ}
    {d : ℤ × ℤ} (hi : D[i]? = some d) : ∃ w ∈ works, works[i]? = some w ∧ w.prj.angle = d := by
  subst hD
  rw [List.getElem?_map, Option.map_eq_some_iff] at hi
  obtain ⟨w, hw, hang⟩ := hi
  exact ⟨w, List.mem_of_getElem? hw, hw, hang⟩

theorem Tracks.size_eq (h : Tracks s px R w) :
    w.prj.size = projection_size w.prj.angle.1 w.prj.angle.2 s.l s.k :=
  h.carries.size

theorem pushUnivocs_spec (hsub : R ⊆ s.grid) (h : Tracks s px R w) (i : ℕ) (acc : List Univoc) :
    ∃ acc', pushUnivocs acc (w, i) = some acc' ∧
      ∀ u, u ∈ acc' ↔ u ∈ acc ∨ u.1 = i ∧ 0 ≤ u.2 ∧ u.2 < w.prj.size ∧ unknowns s w.prj.angle R u.2 = 1 := by
  have step : ∀ done (j : ℕ) rest (acc' : List Univoc), List.range w.prj.size.toNat = done ++ j :: rest →
      (∀ u, u ∈ acc' ↔ u ∈ acc ∨ u.1 = i ∧ 0 ≤ u.2 ∧ u.2.toNat ∈ done ∧ unknowns s w.prj.angle R u.2 = 1) →
      ∃ acc'', pushUnivoc i w acc' j = some acc'' ∧
        ∀ u, u ∈ acc'' ↔ u ∈ acc ∨ u.1 = i ∧ 0 ≤ u.2 ∧ u.2.toNat ∈ done ++ [j] ∧
          unknowns s w.prj.angle R u.2 = 1 := by
    intro done j rest acc' hrange hacc
    have hj : (j : ℤ) < w.prj.size := by
      have : j ∈ List.range w.prj.size.toNat := by rw [hrange]; simp
      have := List.mem_range.1 this
      omega
    refine ⟨_, Option.bind_eq_some_iff.2 ⟨_, h.counts.pu.load j (by omega) hj, rfl⟩, fun u => ?_⟩
    have hone := puOf_eq_one_iff ws hsub w.prj.angle j
    have hbj : 0 ≤ u.2 → (u.2.toNat = j ↔ u.2 = (j : ℤ)) := by omega
    have hu : u = (i, (j : ℤ)) ↔ u.1 = i ∧ u.2 = j := Prod.ext_iff
    split
    · rename_i h1
      simp only [List.mem_append, hacc, List.mem_singleton, hu]
      grind
    · rename_i h1
      simp only [List.mem_append, hacc, List.mem_singleton]
      grind
  obtain ⟨us, hus, hmem⟩ := foldlM_invariant
    (fun done (acc' : List Univoc) => ∀ u, u ∈ acc' ↔ u ∈ acc ∨ u.1 = i ∧ 0 ≤ u.2 ∧ u.2.toNat ∈ done ∧
      unknowns s w.prj.angle R u.2 = 1) (s := acc) (by simp) step
  refine ⟨us, hus, fun u => ?_⟩
  rw [hmem, List.mem_range]
  have : 0 ≤ u.2 → (u.2.toNat < w.prj.size.toNat ↔ u.2 < w.prj.size) := by omega
  grind

/-- The initial list consists of the bins with one unknown pixel. -/
theorem univocList_spec (hsub : R ⊆ s.grid) {works : List (Work ws)} {D : List (ℤ × ℤ)}
    (hD : works.map (·.prj.angle) = D) (hw : ∀ w ∈ works, Tracks s px R w) :
    ∃ us, univocList works = some us ∧ ∀ u, u ∈ us ↔ InRange s D u ∧ Univocal s D R u := by
  let found (done : List (Work ws × ℕ)) (u : Univoc) : Prop :=
    ∃ e ∈ done, u.1 = e.2 ∧ 0 ≤ u.2 ∧ u.2 < e.1.prj.size ∧ unknowns s e.1.prj.angle R u.2 = 1
  have step : ∀ done (e : Work ws × ℕ) rest (acc : List Univoc), works.zipIdx = done ++ e :: rest →
      (∀ u, u ∈ acc ↔ found done u) → ∃ acc', pushUnivocs acc e = some acc' ∧
        ∀ u, u ∈ acc' ↔ found (done ++ [e]) u := by
    rintro done ⟨w, i⟩ rest acc hzip hacc
    have hmem : w ∈ works := by
      have : (w, i) ∈ works.zipIdx := by rw [hzip]; simp
      exact (List.mem_zipIdx' this).2 ▸ List.getElem_mem _
    obtain ⟨us, hus, hu⟩ := pushUnivocs_spec hsub (hw w hmem) i acc
    refine ⟨us, hus, fun u => ?_⟩
    simp [hu, hacc, found, or_and_right, exists_or]
  obtain ⟨us, hus, hmem⟩ := foldlM_invariant
    (fun done (acc : List Univoc) => ∀ u, u ∈ acc ↔ found done u) (s := []) (by simp [found]) step
  refine ⟨us, hus, fun u => ?_⟩
  rw [hmem]
  constructor
  · rintro ⟨⟨w, i⟩, he, rfl, h0, h1, hone⟩
    have hi := List.mk_mem_zipIdx_iff_getElem?.1 he
    have hang : D[u.1]? = some w.prj.angle := by rw [← hD, List.getElem?_map, hi]; rfl
    have hsz := (hw w (List.mem_of_getElem? hi)).size_eq
    exact ⟨⟨_, hang, h0, hsz ▸ h1⟩, _, hang, hone⟩
  · rintro ⟨⟨d, hd, h0, h1⟩, d', hd', hone⟩
    obtain rfl : d = d' := Option.some.inj (hd.symm.trans hd')
    obtain ⟨w, hmem, hi, rfl⟩ := getElem?_angle hD hd
    refine ⟨(w, u.1), List.mk_mem_zipIdx_iff_getElem?.2 hi, rfl, h0, ?_, hone⟩
    rw [(hw w hmem).size_eq]; exact h1

theorem load_pu {works : List (Work ws)} {D : List (ℤ × ℤ)} (hD : works.map (·.prj.angle) = D)
    (hw : ∀ w ∈ works, Tracks s px R w) {u : Univoc} (hu : InRange s D u) :
    ∃ w d, works[u.1]? = some w ∧ D[u.1]? = some d ∧ w.prj.angle = d ∧ w ∈ works ∧
      0 ≤ u.2 ∧ u.2 < w.prj.size ∧ load w.pu u.2 = some (puOf ws s d R u.2) := by
  obtain ⟨d, hd, h0, h1⟩ := hu
  obtain ⟨w, hmem, hi, rfl⟩ := getElem?_angle hD hd
  have h1' : u.2 < w.prj.size := (hw w hmem).size_eq ▸ h1
  exact ⟨w, _, hi, hd, rfl, hmem, h0, h1', (hw w hmem).counts.pu.load _ h0 h1'⟩

/-- The loop that advances `curr` stops at a univocal bin and passes none. -/
theorem skip_spec (hsub : R ⊆ s.grid) {works : List (Work ws)} {D : List (ℤ × ℤ)}
    (hD : works.map (·.prj.angle) = D) (hw : ∀ w ∈ works, Tracks s px R w) {curr : List Univoc}
    (hin : ∀ u ∈ curr, InRange s D u) (hu : ∃ u ∈ curr, Univocal s D R u) :
    ∃ u curr', skip works curr = some (u, curr') ∧ u ∈ curr ∧ Univocal s D R u ∧
      (∀ e ∈ curr', e ∈ curr) ∧ ∀ e ∈ curr, Univocal s D R e → e ∈ curr' := by
  induction curr with
  | nil => simp at hu
  | cons e curr ih =>
    obtain ⟨w, d, hi, hd, -, -, -, -, hload⟩ := load_pu hD hw (hin e (List.mem_cons_self ..))
    by_cases hone : unknowns s d R e.2 = 1
    · refine ⟨e, e :: curr, ?_, List.mem_cons_self .., ⟨d, hd, hone⟩, fun _ h => h, fun _ h _ => h⟩
      simp [skip, hi, hload, (puOf_eq_one_iff ws hsub d e.2).2 hone]
    · have hne : ¬ Univocal s D R e := by
        rintro ⟨d', hd', h⟩
        exact hone (Option.some.inj (hd.symm.trans hd') ▸ h)
      have hu' : ∃ u ∈ curr, Univocal s D R u := by
        obtain ⟨u, hmem, h⟩ := hu
        rcases List.mem_cons.1 hmem with rfl | hmem
        · exact absurd h hne
        · exact ⟨u, hmem, h⟩
      obtain ⟨u, curr', hs, hmem, h, hback, hfwd⟩ := ih (fun u hu => hin u (List.mem_cons_of_mem _ hu)) hu'
      refine ⟨u, curr', ?_, List.mem_cons_of_mem _ hmem, h, fun e h => List.mem_cons_of_mem _ (hback e h), ?_⟩
      · have hc : ¬ puOf ws s d R e.2 = 1 := mt (puOf_eq_one_iff ws hsub d e.2).1 hone
        rw [skip, hi]
        simp only [Option.bind_eq_bind, Option.bind_some, hload, if_neg hc, hs]
      · intro e' he' h'
        rcases List.mem_cons.1 he' with rfl | he'
        · exact absurd h' hne
        · exact hfwd e' he' h'

theorem skip_none (hsub : R ⊆ s.grid) {works : List (Work ws)} {D : List (ℤ × ℤ)}
    (hD : works.map (·.prj.angle) = D) (hw : ∀ w ∈ works, Tracks s px R w) {curr : List Univoc}
    (hin : ∀ u ∈ curr, InRange s D u) (hu : ∀ u ∈ curr, ¬ Univocal s D R u) : skip works curr = none := by
  induction curr with
  | nil => rfl
  | cons e curr ih =>
    obtain ⟨w, d, hi, hd, -, -, -, -, hload⟩ := load_pu hD hw (hin e (List.mem_cons_self ..))
    have hc : ¬ puOf ws s d R e.2 = 1 :=
      fun h => hu e (List.mem_cons_self ..) ⟨d, hd, (puOf_eq_one_iff ws hsub d e.2).1 h⟩
    rw [skip, hi]
    simp only [Option.bind_eq_bind, Option.bind_some, hload, if_neg hc]
    exact ih (fun u h => hin u (List.mem_cons_of_mem _ h)) fun u h => hu u (List.mem_cons_of_mem _ h)

/-! ### One iteration -/

/-- Striking a pixel lists the bins that become univocal. -/
theorem strikeAll_spec (hsub : R ⊆ s.grid) (hx : x ∈ s.grid) (hR : x ∈ R) {works : List (Work ws)}
    (hw : ∀ w ∈ works, Tracks s px R w) (j : ℕ) :
    ∃ works' new, strikeAll s x.1 x.2 (px x) (BitVec.ofNat _ (s.index x)) j works = some (works', new) ∧
      works'.map (·.prj.angle) = works.map (·.prj.angle) ∧ (∀ w ∈ works', Tracks s px (R.erase x) w) ∧
      ∀ u, u ∈ new ↔ ∃ i d, u = (j + i, s.bin d x) ∧ (works.map (·.prj.angle))[i]? = some d ∧
        unknowns s d (R.erase x) (s.bin d x) = 1 := by
  induction works generalizing j with
  | nil => exact ⟨[], [], rfl, rfl, by simp, by simp⟩
  | cons w works ih =>
    obtain ⟨w', hw', hang, htr⟩ := Work.strike_spec (hw w (List.mem_cons_self ..)) hx hR
    obtain ⟨works', new, hs, hangs, htrs, hnew⟩ := ih (fun w h => hw w (List.mem_cons_of_mem _ h)) (j + 1)
    have hone := puOf_eq_one_iff ws ((Finset.erase_subset x R).trans hsub) w.prj.angle
      (s.bin w.prj.angle x)
    refine ⟨w' :: works', _, Option.bind_eq_some_iff.2 ⟨_, hw', Option.bind_eq_some_iff.2 ⟨_, hs, rfl⟩⟩, ?_, ?_, ?_⟩
    · simp [hang, hangs]
    · simpa [htr] using htrs
    · intro u
      constructor
      · intro hu
        split at hu
        · rename_i h1
          rcases List.mem_cons.1 hu with rfl | hu
          · exact ⟨0, _, rfl, rfl, hone.1 h1⟩
          · obtain ⟨i, d, rfl, hd, h⟩ := (hnew u).1 hu
            exact ⟨i + 1, d, by rw [Nat.add_right_comm, Nat.add_assoc], hd, h⟩
        · obtain ⟨i, d, rfl, hd, h⟩ := (hnew u).1 hu
          exact ⟨i + 1, d, by rw [Nat.add_right_comm, Nat.add_assoc], hd, h⟩
      · rintro ⟨i, d, rfl, hd, h⟩
        cases i with
        | zero =>
          obtain rfl : w.prj.angle = d := Option.some.inj hd
          rw [if_pos (hone.2 h)]
          exact List.mem_cons_self ..
        | succ i =>
          have hmem := (hnew (j + (i + 1), s.bin d x)).2
            ⟨i, d, by rw [Nat.add_right_comm, Nat.add_assoc], hd, h⟩
          split
          · exact List.mem_cons_of_mem _ hmem
          · exact hmem

/-- The invariant of the peeling loop, for projections of the angles `D` and the set `R` of unknown pixels. -/
structure PeelInv (s : Support) (px : ℕ × ℕ → Byte) (D : List (ℤ × ℤ)) (R : Finset (ℕ × ℕ)) (st : PeelState ws) :
    Prop where
  sub : R ⊆ s.grid
  nonneg : ∀ d ∈ D, 0 ≤ d.2
  angles : st.works.map (·.prj.angle) = D
  tracks : ∀ w ∈ st.works, Tracks s px R w
  known : Known s px R st.pixels
  inRange : ∀ u ∈ st.curr, InRange s D u
  listed : ∀ u, InRange s D u → Univocal s D R u → u ∈ st.curr

theorem unknowns_eq_one_iff {d : ℤ × ℤ} {b : ℤ} :
    unknowns s d R b = 1 ↔ ∃ x, s.bin d x = b ∧ Alone s.bin R d x := by
  unfold unknowns
  rw [Finset.card_eq_one]
  constructor
  · rintro ⟨x, hx⟩
    have hmem : x ∈ R.filter fun x => s.bin d x = b := by rw [hx]; simp
    obtain ⟨hR, hb⟩ := Finset.mem_filter.1 hmem
    refine ⟨x, hb, hR, fun y hy hby => ?_⟩
    have : y ∈ R.filter fun x => s.bin d x = b := Finset.mem_filter.2 ⟨hy, hby.trans hb⟩
    rwa [hx, Finset.mem_singleton] at this
  · rintro ⟨x, rfl, hR, huniq⟩
    refine ⟨x, Finset.ext fun y => ?_⟩
    rw [Finset.mem_filter, Finset.mem_singleton]
    exact ⟨fun h => huniq y h.1 h.2, by rintro rfl; exact ⟨hR, rfl⟩⟩

theorem filter_eq_singleton {d : ℤ × ℤ} (hx : Alone s.bin R d x) :
    (R.filter fun y => s.bin d y = s.bin d x) = {x} := by
  ext y
  rw [Finset.mem_filter, Finset.mem_singleton]
  exact ⟨fun h => hx.2 y h.1 h.2, by rintro rfl; exact ⟨hx.1, rfl⟩⟩

variable (ws) in
/-- The line and the column are recovered from the index of a pixel. -/
theorem decode_index (hx : x ∈ s.grid) :
    intOfULong (BitVec.ofNat ws.bits (s.index x) / BitVec.ofNat _ s.k) = x.1 ∧
      intOfULong (BitVec.ofNat ws.bits (s.index x) - BitVec.ofInt _ ((x.1 : ℤ) * s.k)) = x.2 := by
  obtain ⟨h1, h2⟩ := Support.mem_grid.1 hx
  have hidx : s.index x ≤ INT_MAX := (Support.index_lt hx).le.trans s.fits
  have hmul : x.1 * s.k ≤ s.index x := by unfold Support.index; omega
  have hk : s.k ≤ INT_MAX := le_trans (Nat.le_mul_of_pos_left s.k (by omega)) s.fits
  have hnat : ∀ n ≤ INT_MAX, (BitVec.ofNat ws.bits n).toNat = n := fun n hn => by
    rw [BitVec.toNat_ofNat, Nat.mod_eq_of_lt (lt_two_pow_bits ws hn)]
  constructor
  · have hdiv : (BitVec.ofNat ws.bits (s.index x) / BitVec.ofNat _ s.k).toNat = x.1 := by
      rw [BitVec.toNat_udiv, hnat _ hidx, hnat _ hk, Support.index_div hx]
    rw [intOfULong_eq (by rw [hdiv]; exact le_trans (by nlinarith) hidx), hdiv]
  · have hsub : BitVec.ofNat ws.bits (s.index x) - BitVec.ofInt _ ((x.1 : ℤ) * s.k) = BitVec.ofNat _ x.2 := by
      have : ((x.1 : ℤ) * s.k) = ((x.1 * s.k : ℕ) : ℤ) := by push_cast; rfl
      rw [this, BitVec.ofInt_natCast]
      have hadd : BitVec.ofNat ws.bits (s.index x) = BitVec.ofNat _ (x.1 * s.k) + BitVec.ofNat _ x.2 := by
        rw [← BitVec.ofNat_add]; rfl
      rw [hadd]
      exact add_sub_cancel_left _ _
    have hx2 : x.2 ≤ INT_MAX := le_trans (by unfold Support.index; omega) hidx
    rw [hsub, intOfULong_eq (by rw [hnat _ hx2]; exact hx2), hnat _ hx2]

/-- One iteration makes known a pixel that is alone in a bin. -/
theorem peelStep_spec {D : List (ℤ × ℤ)} {st : PeelState ws} (h : PeelInv s px D R st)
    (hex : ∃ d ∈ D, ∃ x, Alone s.bin R d x) :
    ∃ d ∈ D, ∃ x, Alone s.bin R d x ∧ ∃ st', peelStep s st = some st' ∧ PeelInv s px D (R.erase x) st' := by
  have hu : ∃ u ∈ st.curr, Univocal s D R u := by
    obtain ⟨d, hd, x, hx⟩ := hex
    obtain ⟨i, hi⟩ := List.getElem?_of_mem hd
    have hr := Support.bin_range (s := s) (h.nonneg d hd) (h.sub hx.1)
    have hone := unknowns_eq_one_iff.2 ⟨x, rfl, hx⟩
    exact ⟨(i, s.bin d x), h.listed _ ⟨d, hi, hr⟩ ⟨d, hi, hone⟩, d, hi, hone⟩
  obtain ⟨u, curr, hskip, hmem, ⟨d, hd, hone⟩, hback, hfwd⟩ := skip_spec h.sub h.angles h.tracks h.inRange hu
  obtain ⟨w, d', hi, hd', hang, hwmem, h0, h1, -⟩ := load_pu h.angles h.tracks (h.inRange u hmem)
  obtain rfl : d = d' := Option.some.inj (hd.symm.trans hd')
  subst hang
  obtain ⟨x, hbin, hx⟩ := unknowns_eq_one_iff.1 hone
  have hxg := h.sub hx.1
  have htr := h.tracks w hwmem
  have hsing := hbin ▸ filter_eq_singleton hx
  -- the bin holds the value and the index of `x`
  have hval : load w.prj.bins u.2 = some (px x) := by
    rw [htr.carries.bins.load _ h0 h1, binFold_of_filter_eq_singleton (fun a => by simp) hsing]
  have hdiet : load w.pd u.2 = some (BitVec.ofNat _ (s.index x)) := by
    rw [htr.counts.pd.load _ h0 h1, pdOf, binFold_of_filter_eq_singleton (fun a => by simp) hsing]
  obtain ⟨hl, hk⟩ := decode_index ws hxg
  obtain ⟨pixels, hpix, hknown⟩ := h.known.store hxg
  obtain ⟨works, new, hstrike, hangs, htrs, hnew⟩ := strikeAll_spec h.sub hxg hx.1 h.tracks 0
  refine ⟨w.prj.angle, List.mem_of_getElem? hd, x, hx, ⟨pixels, works, curr ++ new⟩, ?_, ?_⟩
  · refine Option.bind_eq_some_iff.2 ⟨_, hskip, Option.bind_eq_some_iff.2 ⟨_, hi,
      Option.bind_eq_some_iff.2 ⟨_, hval, Option.bind_eq_some_iff.2 ⟨_, hdiet, ?_⟩⟩⟩⟩
    simp only [hl, hk]
    exact Option.bind_eq_some_iff.2 ⟨_, hpix, Option.bind_eq_some_iff.2 ⟨_, hstrike, rfl⟩⟩
  · have hD : works.map (·.prj.angle) = D := hangs.trans h.angles
    refine ⟨(Finset.erase_subset x R).trans h.sub, h.nonneg, hD, htrs, hknown, fun e he => ?_, fun e hein hone' => ?_⟩
    · rcases List.mem_append.1 he with he | he
      · exact h.inRange e (hback e he)
      · obtain ⟨i, d, rfl, hd, -⟩ := (hnew e).1 he
        rw [h.angles] at hd
        rw [Nat.zero_add]
        exact ⟨d, hd, Support.bin_range (h.nonneg d (List.mem_of_getElem? hd)) hxg⟩
    · obtain ⟨d, hd, h1'⟩ := hone'
      rw [List.mem_append]
      by_cases hb : e.2 = s.bin d x
      · -- a bin of the removed pixel: it is listed by the iteration itself
        right
        refine (hnew e).2 ⟨e.1, d, by rw [Nat.zero_add, ← hb], by rw [h.angles]; exact hd, hb ▸ h1'⟩
      · left
        have hsame : unknowns s d R e.2 = unknowns s d (R.erase x) e.2 := by
          unfold unknowns
          congr 1
          ext y
          simp only [Finset.mem_filter, Finset.mem_erase]
          grind
        have hone'' : Univocal s D R e := ⟨d, hd, hsame ▸ h1'⟩
        exact hfwd e (h.listed e hein hone'') hone''

/-- Without a pixel alone in a bin, the iteration runs off the end of the list. -/
theorem peelStep_none {D : List (ℤ × ℤ)} {st : PeelState ws} (h : PeelInv s px D R st)
    (hno : ∀ d ∈ D, ∀ x, ¬ Alone s.bin R d x) : peelStep s st = none := by
  have hskip : skip st.works st.curr = none := by
    refine skip_none h.sub h.angles h.tracks h.inRange fun u _ => ?_
    rintro ⟨d, hd, hone⟩
    obtain ⟨x, -, hx⟩ := unknowns_eq_one_iff.1 hone
    exact hno d (List.mem_of_getElem? hd) x hx
  rw [peelStep, hskip]
  rfl

/-! ### The loop -/

theorem peelLoop_spec {D : List (ℤ × ℤ)} (hR : Peelable s.bin D R) {st : PeelState ws} (h : PeelInv s px D R st) :
    ∃ st', peelLoop s R.card st = some st' ∧ PeelInv s px D ∅ st' := by
  induction hn : R.card generalizing R st with
  | zero => exact ⟨st, rfl, Finset.card_eq_zero.1 hn ▸ h⟩
  | succ n ih =>
    have hne : R.Nonempty := Finset.card_pos.1 (by omega)
    obtain ⟨d, hd, x, hx, st', hst', hinv⟩ := peelStep_spec h (hR.exists_alone hne)
    have hcard : (R.erase x).card = n := by rw [Finset.card_erase_of_mem hx.1]; omega
    obtain ⟨st'', hst'', hinv'⟩ := ih (hR.mono (Finset.erase_subset x R)) hinv hcard
    exact ⟨st'', Option.bind_eq_some_iff.2 ⟨st', hst', hst''⟩, hinv'⟩

theorem peelLoop_none {D : List (ℤ × ℤ)} (hR : ¬ Peelable s.bin D R) {st : PeelState ws} (h : PeelInv s px D R st) :
    peelLoop s R.card st = none := by
  induction hn : R.card generalizing R st with
  | zero => exact absurd (Finset.card_eq_zero.1 hn ▸ peelable_empty) hR
  | succ n ih =>
    by_cases hex : ∃ d ∈ D, ∃ x, Alone s.bin R d x
    · obtain ⟨d, hd, x, hx, st', hst', hinv⟩ := peelStep_spec h hex
      have hcard : (R.erase x).card = n := by rw [Finset.card_erase_of_mem hx.1]; omega
      have hnone := ih (mt (hx.peelable_erase_iff hd).1 hR) hinv hcard
      rw [peelLoop, hst']
      exact hnone
    · push Not at hex
      rw [peelLoop, peelStep_none h hex]
      rfl

end MpOlsr
