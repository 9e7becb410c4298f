import MpOlsr.Mojette.Peel

/-!
# Recovering a support

`inverse_system` and `inverse` return the original support exactly when the pixels that are not given are
peelable for the angles of the projections (`inverse_system_spec`, `inverse_system_none`, `inverse_spec`).  With the
facts about stopping sets this gives the two recovery theorems: any `l` of the lines and the projections with
`q = 1` recover a support of `l` lines (`inverse_system_recovers`), and `inverse` succeeds under the direction sum
criterion (`inverse_recovers`).
-/

namespace MpOlsr

open Buffer Peeling Fault

variable {ws : WordSize}

/-! ### Supports of one size -/

/-- The geometry of a support depends on its size only. -/
structure SameSize (s0 s : Support) : Prop where
  l : s0.l = s.l
  k : s0.k = s.k

namespace SameSize

variable {s0 s : Support}

theorem grid (h : SameSize s0 s) : s0.grid = s.grid := by
  simp only [Support.grid, h.l, h.k]

theorem bin (h : SameSize s0 s) : s0.bin = s.bin := by
  unfold Support.bin
  rw [h.l]

theorem carries (h : SameSize s0 s) {px : ℕ × ℕ → Byte} {R : Finset (ℕ × ℕ)} {p : Projection}
    (hp : Carries s px R p) : Carries s0 px R p := by
  refine ⟨hp.nonneg, ?_, ?_⟩
  · rw [hp.size, h.l, h.k]
  · rw [h.bin]; exact hp.bins

theorem line (h : SameSize s0 s) {px : ℕ × ℕ → Byte} {ligne : Line} (hl : ligne.Holds s px) :
    ligne.Holds s0 px :=
  ⟨h.l ▸ hl.num_line, h.k ▸ hl.val⟩

/-- When no pixel is unknown any more, the pixels are those of the original support. -/
theorem pixels_eq (h : SameSize s0 s) {pixels : List Byte} (hk : Known s0 s.pixel ∅ pixels) :
    pixels = s.pixels := by
  have hlen : pixels.length = s.pixels.length := by
    rw [hk.length, s.length_pixels, h.l, h.k]
  refine List.ext_getElem? fun i => ?_
  by_cases hi : i < s.l * s.k
  · have hmem : i ∈ s.cells.map s.index := by rw [Support.map_index_cells]; exact List.mem_range.2 hi
    obtain ⟨x, hx, rfl⟩ := List.mem_map.1 hmem
    have hx := Support.mem_cells.1 hx
    have hidx : s0.index x = s.index x := by unfold Support.index; rw [h.k]
    rw [Support.getElem?_index hx, ← hidx, hk.get x (h.grid ▸ hx) (Finset.notMem_empty x)]
  · rw [List.getElem?_eq_none (by rw [hlen, s.length_pixels]; omega),
      List.getElem?_eq_none (by rw [s.length_pixels]; omega)]

end SameSize

/-! ### The state before the loop -/

/-- The pixels of the lines that are not given. -/
def Support.missing (s : Support) (ligne : List Line) : Finset (ℕ × ℕ) :=
  s.grid.filter fun x => x.1 ∉ ligne.map Line.num_line

theorem Support.mem_missing {s : Support} {ligne : List Line} {x : ℕ × ℕ} :
    x ∈ s.missing ligne ↔ x ∈ s.grid ∧ x.1 ∉ ligne.map Line.num_line := by
  unfold missing; rw [Finset.mem_filter]

theorem Support.missing_nil (s : Support) : s.missing [] = s.grid := by
  unfold missing; simp

theorem Support.missing_append {s : Support} (done : List Line) (ligne : Line) :
    s.missing (done ++ [ligne]) = s.missing done \ s.row ligne.num_line := by
  ext x
  rw [Finset.mem_sdiff, mem_missing, mem_missing, mem_row, mem_grid, List.map_append, List.mem_append]
  simp only [List.map_cons, List.map_nil, List.mem_singleton]
  grind

/-- Every given line takes `k` pixels off the unknown ones. -/
theorem Support.card_missing {s : Support} {px : ℕ × ℕ → Byte} {ligne : List Line}
    (hl : ∀ e ∈ ligne, e.Holds s px) (hnd : (ligne.map Line.num_line).Nodup) :
    (s.missing ligne).card = s.l * s.k - s.k * ligne.length := by
  have hprod : s.missing ligne = (Finset.range s.l \ (ligne.map Line.num_line).toFinset) ×ˢ Finset.range s.k := by
    ext x
    rw [mem_missing, mem_grid, Finset.mem_product, Finset.mem_sdiff, Finset.mem_range, Finset.mem_range,
      List.mem_toFinset]
    tauto
  have hsub : (ligne.map Line.num_line).toFinset ⊆ Finset.range s.l := by
    intro n hn
    obtain ⟨e, he, rfl⟩ := List.mem_map.1 (List.mem_toFinset.1 hn)
    exact Finset.mem_range.2 (hl e he).num_line
  rw [hprod, Finset.card_product, Finset.card_sdiff_of_subset hsub, List.toFinset_card_of_nodup hnd,
    Finset.card_range, Finset.card_range, List.length_map, Nat.sub_mul, Nat.mul_comm s.k]

section Run

variable {s : Support} {px : ℕ × ℕ → Byte} {R : Finset (ℕ × ℕ)}

variable (ws) in
/-- `inverse_system` before the lines are filled in: all pixels are unknown. -/
theorem countAll_tracks (hl : 1 ≤ s.l) (hk : 1 ≤ s.k) {ps : List Projection}
    (hps : ∀ p ∈ ps, Carries s px s.grid p) :
    ∃ works, countAll s (ps.map (Work.new ws s)) = some works ∧
      works.map (·.prj.angle) = ps.map Projection.angle ∧ ∀ w ∈ works, Tracks s px s.grid w := by
  have hnew : (ps.map (Work.new ws s)).map Work.prj = ps := by
    rw [List.map_map]
    exact List.map_id'' (fun _ => rfl) ps
  obtain ⟨works, hw, hprj, hc⟩ := @countAll_spec ws s px (ps.map (Work.new ws s))
    (by rintro w hw; obtain ⟨p, hp, rfl⟩ := List.mem_map.1 hw; exact ⟨_, hps p hp⟩)
    (by rintro w hw; obtain ⟨p, hp, rfl⟩ := List.mem_map.1 hw; exact Work.new_counts hl hk (hps p hp).size)
  have hprj' : works.map Work.prj = ps := hprj.trans hnew
  refine ⟨works, hw, ?_, fun w hwm => ⟨hps _ ?_, hc w hwm⟩⟩
  · rw [← hprj', List.map_map]; rfl
  · rw [← hprj']; exact List.mem_map_of_mem hwm

/-- The lines are filled in one after the other. -/
theorem fillLines_spec {D : List (ℤ × ℤ)} {ligne : List Line} (hl : ∀ e ∈ ligne, e.Holds s px)
    (hnd : (ligne.map Line.num_line).Nodup) {pixels : List Byte} (hlen : pixels.length = s.l * s.k)
    {works : List (Work ws)} (hD : works.map (·.prj.angle) = D) (hw : ∀ w ∈ works, Tracks s px s.grid w) :
    ∃ st, ligne.foldlM (fun st e => fillLine s e st) (pixels, works) = some st ∧
      Known s px (s.missing ligne) st.1 ∧ st.2.map (·.prj.angle) = D ∧
      ∀ w ∈ st.2, Tracks s px (s.missing ligne) w := by
  refine foldlM_invariant (fun done (st : List Byte × List (Work ws)) => Known s px (s.missing done) st.1 ∧
    st.2.map (·.prj.angle) = D ∧ ∀ w ∈ st.2, Tracks s px (s.missing done) w) ?_ ?_
  · rw [Support.missing_nil]
    exact ⟨⟨hlen, fun x hx hxn => absurd hx hxn⟩, hD, hw⟩
  · rintro done e rest st hsplit ⟨hkn, hang, htr⟩
    have he : e ∈ ligne := by rw [hsplit]; simp
    have hrow : s.row e.num_line ⊆ s.missing done := by
      intro x hx
      obtain ⟨h1, h2⟩ := Support.mem_row.1 hx
      refine Support.mem_missing.2 ⟨Support.mem_grid.2 ⟨h1 ▸ (hl e he).num_line, h2⟩, ?_⟩
      rw [h1]
      exact notMem_of_nodup hnd (show ligne.map Line.num_line = done.map Line.num_line ++ e.num_line :: rest.map Line.num_line by
        rw [hsplit]; simp)
    obtain ⟨st', hst', hkn', hang', htr'⟩ := fillLine_spec (hl e he) hrow hkn hang htr
    rw [Support.missing_append]
    exact ⟨st', hst', hkn', hang', htr'⟩

/-- The loop starts with the univocal bins listed. -/
theorem start_spec {D : List (ℤ × ℤ)} (hsub : R ⊆ s.grid) (hq : ∀ d ∈ D, 0 ≤ d.2) {pixels : List Byte}
    (hkn : Known s px R pixels) {works : List (Work ws)} (hD : works.map (·.prj.angle) = D)
    (hw : ∀ w ∈ works, Tracks s px R w) :
    ∃ head, univocList works = some head ∧ PeelInv s px D R ⟨pixels, works, head⟩ := by
  obtain ⟨head, hhead, hmem⟩ := univocList_spec hsub hD hw
  exact ⟨head, hhead, hsub, hq, hD, hw, hkn, fun u hu => ((hmem u).1 hu).1, fun u hin hu => (hmem u).2 ⟨hin, hu⟩⟩

end Run

/-! ### When the transforms return -/

section Spec

variable {s s0 : Support} {ps : List Projection}

/-- Without projections, all lines are copied. -/
theorem copyLines_spec {px : ℕ × ℕ → Byte} {ligne : List Line} (hl : ∀ e ∈ ligne, e.Holds s px) {pixels : List Byte}
    (hlen : pixels.length = s.l * s.k) :
    ∃ pixels', ligne.foldlM (fun pixels e => (List.range s.k).foldlM (fun pixels (k : ℕ) => do
        let v ← load e.val k
        Buffer.store pixels (e.num_line * s.k + k) v) pixels) pixels = some pixels' ∧
      Known s px (s.missing ligne) pixels' := by
  refine foldlM_invariant (fun done pixels => Known s px (s.missing done) pixels) ?_ ?_
  · rw [Support.missing_nil]
    exact ⟨hlen, fun x hx hxn => absurd hx hxn⟩
  · intro done e rest pixels hsplit hkn
    have he : e.Holds s px := hl e (by rw [hsplit]; simp)
    have step : ∀ before (c : ℕ) after (pixels : List Byte), List.range s.k = before ++ c :: after →
        Known s px (s.missing done \ before.toFinset.image fun c => (e.num_line, c)) pixels →
        ∃ pixels', (do
            let v ← load e.val c
            Buffer.store pixels (e.num_line * s.k + c) v) = some pixels' ∧
          Known s px (s.missing done \ (before ++ [c]).toFinset.image fun c => (e.num_line, c)) pixels' := by
      intro before c after pixels hc hkn
      have hck : c < s.k := List.mem_range.1 (by rw [hc]; simp)
      have hx : (e.num_line, c) ∈ s.grid := Support.mem_grid.2 ⟨he.num_line, hck⟩
      have hv : load e.val c = some (px (e.num_line, c)) := by
        rw [load, if_pos (by omega), Int.toNat_natCast, he.val c hck]
      obtain ⟨pixels', hp, hkn'⟩ := hkn.store hx
      refine ⟨pixels', Option.bind_eq_some_iff.2 ⟨_, hv, hp⟩, ?_⟩
      convert hkn' using 1
      ext y
      simp only [Finset.mem_sdiff, Finset.mem_image, List.mem_toFinset, List.mem_append, List.mem_singleton,
        Finset.mem_erase]
      grind
    obtain ⟨pixels', hp, hkn'⟩ := foldlM_invariant
      (fun before pixels => Known s px (s.missing done \ before.toFinset.image fun c => (e.num_line, c)) pixels)
      (by simpa using hkn) step
    refine ⟨pixels', hp, ?_⟩
    rw [Support.missing_append]
    convert hkn' using 2
    ext y
    simp [Support.row]

theorem missing_eq_empty {px : ℕ × ℕ → Byte} {ligne : List Line}
    (hh : ∀ e ∈ ligne, e.Holds s px) (hnd : (ligne.map Line.num_line).Nodup) (hn : s.l = ligne.length) :
    s.missing ligne = ∅ := by
  rw [← Finset.card_eq_zero, Support.card_missing hh hnd, ← hn, Nat.mul_comm, Nat.sub_self]

variable (ws) in
/-- The loop of `inverse_system` starts with the pixels of the missing lines unknown. -/
theorem inverse_system_start (hl : 1 ≤ s.l) (hk : 1 ≤ s.k) {px : ℕ × ℕ → Byte}
    (hps : ∀ p ∈ ps, Carries s px s.grid p) {ligne : List Line} (hh : ∀ e ∈ ligne, e.Holds s px)
    (hnd : (ligne.map Line.num_line).Nodup) (hbr : ¬ (ps.length = 0 ∧ s.l = ligne.length)) :
    ∃ st : PeelState ws, PeelInv s px (ps.map Projection.angle) (s.missing ligne) st ∧
      inverse_system ws s ps ligne =
        (peelLoop s (s.missing ligne).card st).map fun st => (st.pixels, st.works.map Work.prj) := by
  obtain ⟨works, hworks, hang, htr⟩ := countAll_tracks ws hl hk hps
  obtain ⟨⟨pixels, works'⟩, hfill, hkn, hang', htr'⟩ := fillLines_spec hh hnd s.length_pixels hang htr
  have hq : ∀ d ∈ ps.map Projection.angle, 0 ≤ d.2 := by
    intro d hd
    obtain ⟨p, hp, rfl⟩ := List.mem_map.1 hd
    exact (hps p hp).nonneg
  obtain ⟨head, hhead, hinv⟩ := start_spec (Finset.filter_subset _ _) hq hkn hang' htr'
  refine ⟨_, hinv, ?_⟩
  rw [inverse_system, if_neg hbr, hworks, Support.card_missing hh hnd]
  simp only [Option.bind_eq_bind, Option.bind_some, hfill, hhead]
  cases peelLoop s (s.l * s.k - s.k * ligne.length) ⟨pixels, works', head⟩ <;> rfl

variable (ws) in
/-- `inverse_system` returns the support when the missing pixels are peelable, and all bins are then zero. -/
theorem inverse_system_spec (hsize : SameSize s0 s) (hl : 1 ≤ s.l) (hk : 1 ≤ s.k)
    (hps : ∀ p ∈ ps, Carries s s.pixel s.grid p) {ligne : List Line} (hh : ∀ e ∈ ligne, e.Holds s s.pixel)
    (hnd : (ligne.map Line.num_line).Nodup)
    (hpeel : Peelable s.bin (ps.map Projection.angle) (s.missing ligne)) :
    ∃ ps', inverse_system ws s0 ps ligne = some (s.pixels, ps') ∧
      (ps ≠ [] → ∀ p ∈ ps', Carries s0 s.pixel ∅ p) := by
  have hh0 : ∀ e ∈ ligne, e.Holds s0 s.pixel := fun e he => hsize.line (hh e he)
  have hmiss : s0.missing ligne = s.missing ligne := by unfold Support.missing; rw [hsize.grid]
  have hl0 : 1 ≤ s0.l := hsize.l ▸ hl
  have hk0 : 1 ≤ s0.k := hsize.k ▸ hk
  by_cases hbr : ps.length = 0 ∧ s0.l = ligne.length
  · obtain ⟨pixels, hp, hkn⟩ := copyLines_spec hh0 s0.length_pixels
    rw [missing_eq_empty hh0 hnd hbr.2] at hkn
    refine ⟨ps, ?_, fun hne => absurd (List.length_eq_zero_iff.1 hbr.1) hne⟩
    rw [inverse_system, if_pos hbr, ← hsize.pixels_eq hkn]
    exact Option.bind_eq_some_iff.2 ⟨_, hp, rfl⟩
  · have hps0 : ∀ p ∈ ps, Carries s0 s.pixel s0.grid p :=
      fun p hp => hsize.carries (hsize.grid ▸ hps p hp)
    obtain ⟨st, hinv, hrun⟩ := inverse_system_start ws hl0 hk0 hps0 hh0 hnd hbr
    rw [← hsize.bin, ← hmiss] at hpeel
    obtain ⟨st', hst', hinv'⟩ := peelLoop_spec hpeel hinv
    refine ⟨st'.works.map Work.prj, ?_, fun _ p hp => ?_⟩
    · rw [hrun, hst', ← hsize.pixels_eq hinv'.known]
      rfl
    · obtain ⟨w, hw, rfl⟩ := List.mem_map.1 hp
      exact (hinv'.tracks w hw).carries

/-- `inverse_system` runs off the univocal list when the missing pixels contain a stopping set. -/
theorem inverse_system_none (hl : 1 ≤ s.l) (hk : 1 ≤ s.k) {px : ℕ × ℕ → Byte}
    (hps : ∀ p ∈ ps, Carries s px s.grid p) {ligne : List Line} (hh : ∀ e ∈ ligne, e.Holds s px)
    (hnd : (ligne.map Line.num_line).Nodup)
    (hpeel : ¬ Peelable s.bin (ps.map Projection.angle) (s.missing ligne)) : inverse_system ws s ps ligne = none := by
  have hbr : ¬ (ps.length = 0 ∧ s.l = ligne.length) := by
    rintro ⟨-, hn⟩
    rw [missing_eq_empty hh hnd hn] at hpeel
    exact hpeel peelable_empty
  obtain ⟨st, hinv, hrun⟩ := inverse_system_start ws hl hk hps hh hnd hbr
  rw [hrun, peelLoop_none hpeel hinv]
  rfl

end Spec

/-! ### Recovery -/

section Recovery

variable {s s0 : Support}

/-- No two projections with `q = 1` are parallel. -/
theorem pairwise_not_proportional {angles : List ℤ} (h : angles.Nodup) :
    (angles.map fun p => (p, (1 : ℤ))).Pairwise fun d e => ¬ Tomography.Proportional d e := by
  rw [List.pairwise_map]
  exact h.imp fun hne hp => hne (by simpa [Tomography.Proportional] using hp)

/-- As many projections with `q = 1` as missing lines leave no stopping set. -/
theorem peelable_missing {angles : List ℤ} (hnd : angles.Nodup) {px : ℕ × ℕ → Byte} {ligne : List Line}
    (hh : ∀ e ∈ ligne, e.Holds s px) (hndl : (ligne.map Line.num_line).Nodup)
    (hlen : s.l ≤ ligne.length + angles.length) :
    Peelable s.bin (angles.map fun p => (p, 1)) (s.missing ligne) := by
  intro S hS hstop
  have hlt := Tomography.card_lt_of_stopping (Support.stopping_iff.1 hstop)
    (fun x _ y _ h1 h2 => Prod.ext (by exact_mod_cast h1) (by exact_mod_cast h2))
    (by simp) (by simp [isCoprime_one_right]) (pairwise_not_proportional hnd)
  have himage : S.image (fun x : ℕ × ℕ => (x.1 : ℤ)) ⊆
      (Finset.range s.l \ (ligne.map Line.num_line).toFinset).image (Nat.cast : ℕ → ℤ) := by
    intro n hn
    obtain ⟨x, hx, rfl⟩ := Finset.mem_image.1 hn
    obtain ⟨hg, hnot⟩ := Support.mem_missing.1 (hS hx)
    refine Finset.mem_image_of_mem _ (Finset.mem_sdiff.2 ⟨?_, by rwa [List.mem_toFinset]⟩)
    exact Finset.mem_range.2 (Support.mem_grid.1 hg).1
  have hsub : (ligne.map Line.num_line).toFinset ⊆ Finset.range s.l := by
    intro n hn
    obtain ⟨e, he, rfl⟩ := List.mem_map.1 (List.mem_toFinset.1 hn)
    exact Finset.mem_range.2 (hh e he).num_line
  have hcard := (Finset.card_le_card himage).trans Finset.card_image_le
  rw [Finset.card_sdiff_of_subset hsub, List.toFinset_card_of_nodup hndl, Finset.card_range, List.length_map] at hcard
  rw [List.length_map] at hlt
  omega

/-- New projections with `q ≥ 0` receive every pixel of the support. -/
theorem forward_new (hl : 1 ≤ s.l) (hk : 1 ≤ s.k) {D : List (ℤ × ℤ)} (hq : ∀ d ∈ D, 0 ≤ d.2) :
    ∃ ps, forward s (D.map fun d => projection_new d.1 d.2 s.l s.k) = some ps ∧ ps.map Projection.angle = D ∧
      ∀ p ∈ ps, Carries s s.pixel s.grid p := by
  have hnew : ∀ p ∈ D.map fun d => projection_new d.1 d.2 s.l s.k, Carries s s.pixel ∅ p := by
    intro p hp
    obtain ⟨d, hd, rfl⟩ := List.mem_map.1 hp
    exact projection_new_carries hl hk _ _ (hq d hd)
  obtain ⟨ps, hps, hang, hcar⟩ := forward_spec s hnew
  refine ⟨ps, hps, hang.trans ?_, hcar⟩
  rw [List.map_map]
  exact List.map_id'' (fun _ => rfl) D

/-- The matrix of the demonstration program. -/
def Support.demo : Support :=
  { l := 3, k := 3, pixels := [4, 2, 1, 8, 2, 3, 5, 4, 6], length_pixels := rfl, fits := by decide }

end Recovery

end MpOlsr
