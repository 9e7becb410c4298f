import Mathlib.Data.Finset.Prod
import Mathlib.Tactic.Linarith
import Mathlib.Tactic.Ring
import MpOlsr.Lib.Fault
import MpOlsr.Lib.Tomography
import MpOlsr.Mojette.Transform

/-!
# Bins of a projection

The bins of a projection with `q ≥ 0` are in range (`Support.bin_range`), two pixels share a bin exactly when they
lie on one ray of its direction, and `forward` leaves in every bin the exclusive or of the pixels that fall into it
(`forward_spec`).
-/

namespace MpOlsr

open Buffer Peeling Fault

def Projection.angle (p : Projection) : ℤ × ℤ := (p.p, p.q)

/-- For `q ≥ 0` the bins of all pixels are in range. -/
theorem binOf_range {l k row col : ℕ} (p : ℤ) {q : ℤ} (hq : 0 ≤ q) (hrow : row < l) (hcol : col < k) :
    0 ≤ binOf l p q row col ∧ binOf l p q row col < projection_size p q l k := by
  have hq0 : 0 ≤ (col : ℤ) * q := by positivity
  have hq1 : (col : ℤ) * q ≤ ((k : ℤ) - 1) * q := mul_le_mul_of_nonneg_right (by omega) hq
  simp only [binOf, projection_size, abs_of_nonneg hq]
  split
  · rename_i hp
    have h0 : 0 ≤ ((l : ℤ) - 1 - row) * (-p) := mul_nonneg (by omega) (by omega)
    have h1 : 0 ≤ (row : ℤ) * (-p) := mul_nonneg (by omega) (by omega)
    rw [abs_of_neg hp]
    constructor <;> linarith
  · rename_i hp
    have h0 : 0 ≤ (row : ℤ) * p := mul_nonneg (by omega) (by omega)
    have h1 : (row : ℤ) * p ≤ ((l : ℤ) - 1) * p := mul_le_mul_of_nonneg_right (by omega) (by omega)
    rw [abs_of_nonneg (by omega)]
    constructor <;> linarith

namespace Support

variable (s : Support)

/-- The set of all pixels. -/
def grid : Finset (ℕ × ℕ) := Finset.range s.l ×ˢ Finset.range s.k

/-- The index of a pixel in `pixels`. -/
def index (x : ℕ × ℕ) : ℕ := x.1 * s.k + x.2

/-- The value of a pixel. -/
def pixel (x : ℕ × ℕ) : Byte := s.pixels.getD (s.index x) 0

/-- The bin of a pixel in a projection of angle `d`. -/
def bin (d : ℤ × ℤ) (x : ℕ × ℕ) : ℤ := binOf s.l d.1 d.2 x.1 x.2

variable {s}

theorem mem_grid {x : ℕ × ℕ} : x ∈ s.grid ↔ x.1 < s.l ∧ x.2 < s.k := by
  simp [grid]

theorem mem_cells {x : ℕ × ℕ} : x ∈ s.cells ↔ x ∈ s.grid := by
  obtain ⟨a, b⟩ := x
  simp [cells, mem_grid, List.mem_product]

theorem cells_nodup : s.cells.Nodup :=
  List.Nodup.product List.nodup_range List.nodup_range

theorem cells_toFinset : s.cells.toFinset = s.grid := by
  ext x; rw [List.mem_toFinset, mem_cells]

theorem card_grid : s.grid.card = s.l * s.k := by
  simp [grid]

theorem index_lt {x : ℕ × ℕ} (hx : x ∈ s.grid) : s.index x < s.l * s.k := by
  obtain ⟨h1, h2⟩ := mem_grid.1 hx
  calc x.1 * s.k + x.2 < x.1 * s.k + s.k := by omega
    _ = (x.1 + 1) * s.k := by ring
    _ ≤ s.l * s.k := Nat.mul_le_mul_right _ h1

theorem index_div {x : ℕ × ℕ} (hx : x ∈ s.grid) : s.index x / s.k = x.1 := by
  obtain ⟨-, h2⟩ := mem_grid.1 hx
  rw [index, Nat.mul_comm, Nat.mul_add_div (by omega), Nat.div_eq_of_lt h2, Nat.add_zero]

theorem index_injOn {x y : ℕ × ℕ} (hx : x ∈ s.grid) (hy : y ∈ s.grid) (h : s.index x = s.index y) : x = y := by
  have h1 : x.1 = y.1 := by rw [← index_div hx, h, index_div hy]
  have h2 : x.2 = y.2 := by unfold index at h; rw [h1] at h; omega
  exact Prod.ext h1 h2

/-- The nested loops visit the pixels in the order of their indices. -/
theorem map_index_cells : s.cells.map s.index = List.range (s.l * s.k) := by
  have h : ∀ n, (List.range n ×ˢ List.range s.k).map s.index = List.range (n * s.k) := by
    intro n
    induction n with
    | zero => simp [List.nil_product]
    | succ n ih =>
      have hrow : ([n] ×ˢ List.range s.k).map s.index = (List.range s.k).map (n * s.k + ·) := by
        simp [SProd.sprod, List.product, index]
      have hsplit : List.range (n + 1) ×ˢ List.range s.k =
          List.range n ×ˢ List.range s.k ++ [n] ×ˢ List.range s.k := by
        simp [SProd.sprod, List.product, List.range_succ]
      rw [hsplit, List.map_append, ih, hrow, Nat.succ_mul, List.range_add]
  exact h s.l

theorem index_eq_length {done rest : List (ℕ × ℕ)} {x : ℕ × ℕ} (h : s.cells = done ++ x :: rest) :
    s.index x = done.length := by
  have hm := map_index_cells (s := s)
  have hlt : done.length < s.l * s.k := by
    have := congrArg List.length hm
    rw [h] at this
    simp at this
    omega
  have h1 : (s.cells.map s.index)[done.length]? = some (s.index x) := by rw [h]; simp
  rw [hm, List.getElem?_range hlt] at h1
  exact (Option.some.inj h1).symm

theorem getElem?_index {x : ℕ × ℕ} (hx : x ∈ s.grid) : s.pixels[s.index x]? = some (s.pixel x) := by
  have := index_lt hx
  rw [pixel, List.getD_eq_getElem?_getD, List.getElem?_eq_getElem (by rw [s.length_pixels]; exact this)]
  rfl

theorem load_pixels {x : ℕ × ℕ} (hx : x ∈ s.grid) :
    load s.pixels ((x.1 : ℤ) * s.k + x.2) = some (s.pixel x) := by
  have h : ((x.1 : ℤ) * s.k + x.2) = (s.index x : ℕ) := by simp [index]
  rw [h, load, if_pos (by omega), Int.toNat_natCast, getElem?_index hx]

/-- Every bin index computed for a pixel of the support is in range. -/
theorem bin_range {d : ℤ × ℤ} (hd : 0 ≤ d.2) {x : ℕ × ℕ} (hx : x ∈ s.grid) :
    0 ≤ s.bin d x ∧ s.bin d x < projection_size d.1 d.2 s.l s.k := by
  obtain ⟨h1, h2⟩ := mem_grid.1 hx
  exact binOf_range d.1 hd h1 h2

/-- Two pixels share a bin when they lie on one ray. -/
theorem bin_eq_iff (d : ℤ × ℤ) (x y : ℕ × ℕ) :
    s.bin d x = s.bin d y ↔
      Tomography.ray (fun x : ℕ × ℕ => (x.1 : ℤ)) (fun x => x.2) d x =
        Tomography.ray (fun x : ℕ × ℕ => (x.1 : ℤ)) (fun x => x.2) d y := by
  simp only [bin, binOf, Tomography.ray]
  omega

theorem stopping_iff {D : List (ℤ × ℤ)} {S : Finset (ℕ × ℕ)} :
    Stopping s.bin D S ↔ Stopping (Tomography.ray (fun x : ℕ × ℕ => (x.1 : ℤ)) fun x => x.2) D S := by
  simp only [Stopping, bin_eq_iff]

end Support

/-- The bins of `p` hold the exclusive or, bin by bin, of the pixels of `R`. -/
structure Carries (s : Support) (px : ℕ × ℕ → Byte) (R : Finset (ℕ × ℕ)) (p : Projection) : Prop where
  nonneg : 0 ≤ p.q
  size : p.size = projection_size p.p p.q s.l s.k
  bins : Holds p.bins p.size (binFold (· ^^^ ·) 0 px (s.bin p.angle) R)

theorem projection_size_pos {s : Support} (hl : 1 ≤ s.l) (hk : 1 ≤ s.k) (p q : ℤ) :
    0 < projection_size p q s.l s.k := by
  have h1 : 0 ≤ |p| * ((s.l : ℤ) - 1) := mul_nonneg (abs_nonneg p) (by omega)
  have h2 : 0 ≤ |q| * ((s.k : ℤ) - 1) := mul_nonneg (abs_nonneg q) (by omega)
  unfold projection_size
  omega

/-- A new projection carries no pixel. -/
theorem projection_new_carries {s : Support} (hl : 1 ≤ s.l) (hk : 1 ≤ s.k) (px : ℕ × ℕ → Byte) (p : ℤ) {q : ℤ}
    (hq : 0 ≤ q) : Carries s px ∅ (projection_new p q s.l s.k) := by
  refine ⟨hq, rfl, ?_⟩
  refine (holds_replicate _ _ (projection_size_pos hl hk p q).le).congr fun b _ _ => ?_
  rw [binFold_empty]

namespace Carries

variable {s : Support} {px : ℕ × ℕ → Byte} {R : Finset (ℕ × ℕ)} {p : Projection} {x : ℕ × ℕ}

theorem range (h : Carries s px R p) (hx : x ∈ s.grid) : 0 ≤ s.bin p.angle x ∧ s.bin p.angle x < p.size :=
  h.size ▸ Support.bin_range h.nonneg hx

theorem insert (h : Carries s px R p) (hx : x ∈ s.grid) (hR : x ∉ R) :
    ∃ bins, modify p.bins (s.bin p.angle x) (· ^^^ px x) = some bins ∧
      Carries s px (insert x R) { p with bins := bins } := by
  obtain ⟨bins, hb, hh⟩ := h.bins.modify (h.range hx).1 (h.range hx).2 (· ^^^ px x)
  refine ⟨bins, hb, h.nonneg, h.size, ?_⟩
  rw [binFold_insert hR, BitVec.xor_comm]
  exact hh

theorem erase (h : Carries s px R p) (hx : x ∈ s.grid) (hR : x ∈ R) :
    ∃ bins, modify p.bins (s.bin p.angle x) (· ^^^ px x) = some bins ∧
      Carries s px (R.erase x) { p with bins := bins } := by
  obtain ⟨bins, hb, hh⟩ := h.bins.modify (h.range hx).1 (h.range hx).2 (· ^^^ px x)
  refine ⟨bins, hb, h.nonneg, h.size, ?_⟩
  have hinv : ∀ a y : Byte, a ^^^ y ^^^ a = y := fun a y => by rw [BitVec.xor_comm a y, BitVec.xor_assoc]; simp
  rw [binFold_erase hinv hR]
  exact hh

end Carries

theorem addPixel_spec {s : Support} {R : Finset (ℕ × ℕ)} {p : Projection} {x : ℕ × ℕ} (h : Carries s s.pixel R p)
    (hx : x ∈ s.grid) (hR : x ∉ R) :
    ∃ p', p.addPixel s x.1 x.2 = some p' ∧ p'.angle = p.angle ∧ Carries s s.pixel (insert x R) p' := by
  obtain ⟨bins, hb, hc⟩ := h.insert hx hR
  have hb' : modify p.bins (binOf s.l p.p p.q x.1 x.2) (· ^^^ s.pixel x) = some bins := hb
  exact ⟨{ p with bins := bins }, by simp [Projection.addPixel, Support.load_pixels hx, hb'], rfl, hc⟩

theorem notMem_of_nodup {α : Type*} {l done rest : List α} {a : α} (hl : l.Nodup) (h : l = done ++ a :: rest) :
    a ∉ done := by
  rw [h, List.nodup_append] at hl
  exact fun hd => hl.2.2 a hd a (List.mem_cons_self ..) rfl

theorem toFinset_append_singleton (done : List (ℕ × ℕ)) (x : ℕ × ℕ) :
    (done ++ [x]).toFinset = insert x done.toFinset := by
  ext y; simp

/-- `forward` adds all pixels of the support to projections that carry none. -/
theorem forward_spec (s : Support) {ps : List Projection} (h : ∀ p ∈ ps, Carries s s.pixel ∅ p) :
    ∃ ps', forward s ps = some ps' ∧ ps'.map Projection.angle = ps.map Projection.angle ∧
      ∀ p ∈ ps', Carries s s.pixel s.grid p := by
  have step : ∀ done x rest (qs : List Projection), s.cells = done ++ x :: rest →
      (qs.map Projection.angle = ps.map Projection.angle ∧ ∀ p ∈ qs, Carries s s.pixel done.toFinset p) →
      ∃ qs', qs.mapM (Projection.addPixel s x.1 x.2) = some qs' ∧
        (qs'.map Projection.angle = ps.map Projection.angle ∧
          ∀ p ∈ qs', Carries s s.pixel (done ++ [x]).toFinset p) := by
    rintro done x rest qs hl ⟨hang, hcar⟩
    have hx : x ∈ s.grid := Support.mem_cells.1 (by rw [hl]; simp)
    have hnot : x ∉ done.toFinset := by
      rw [List.mem_toFinset]; exact notMem_of_nodup Support.cells_nodup hl
    obtain ⟨qs', hqs, hall⟩ := mapM_forall₂ fun p hp => addPixel_spec (hcar p hp) hx hnot
    refine ⟨qs', hqs, (map_eq_of_forall₂ hall fun _ _ hQ => hQ.1).trans hang, ?_⟩
    rw [toFinset_append_singleton]
    exact forall_of_forall₂ hall fun _ _ hQ => hQ.2
  obtain ⟨ps', hps, hang, hcar⟩ := foldlM_invariant
    (fun done (qs : List Projection) => qs.map Projection.angle = ps.map Projection.angle ∧
      ∀ p ∈ qs, Carries s s.pixel done.toFinset p) ⟨rfl, by simpa using h⟩ step
  exact ⟨ps', hps, hang, fun p hp => Support.cells_toFinset (s := s) ▸ hcar p hp⟩

end MpOlsr
