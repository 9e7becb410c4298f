import Mathlib.Data.List.ProdSigma
import MpOlsr.CTypes
import MpOlsr.Lib.Buffer

/-!
# The Mojette transform and its inverse

The exclusive-or Mojette transform of `mojette.c`.  A support is an array of `l` lines of `k` pixels.  A projection
of angle `(p, q)` has one bin for every value of `column * q + line * p`, and `forward` adds every pixel to its bin
in every projection.  `inverse_system` peels the support: each bin carries the number `pu` and the index sum `pd` of
the unknown pixels that fall into it, so a bin with `pu = 1` gives away one pixel, which is then removed from the
bins of all projections.  Any access outside an array, and the use of the NULL pointer that ends the list of
univocal bins, is a fault (`none`).
-/

namespace MpOlsr

open Buffer

/-- `support_t` -/
structure Support where
  /-- the number of lines -/
  l : ℕ
  /-- the length of a line -/
  k : ℕ
  pixels : List Byte
  length_pixels : pixels.length = l * k
  /-- the size given to `calloc` is an `int` -/
  fits : l * k ≤ INT_MAX
  deriving DecidableEq

/-- `projection_t` -/
structure Projection where
  p : ℤ
  q : ℤ
  bins : List Byte
  size : ℤ
  deriving DecidableEq, Repr

/-- `line_t` -/
structure Line where
  num_line : ℕ
  val : List Byte
  size : ℕ
  deriving DecidableEq, Repr

/-- The `size` of a projection of angle `(p, q)` for `l` lines of length `k`. -/
def projection_size (p q l k : ℤ) : ℤ :=
  |p| * (l - 1) + |q| * (k - 1) + 1

def projection_new (p q l k : ℤ) : Projection :=
  { p := p, q := q, bins := List.replicate (projection_size p q l k).toNat 0, size := projection_size p q l k }

def support_new (l k : ℕ) (fits : l * k ≤ INT_MAX) : Support :=
  { l := l, k := k, pixels := List.replicate (l * k) 0, length_pixels := by simp, fits := fits }

/-- The pixels of the support as pairs (line, column), in the order of the nested loops. -/
def Support.cells (support : Support) : List (ℕ × ℕ) :=
  List.range support.l ×ˢ List.range support.k

/-- The bin of the pixel in line `l` and column `k`, in a projection of angle `(p, q)` of `height` lines. -/
def binOf (height : ℕ) (p q : ℤ) (l k : ℤ) : ℤ :=
  let offset := if p < 0 then ((height : ℤ) - 1) * p else 0
  k * q + l * p - offset

/-- Add the pixel in line `l`, column `k` to its bin. -/
def Projection.addPixel (support : Support) (l k : ℕ) (p : Projection) : Option Projection := do
  let pixel ← load support.pixels (l * support.k + k)
  let bins ← modify p.bins (binOf support.l p.p p.q l k) (· ^^^ pixel)
  return { p with bins := bins }

/-- Perform a forward mojette transform (xor). -/
def forward (support : Support) (projections : List Projection) : Option (List Projection) :=
  support.cells.foldlM (fun projections x => projections.mapM (Projection.addPixel support x.1 x.2)) projections

/-! ### The inverse transform -/

/-- The entries `projections[i]`, `pu[i]` and `pd[i]` of one projection. -/
structure Work (ws : WordSize) where
  prj : Projection
  /-- the number of unknown pixels of each bin -/
  pu : List (ULong ws)
  /-- the sum of the indices of the unknown pixels of each bin -/
  pd : List (ULong ws)
  deriving DecidableEq

/-- `univoc_t`: the projection and the bin that its three pointers point to. -/
abbrev Univoc := ℕ × ℤ

section Inverse

variable {ws : WordSize} (support : Support)

variable (ws) in
/-- Allocate `pu[i]` and `pd[i]`. -/
def Work.new (p : Projection) : Work ws :=
  let size := projection_size p.p p.q support.l support.k
  { prj := p, pu := List.replicate size.toNat 0, pd := List.replicate size.toNat 0 }

/-- Count the pixel of index `d` in line `l`, column `k` as unknown. -/
def Work.count (l k : ℤ) (d : ℕ) (w : Work ws) : Option (Work ws) := do
  let b := binOf support.l w.prj.p w.prj.q l k
  let pu ← modify w.pu b (· + 1)
  let pd ← modify w.pd b (· + d)
  return { w with pu := pu, pd := pd }

/-- Count the pixel `x`, which has the index `st.2`, in all projections. -/
def countPixel (st : List (Work ws) × ℕ) (x : ℕ × ℕ) : Option (List (Work ws) × ℕ) := do
  let works ← st.1.mapM (Work.count support x.1 x.2 st.2)
  return (works, st.2 + 1)

/-- Count all pixels of the support as unknown. -/
def countAll (works : List (Work ws)) : Option (List (Work ws)) := do
  let (works, _) ← support.cells.foldlM (countPixel support) (works, 0)
  return works

/-- Remove the pixel of value `v` and index `diet` in line `l`, column `k` from its bin.  The second result is the
bin and its number of unknown pixels after the removal. -/
def Work.strike (l k : ℤ) (v : Byte) (diet : ULong ws) (w : Work ws) : Option (Work ws × ℤ × ULong ws) := do
  let b := binOf support.l w.prj.p w.prj.q l k
  let bins ← modify w.prj.bins b (· ^^^ v)
  let pd ← modify w.pd b (· - diet)
  let pu ← modify w.pu b (· - 1)
  let u ← load pu b
  return ({ prj := { w.prj with bins := bins }, pu := pu, pd := pd }, b, u)

/-- Copy the pixel in column `k` of the known line `ligne` into the support and remove it from all projections. -/
def fillPixel (ligne : Line) (st : List Byte × List (Work ws)) (k : ℕ) : Option (List Byte × List (Work ws)) := do
  let v ← load ligne.val k
  let pixels ← store st.1 (ligne.num_line * support.k + k) v
  let diet : ULong ws := BitVec.ofInt _ (k + ligne.num_line * support.k)
  let works ← st.2.mapM fun w => (w.strike support ligne.num_line k v diet).map Prod.fst
  return (pixels, works)

def fillLine (ligne : Line) (st : List Byte × List (Work ws)) : Option (List Byte × List (Work ws)) :=
  (List.range support.k).foldlM (fillPixel support ligne) st

/-- Append the bin `j` of projection `i` to the univocal list if it has one unknown pixel. -/
def pushUnivoc (i : ℕ) (w : Work ws) (acc : List Univoc) (j : ℕ) : Option (List Univoc) := do
  let u ← load w.pu j
  return if u = 1 then acc ++ [(i, (j : ℤ))] else acc

/-- Append the univocal bins of projection `i`. -/
def pushUnivocs (acc : List Univoc) (w : Work ws × ℕ) : Option (List Univoc) :=
  (List.range w.1.prj.size.toNat).foldlM (pushUnivoc w.2 w.1) acc

/-- The list of the univocal bins of all projections, from `head` to `tail`. -/
def univocList (works : List (Work ws)) : Option (List Univoc) :=
  works.zipIdx.foldlM pushUnivocs []

/-- `while (*(curr->u) != 1) curr = curr->next;` -/
def skip (works : List (Work ws)) : List Univoc → Option (Univoc × List Univoc)
  | [] => none
  | u :: rest => do
    let w ← works[u.1]?
    let c ← load w.pu u.2
    if c = 1 then return (u, u :: rest) else skip works rest

/-- Remove a pixel from its bin in all projections, and list the bins that become univocal. -/
def strikeAll (l k : ℤ) (v : Byte) (diet : ULong ws) : ℕ → List (Work ws) → Option (List (Work ws) × List Univoc)
  | _, [] => some ([], [])
  | j, w :: works => do
    let (w, b, u) ← w.strike support l k v diet
    let (works, new) ← strikeAll l k v diet (j + 1) works
    return (w :: works, if u = 1 then (j, b) :: new else new)

/-- The state of the peeling loop; `curr` is the part of the univocal list from the pointer `curr` on. -/
structure PeelState (ws : WordSize) where
  pixels : List Byte
  works : List (Work ws)
  curr : List Univoc

/-- One iteration of the peeling loop. -/
def peelStep (st : PeelState ws) : Option (PeelState ws) := do
  let (u, curr) ← skip st.works st.curr
  let w ← st.works[u.1]?
  let bin ← load w.prj.bins u.2
  let diet ← load w.pd u.2
  let l := intOfULong (diet / BitVec.ofNat _ support.k)
  let k := intOfULong (diet - BitVec.ofInt _ (l * support.k))
  let pixels ← store st.pixels (l * support.k + k) bin
  let (works, new) ← strikeAll support l k bin diet 0 st.works
  return { pixels := pixels, works := works, curr := curr ++ new }

def peelLoop : ℕ → PeelState ws → Option (PeelState ws)
  | 0, st => some st
  | n + 1, st => do
    let st ← peelStep support st
    peelLoop n st

variable (ws)

/-- Perform an inverse mojette transform (xor) with the lines `ligne` known; the result is the contents of
`support->pixels` and the projections. -/
def inverse_system (projections : List Projection) (ligne : List Line) :
    Option (List Byte × List Projection) :=
  if projections.length = 0 ∧ support.l = ligne.length then do
    -- without projections the support is filled directly
    let pixels ← ligne.foldlM (fun pixels ligne => (List.range support.k).foldlM (fun pixels (k : ℕ) => do
      let v ← load ligne.val k
      store pixels (ligne.num_line * support.k + k) v) pixels) support.pixels
    return (pixels, projections)
  else do
    let works ← countAll support (projections.map (Work.new ws support))
    let (pixels, works) ← ligne.foldlM (fun st ligne => fillLine support ligne st) (support.pixels, works)
    let head ← univocList works
    let st ← peelLoop support (support.l * support.k - support.k * ligne.length) ⟨pixels, works, head⟩
    return (st.pixels, st.works.map Work.prj)

/-- Perform an inverse mojette transform (xor). -/
def inverse (projections : List Projection) : Option (List Byte × List Projection) := do
  let works ← countAll support (projections.map (Work.new ws support))
  let head ← univocList works
  let st ← peelLoop support (support.l * support.k) ⟨support.pixels, works, head⟩
  return (st.pixels, st.works.map Work.prj)

end Inverse

end MpOlsr
