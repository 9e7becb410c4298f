import MpOlsr.Mojette.Bins

/-!
# Datagrams and the receive loop

A message is cut into a support.  `sendto` sends it as one datagram for every line, followed by one datagram for
every projection.  The receive loop of `serveur_udp.c` stores the lines by their number and the projections by their
order of arrival, counts both, and decodes as soon as one of three conditions on the two counters holds.  The arrays
come from `malloc`: an entry that was never written is `none`, and using it is a fault.

Every datagram carries a label.  The code does not see it; it names, in the stored entries and in the decoded
support, the datagrams they come from.
-/

namespace MpOlsr

open Buffer

/-! ### The sender -/

/-- The value of a character. -/
def charByte (c : Char) : Byte := BitVec.ofNat 8 c.toNat

/-- The content of a datagram: a line, or the projection of a given number. -/
inductive Packet where
  | line (ligne : Line)
  | projection (num : ℕ) (prj : Projection)
  deriving DecidableEq

/-- The bytes of a datagram about a support of `l` lines of length `k`, sent with `nb_proj_env` projections. -/
def Packet.datagram (l k nb_proj_env : ℕ) : Packet → List Byte
  | .line ligne =>
    [charByte 'l', BitVec.ofNat 8 ligne.num_line, BitVec.ofNat 8 l, BitVec.ofNat 8 k] ++ ligne.val
  | .projection num prj =>
    [charByte 'p', BitVec.ofNat 8 num, BitVec.ofNat 8 nb_proj_env, BitVec.ofInt 8 prj.size, BitVec.ofInt 8 prj.p,
      BitVec.ofInt 8 prj.q, BitVec.ofNat 8 l, BitVec.ofNat 8 k] ++ prj.bins

/-- Line `i` of the support. -/
def Support.line (support : Support) (i : ℕ) : Line :=
  { num_line := i, val := (List.range support.k).map fun j => support.pixel (i, j), size := support.k }

/-- What `sendto` sends: all lines, then the projections. -/
def Support.packets (support : Support) (projections : List Projection) : List Packet :=
  (List.range support.l).map (fun i => .line (support.line i)) ++
    projections.zipIdx.map fun x => .projection x.2 x.1

/-! ### The receiver -/

/-- The variables of the receive loop. -/
structure Server (τ : Type) where
  buf : List Byte
  l : ℤ
  k : ℤ
  nb_ligne_rec : ℕ
  nb_projec_rec : ℕ
  lignes_rec : List (Option (Line × τ))
  projections_rec : List (Option (Projection × τ))

/-- The support printed by the loop, with the labels of the datagrams it was decoded from. -/
structure Output (τ : Type) where
  pixels : List Byte
  labels : List τ

/-- `recvfrom`: the datagram overwrites the start of the buffer of 1024 bytes. -/
def recvfrom (buf datagram : List Byte) : List Byte :=
  (datagram ++ buf.drop datagram.length).take 1024

/-- The value of a header byte; `char` is signed. -/
def header (buf : List Byte) (i : ℤ) : Option ℤ :=
  (load buf i).map BitVec.toInt

section Receive

variable {τ : Type}

/-- Store a datagram of type `l`. -/
def receiveLine (label : τ) (s : Server τ) : Option (Server τ) := do
  let l ← header s.buf 2
  -- the first line allocates the array
  let lignes_rec := if s.nb_ligne_rec = 0 then List.replicate l.toNat none else s.lignes_rec
  let num_line ← header s.buf 1
  let k ← header s.buf 3
  let val ← (List.range k.toNat).mapM fun (j : ℕ) => load s.buf (j + 4)
  let ligne_1 : Line := { num_line := num_line.toNat, val := val, size := k.toNat }
  let lignes_rec ← store lignes_rec num_line (some (ligne_1, label))
  return { s with l := l, k := k, nb_ligne_rec := s.nb_ligne_rec + 1, lignes_rec := lignes_rec }

/-- Store a datagram of type `p`. -/
def receiveProjection (label : τ) (s : Server τ) : Option (Server τ) := do
  let nb_projections ← header s.buf 2
  -- the first projection allocates the array
  let projections_rec :=
    if s.nb_projec_rec = 0 then List.replicate nb_projections.toNat none else s.projections_rec
  let p ← header s.buf 4
  let q ← header s.buf 5
  let l ← header s.buf 6
  let k ← header s.buf 7
  let prj := projection_new p q l k
  let taille_projec ← header s.buf 3
  let bins ← (List.range taille_projec.toNat).foldlM (fun bins (j : ℕ) => do
    let v ← load s.buf (j + 8)
    store bins j v) prj.bins
  let projections_rec ← store projections_rec s.nb_projec_rec (some ({ prj with bins := bins }, label))
  return { s with l := l, k := k, nb_projec_rec := s.nb_projec_rec + 1, projections_rec := projections_rec }

/-- The first `n` entries of an array, all of which are used. -/
def entries {α : Type} (arr : List (Option α)) (n : ℕ) : Option (List α) :=
  (List.range n).mapM fun i => (arr[i]?).join

/-- `support_new` for the sizes of the last datagram. -/
def newSupport (l k : ℤ) : Option Support :=
  if h : l.toNat * k.toNat ≤ INT_MAX then
    if 0 ≤ l ∧ 0 ≤ l * k then some (support_new l.toNat k.toNat h) else none
  else none

variable (ws : WordSize)

/-- Call `inverse_system` on the stored lines and projections. -/
def decode (s : Server τ) : Option (Output τ) := do
  let support_rec ← newSupport s.l s.k
  let projections ← entries s.projections_rec s.nb_projec_rec
  -- a line is only used where it has a pixel
  let lignes ← if support_rec.k = 0 then some [] else entries s.lignes_rec s.nb_ligne_rec
  let (pixels, _) ← inverse_system ws support_rec (projections.map Prod.fst) (lignes.map Prod.fst)
  return { pixels := pixels, labels := lignes.map Prod.snd ++ projections.map Prod.snd }

/-- Decode and reset the counters if a condition on the counters holds. -/
def decodeIf (s : Server τ) (cond : Bool) : Option (Server τ × List (Output τ)) :=
  if cond then do
    let o ← decode ws s
    return ({ s with nb_ligne_rec := 0, nb_projec_rec := 0 }, [o])
  else some (s, [])

/-- The three tests at the end of the loop body. -/
def decodeTests (s : Server τ) : Option (Server τ × List (Output τ)) := do
  let (s, out1) ← decodeIf ws s (s.l = s.nb_projec_rec)
  let (s, out2) ← decodeIf ws s (s.nb_ligne_rec = s.l)
  let (s, out3) ← decodeIf ws s ((s.nb_ligne_rec : ℤ) + s.nb_projec_rec = s.l ∧ (s.nb_ligne_rec : ℤ) ≠ s.l)
  return (s, out1 ++ out2 ++ out3)

/-- Store a datagram according to its type. -/
def storeDatagram (label : τ) (datagram : List Byte) (s : Server τ) : Option (Server τ) := do
  let s := { s with buf := recvfrom s.buf datagram }
  let type_data ← load s.buf 0
  let s ← if type_data = charByte 'l' then receiveLine label s else some s
  if type_data = charByte 'p' then receiveProjection label s else some s

/-- One iteration of the receive loop. -/
def receive (label : τ) (datagram : List Byte) (s : Server τ) : Option (Server τ × List (Output τ)) := do
  let s ← storeDatagram label datagram s
  decodeTests ws s

/-- The receive loop on a sequence of datagrams. -/
def receiveAll : List (τ × List Byte) → Server τ → Option (Server τ × List (Output τ))
  | [], s => some (s, [])
  | (label, datagram) :: rest, s => do
    let (s, out) ← receive ws label datagram s
    let (s, outs) ← receiveAll rest s
    return (s, out ++ outs)

end Receive

end MpOlsr
