import Mathlib.Algebra.Ring.Nat
import MpOlsr.Lib.Buffer

/-!
# Memory blocks

A memory block is a list of cells.  `read` and `write` access a range of cells, and fault outside the block or for a
negative length; `memcpy` combines them.  A block is best described as a concatenation: an access to one part leaves
the parts before and after it alone (`read_eq`, `write_eq`).

The second part is about numbers stored in bytes, most significant byte first (`be16`) or least significant byte
first (`leBytes`).
-/

namespace Bytes

section Blocks

variable {α : Type*}

/-- Read `n` cells from the cell `i` on. -/
def read (xs : List α) (i n : ℤ) : Option (List α) :=
  if 0 ≤ i ∧ 0 ≤ n ∧ i + n ≤ xs.length then some ((xs.drop i.toNat).take n.toNat) else none

/-- Write the cells `ys` from the cell `i` on. -/
def write (xs : List α) (i : ℤ) (ys : List α) : Option (List α) :=
  if 0 ≤ i ∧ i + ys.length ≤ xs.length then some (xs.take i.toNat ++ ys ++ xs.drop (i.toNat + ys.length)) else none

/-- Copy `n` cells of `src`, from the cell `j` on, to the cell `i` of `dst`. -/
def memcpy (dst : List α) (i : ℤ) (src : List α) (j n : ℤ) : Option (List α) := do
  let ys ← read src j n
  write dst i ys

theorem length_write {xs ys zs : List α} {i : ℤ} (h : write xs i ys = some zs) :
    zs.length = xs.length ∧ i + ys.length ≤ xs.length := by
  unfold write at h
  split at h
  · next hcond =>
    cases h
    refine ⟨?_, hcond.2⟩
    simp only [List.length_append, List.length_take, List.length_drop]
    omega
  · cases h

theorem read_eq {xs a b c : List α} {i n : ℤ} (h : xs = a ++ (b ++ c)) (hi : i = a.length) (hn : n = b.length) :
    read xs i n = some b := by
  subst h hi hn
  rw [read, if_pos (by simp only [List.length_append]; omega), Int.toNat_natCast, Int.toNat_natCast, List.drop_left,
    List.take_left]

theorem write_eq {xs a b c ys : List α} {i : ℤ} (h : xs = a ++ (b ++ c)) (hi : i = a.length)
    (hy : ys.length = b.length) : write xs i ys = some (a ++ (ys ++ c)) := by
  subst h hi
  rw [write, if_pos (by simp only [List.length_append]; omega), Int.toNat_natCast, List.take_left, hy, List.append_assoc,
    ← List.append_assoc a b c, ← List.length_append, List.drop_left]

theorem length_of_read {xs ys : List α} {i n : ℤ} (h : read xs i n = some ys) : (ys.length : ℤ) = n := by
  unfold read at h
  split at h
  · cases h
    simp only [List.length_take, List.length_drop]
    omega
  · cases h

theorem append_of_write_zero {xs ys zs : List α} (h : write xs 0 ys = some zs) : ∃ r, zs = ys ++ r := by
  unfold write at h
  split at h
  · cases h
    exact ⟨xs.drop ys.length, by simp⟩
  · cases h

theorem memcpy_eq {dst a b c src e ys f : List α} {i j n : ℤ} (hd : dst = a ++ (b ++ c)) (hi : i = a.length)
    (hs : src = e ++ (ys ++ f)) (hj : j = e.length) (hn : n = ys.length) (hy : ys.length = b.length) :
    memcpy dst i src j n = some (a ++ (ys ++ c)) := by
  rw [memcpy, read_eq hs hj hn]
  exact write_eq hd hi hy

theorem load_eq {xs a c : List α} {b : α} {i : ℤ} (h : xs = a ++ b :: c) (hi : i = a.length) :
    Buffer.load xs i = some b := by
  subst h hi
  simp [Buffer.load]

theorem load_append (pre xs : List α) (k : ℕ) : Buffer.load (pre ++ xs) (pre.length + k) = Buffer.load xs k := by
  rw [Buffer.load, Buffer.load, if_pos (by omega), if_pos (by omega)]
  rw [show ((pre.length : ℤ) + k).toNat = pre.length + k by omega, Int.toNat_natCast]
  rw [List.getElem?_append_right (by omega), Nat.add_sub_cancel_left]

theorem load_append_left {xs : List α} {k : ℤ} (hk : k < xs.length) (r : List α) :
    Buffer.load (xs ++ r) k = Buffer.load xs k := by
  unfold Buffer.load
  split
  · rw [List.getElem?_append_left (by omega)]
  · rfl

theorem read_append (pre xs : List α) (k : ℕ) (n : ℤ) : read (pre ++ xs) (pre.length + k) n = read xs k n := by
  unfold read
  rw [show ((pre.length : ℤ) + k).toNat = pre.length + k by omega, Int.toNat_natCast, List.drop_length_add_append,
    List.length_append]
  split
  · rw [if_pos (by push_cast at *; omega)]
  · rw [if_neg (by push_cast at *; omega)]

theorem read_append_left {xs : List α} {k n : ℤ} (hk : k + n ≤ xs.length) (r : List α) :
    read (xs ++ r) k n = read xs k n := by
  unfold read
  rw [List.length_append]
  split
  · rw [if_pos (by omega), List.drop_append_of_le_length (by omega),
      List.take_append_of_le_length (by rw [List.length_drop]; omega)]
  · rw [if_neg (by omega)]

theorem store_eq {xs a c : List α} {b y : α} {i : ℤ} (h : xs = a ++ b :: c) (hi : i = a.length) :
    Buffer.store xs i y = some (a ++ y :: c) := by
  subst h hi
  rw [Buffer.store, if_pos (by simp), Int.toNat_natCast, List.set_append_right _ _ le_rfl, Nat.sub_self]
  rfl

/-- A block with room for `n` cells after the first `i`. -/
theorem exists_split {l : List α} {i n : ℕ} (h : i + n ≤ l.length) :
    ∃ a b c, l = a ++ (b ++ c) ∧ a.length = i ∧ b.length = n := by
  refine ⟨l.take i, (l.drop i).take n, (l.drop i).drop n, ?_, ?_, ?_⟩
  · rw [List.take_append_drop, List.take_append_drop]
  · rw [List.length_take]; omega
  · rw [List.length_take, List.length_drop]; omega

end Blocks

/-! ### Numbers -/

/-- A 16-bit number, most significant byte first. -/
def be16 (n : ℕ) : List (BitVec 8) := [BitVec.ofNat 8 (n / 256), BitVec.ofNat 8 n]

def ofBe16 (hi lo : BitVec 8) : ℕ := hi.toNat * 256 + lo.toNat

@[simp]
theorem length_be16 (n : ℕ) : (be16 n).length = 2 := rfl

theorem ofBe16_be16 {n : ℕ} (h : n < 65536) : ofBe16 (BitVec.ofNat 8 (n / 256)) (BitVec.ofNat 8 n) = n := by
  simp only [ofBe16, BitVec.toNat_ofNat]
  omega

theorem be16_ofBe16 (hi lo : BitVec 8) : be16 (ofBe16 hi lo) = [hi, lo] := by
  have h1 : BitVec.ofNat 8 (ofBe16 hi lo / 256) = hi :=
    BitVec.eq_of_toNat_eq (by rw [BitVec.toNat_ofNat]; have := hi.isLt; have := lo.isLt; unfold ofBe16; omega)
  have h2 : BitVec.ofNat 8 (ofBe16 hi lo) = lo :=
    BitVec.eq_of_toNat_eq (by rw [BitVec.toNat_ofNat]; have := lo.isLt; unfold ofBe16; omega)
  rw [be16, h1, h2]

theorem ofBe16_lt (hi lo : BitVec 8) : ofBe16 hi lo < 65536 := by
  have := hi.isLt
  have := lo.isLt
  unfold ofBe16
  omega

/-- A number of `k` bytes, least significant byte first. -/
def leBytes : ℕ → ℕ → List (BitVec 8)
  | 0, _ => []
  | k + 1, n => BitVec.ofNat 8 n :: leBytes k (n / 256)

def ofLe : List (BitVec 8) → ℕ
  | [] => 0
  | b :: bs => b.toNat + 256 * ofLe bs

@[simp]
theorem length_leBytes (k n : ℕ) : (leBytes k n).length = k := by
  induction k generalizing n with
  | zero => rfl
  | succ k ih => rw [leBytes, List.length_cons, ih]

theorem ofLe_leBytes (k n : ℕ) : ofLe (leBytes k n) = n % 256 ^ k := by
  induction k generalizing n with
  | zero => exact (Nat.mod_one n).symm
  | succ k ih =>
    have hpow : 256 ^ (k + 1) = 256 * 256 ^ k := Nat.pow_succ'
    rw [leBytes, ofLe, ih, BitVec.toNat_ofNat, hpow, Nat.mod_mul]

theorem ofLe_lt (bs : List (BitVec 8)) : ofLe bs < 256 ^ bs.length := by
  induction bs with
  | nil => exact Nat.one_pos
  | cons b bs ih =>
    have hpow : 256 ^ (b :: bs).length = 256 * 256 ^ bs.length := Nat.pow_succ'
    have := b.isLt
    rw [hpow, ofLe]
    omega

theorem leBytes_ofLe (bs : List (BitVec 8)) : leBytes bs.length (ofLe bs) = bs := by
  induction bs with
  | nil => rfl
  | cons b bs ih =>
    have hb : BitVec.ofNat 8 (ofLe (b :: bs)) = b :=
      BitVec.eq_of_toNat_eq (by rw [BitVec.toNat_ofNat, ofLe]; have := b.isLt; omega)
    have hdiv : ofLe (b :: bs) / 256 = ofLe bs := by
      rw [ofLe]
      have := b.isLt
      omega
    rw [List.length_cons, leBytes, hb, hdiv, ih]

end Bytes
