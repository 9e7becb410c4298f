import Mathlib.Algebra.Order.BigOperators.Group.List
import Mathlib.Algebra.Order.Group.Nat
import MpOlsr.Lib.Bytes

/-!
# One's complement sums

Sums with an end-around carry, of words up to a largest word `m`.  Such a sum only depends on the sum of the words
as numbers (`sum_eq_fold`): it is the representative of that number modulo `m` which is `0` only for `0`.

The second part cuts a block of bytes into 16-bit words, the last byte of an odd number being padded with zero.
-/

namespace OnesComplement

variable {m : ℕ}

/-- Addition with an end-around carry. -/
def add (m a b : ℕ) : ℕ := if a + b ≤ m then a + b else a + b - m

def sum (m : ℕ) (ws : List ℕ) : ℕ := ws.foldl (add m) 0

/-- The sum of words with the sum `n` as numbers. -/
def fold (m n : ℕ) : ℕ := if n = 0 then 0 else (n - 1) % m + 1

theorem fold_zero (m : ℕ) : fold m 0 = 0 := rfl

theorem fold_le (hm : 0 < m) (n : ℕ) : fold m n ≤ m := by
  unfold fold
  split
  · omega
  · have := Nat.mod_lt (n - 1) hm
    omega

theorem fold_of_le {n : ℕ} (h : n ≤ m) : fold m n = n := by
  unfold fold
  split
  · omega
  · rw [Nat.mod_eq_of_lt (by omega)]
    omega

/-- A carry comes around. -/
theorem fold_add_max {n : ℕ} (hn : 0 < n) : fold m (n + m) = fold m n := by
  rw [fold, fold, if_neg (by omega), if_neg (by omega), show n + m - 1 = n - 1 + m by omega, Nat.add_mod_right]

theorem fold_add_mul {n : ℕ} (hn : 0 < n) (k : ℕ) : fold m (n + k * m) = fold m n := by
  induction k with
  | zero => rw [Nat.zero_mul, Nat.add_zero]
  | succ k ih => rw [Nat.succ_mul, ← Nat.add_assoc, fold_add_max (by omega), ih]

/-- The largest word is the other zero. -/
theorem fold_eq_max_iff (hm : 0 < m) (n : ℕ) : fold m n = m ↔ 0 < n ∧ m ∣ n := by
  unfold fold
  split
  · next h => constructor <;> intro h' <;> omega
  · next h =>
    have hlt := Nat.mod_lt (n - 1) hm
    have hdiv := Nat.div_add_mod (n - 1) m
    constructor
    · intro heq
      refine ⟨by omega, (n - 1) / m + 1, ?_⟩
      rw [Nat.mul_add, Nat.mul_one]
      omega
    · rintro ⟨-, k, rfl⟩
      have hk : k ≠ 0 := by
        rintro rfl
        exact h (Nat.mul_zero m)
      obtain ⟨k, rfl⟩ := Nat.exists_eq_succ_of_ne_zero hk
      have hpred : m * (k + 1) - 1 = m - 1 + m * k := by rw [Nat.mul_add, Nat.mul_one]; omega
      rw [hpred, Nat.add_mul_mod_self_left, Nat.mod_eq_of_lt (by omega)]
      omega

theorem add_fold (hm : 0 < m) (n : ℕ) {b : ℕ} (hb : b ≤ m) : add m (fold m n) b = fold m (n + b) := by
  rcases Nat.eq_zero_or_pos n with rfl | hn
  · rw [fold_zero, Nat.zero_add, add, if_pos (by omega), Nat.zero_add, fold_of_le hb]
  · have hle := fold_le hm n
    have hfold : fold m (n + b) = fold m (fold m n + b) := by
      have hdiv := Nat.div_add_mod (n - 1) m
      have hn' : n = fold m n + (n - 1) / m * m := by
        rw [fold, if_neg (by omega), Nat.mul_comm]
        omega
      have hpos : 0 < fold m n := by
        rw [fold, if_neg (by omega)]
        omega
      conv => lhs; rw [hn', Nat.add_right_comm]
      exact fold_add_mul (by omega) _
    rw [hfold, add]
    split
    · next h => rw [fold_of_le h]
    · next h =>
      calc fold m n + b - m = fold m (fold m n + b - m) := (fold_of_le (by omega)).symm
        _ = fold m (fold m n + b - m + m) := (fold_add_max (by omega)).symm
        _ = fold m (fold m n + b) := by rw [Nat.sub_add_cancel (by omega)]

/-- The end-around carries can be postponed. -/
theorem sum_eq_fold (hm : 0 < m) {ws : List ℕ} (h : ∀ w ∈ ws, w ≤ m) : sum m ws = fold m ws.sum := by
  suffices hgen : ∀ n, ws.foldl (add m) (fold m n) = fold m (n + ws.sum) by
    have h0 := hgen 0
    rwa [fold_zero, Nat.zero_add] at h0
  induction ws with
  | nil => exact fun n => rfl
  | cons w ws ih =>
    intro n
    rw [List.foldl_cons, add_fold hm n (h w List.mem_cons_self), List.sum_cons, ← Nat.add_assoc]
    exact ih (fun w' hw' => h w' (List.mem_cons_of_mem _ hw')) (n + w)

/-- A checksum: with the complement of their sum, the words sum up to the largest word. -/
theorem fold_add_complement (hm : 0 < m) (n : ℕ) : fold m (n + (m - fold m n)) = m := by
  rw [← add_fold hm n (Nat.sub_le _ _), add]
  have := fold_le hm n
  rw [if_pos (by omega)]
  omega

/-! ### The words of a block -/

/-- The 16-bit words of a block, most significant byte first. -/
def words : List (BitVec 8) → List ℕ
  | [] => []
  | [hi] => [hi.toNat * 256]
  | hi :: lo :: bs => Bytes.ofBe16 hi lo :: words bs

theorem words_append {x : List (BitVec 8)} (h : x.length % 2 = 0) (ys : List (BitVec 8)) :
    words (x ++ ys) = words x ++ words ys := by
  induction x using words.induct with
  | case1 => rfl
  | case2 hi => simp at h
  | case3 hi lo bs ih =>
    rw [List.length_cons, List.length_cons] at h
    simp only [List.cons_append, words, ih (by omega)]

theorem words_be16 {n : ℕ} (h : n < 65536) : words (Bytes.be16 n) = [n] := by
  rw [Bytes.be16, words, words, Bytes.ofBe16_be16 h]

theorem le_of_mem_words {xs : List (BitVec 8)} : ∀ w ∈ words xs, w ≤ 65535 := by
  induction xs using words.induct with
  | case1 => simp [words]
  | case2 hi =>
    have := hi.isLt
    simp only [words, List.mem_singleton]
    omega
  | case3 hi lo bs ih =>
    intro w hw
    rcases List.mem_cons.1 hw with rfl | hw
    · have := Bytes.ofBe16_lt hi lo
      omega
    · exact ih w hw

theorem length_words (xs : List (BitVec 8)) : (words xs).length = (xs.length + 1) / 2 := by
  induction xs using words.induct with
  | case1 => rfl
  | case2 hi => simp only [words, List.length_singleton]
  | case3 hi lo bs ih =>
    simp only [words, List.length_cons, ih]
    omega

theorem sum_words_le (xs : List (BitVec 8)) : (words xs).sum ≤ (xs.length + 1) / 2 * 65535 := by
  rw [← length_words]
  exact List.sum_le_card_nsmul _ _ le_of_mem_words

end OnesComplement
