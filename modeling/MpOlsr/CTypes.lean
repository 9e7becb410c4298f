import Mathlib.Data.BitVec

/-!
# Machine types

The programs are compiled for the two data models of their Linux targets, which differ in the width of
`unsigned long`.  An `int` is an integer; its range is stated where a value of an array size depends on it.
-/

namespace MpOlsr

/-- The data models: `unsigned long` has 4 or 8 bytes. -/
inductive WordSize where
  | ilp32
  | lp64
  deriving DecidableEq, Repr

/-- The number of bits of an `unsigned long`. -/
def WordSize.bits : WordSize → ℕ
  | .ilp32 => 32
  | .lp64 => 64

/-- `unsigned long`, with wrap-around arithmetic. -/
abbrev ULong (ws : WordSize) := BitVec ws.bits

/-- `char` -/
abbrev Byte := BitVec 8

/-- The largest `int`. -/
def INT_MAX : ℕ := 2147483647

/-- The conversion `(int) x` of an `unsigned long`. -/
def intOfULong {ws : WordSize} (x : ULong ws) : ℤ :=
  (x.setWidth 32).toInt

theorem WordSize.le_bits (ws : WordSize) : 32 ≤ ws.bits := by
  cases ws <;> decide

theorem lt_two_pow_bits (ws : WordSize) {n : ℕ} (hn : n ≤ INT_MAX) : n < 2 ^ ws.bits := by
  calc n < 2 ^ 32 := by unfold INT_MAX at hn; omega
    _ ≤ 2 ^ ws.bits := Nat.pow_le_pow_right (by omega) ws.le_bits

/-- A value in the range of `int` is converted to itself. -/
theorem intOfULong_eq {ws : WordSize} {x : ULong ws} (hx : x.toNat ≤ INT_MAX) : intOfULong x = x.toNat := by
  unfold INT_MAX at hx
  rw [intOfULong, BitVec.toInt_eq_toNat_of_lt, BitVec.toNat_setWidth, Nat.mod_eq_of_lt (by omega)]
  rw [BitVec.toNat_setWidth, Nat.mod_eq_of_lt (by omega)]
  omega

end MpOlsr
