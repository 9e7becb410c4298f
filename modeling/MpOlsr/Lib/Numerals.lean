import Mathlib.Data.Char
import Mathlib.Data.List.Basic

/-!
# Numerals

A number is read from the digits at the front of a text, up to the first character that is not a digit.  Reading is
inverse to `Nat.toDigits` (`readDigits_toDigits`).
-/

namespace Numerals

/-- The value of a character that is a digit to the base `b`, of either case. -/
def digitValue (b : ℕ) (c : Char) : Option ℕ :=
  let v :=
    if '0' ≤ c ∧ c ≤ '9' then c.toNat - '0'.toNat
    else if 'a' ≤ c ∧ c ≤ 'z' then c.toNat - 'a'.toNat + 10
    else if 'A' ≤ c ∧ c ≤ 'Z' then c.toNat - 'A'.toNat + 10
    else b
  if v < b then some v else none

/-- Read the digits at the front behind the number `n`. -/
def readDigits (b : ℕ) : ℕ → List Char → ℕ × List Char
  | n, [] => (n, [])
  | n, c :: cs =>
    match digitValue b c with
    | some d => readDigits b (b * n + d) cs
    | none => (n, c :: cs)

/-- The text does not go on with a digit. -/
def Ends (b : ℕ) (cs : List Char) : Prop := ∀ c ∈ cs.head?, digitValue b c = none

theorem ends_nil {b : ℕ} : Ends b [] := fun _ hc => by cases hc

theorem digitValue_digitChar {b d : ℕ} (hb : b ≤ 16) (hd : d < b) : digitValue b d.digitChar = some d := by
  have hall : ∀ d < 16, ∀ b ≤ 16, d < b → digitValue b d.digitChar = some d := by decide
  exact hall d (by omega) b hb hd

theorem readDigits_of_ends {b n : ℕ} {cs : List Char} (h : Ends b cs) : readDigits b n cs = (n, cs) := by
  cases cs with
  | nil => rfl
  | cons c cs => rw [readDigits, h c rfl]

/-- Digits that are read behind other digits. -/
theorem readDigits_append {b n m : ℕ} {ds cs : List Char} (h : readDigits b n ds = (m, [])) :
    readDigits b n (ds ++ cs) = readDigits b m cs := by
  induction ds generalizing n with
  | nil =>
    obtain rfl := (Prod.mk.inj h).1
    rfl
  | cons d ds ih =>
    rw [readDigits] at h
    rw [List.cons_append, readDigits]
    cases hd : digitValue b d with
    | none =>
      rw [hd] at h
      cases (Prod.mk.inj h).2
    | some v =>
      rw [hd] at h
      exact ih h

theorem readDigits_toDigits_nil {b : ℕ} (hb : 1 < b) (hb' : b ≤ 16) (n : ℕ) :
    readDigits b 0 (Nat.toDigits b n) = (n, []) := by
  induction n using Nat.strongRecOn with
  | ind n ih =>
    by_cases hn : n < b
    · rw [Nat.toDigits_of_lt_base hn, readDigits, digitValue_digitChar hb' hn]
      simp [readDigits]
    · have hmod : n % b < b := Nat.mod_lt _ (by omega)
      rw [Nat.toDigits_of_base_le hb (by omega), readDigits_append (ih (n / b) (Nat.div_lt_self (by omega) hb)),
        readDigits, digitValue_digitChar hb' hmod]
      simp [readDigits, Nat.div_add_mod]

theorem readDigits_toDigits {b : ℕ} (hb : 1 < b) (hb' : b ≤ 16) (n : ℕ) {cs : List Char} (hcs : Ends b cs) :
    readDigits b 0 (Nat.toDigits b n ++ cs) = (n, cs) := by
  rw [readDigits_append (readDigits_toDigits_nil hb hb' n), readDigits_of_ends hcs]

/-- All characters of a text that is read to its end are digits. -/
theorem isSome_of_readDigits {b n m : ℕ} {ds : List Char} (h : readDigits b n ds = (m, [])) :
    ∀ c ∈ ds, (digitValue b c).isSome = true := by
  induction ds generalizing n with
  | nil => simp
  | cons d ds ih =>
    rw [readDigits] at h
    cases hd : digitValue b d with
    | none =>
      rw [hd] at h
      cases (Prod.mk.inj h).2
    | some v =>
      rw [hd] at h
      intro c hc
      rcases List.mem_cons.1 hc with rfl | hc
      · rw [hd]
        rfl
      · exact ih h c hc

theorem isSome_toDigits {b : ℕ} (hb : 1 < b) (hb' : b ≤ 16) (n : ℕ) :
    ∀ c ∈ Nat.toDigits b n, (digitValue b c).isSome = true :=
  isSome_of_readDigits (readDigits_toDigits_nil hb hb' n)

/-- The characters before `'0'` are not digits. -/
theorem digitValue_of_lt {b : ℕ} {c : Char} (h : c < '0') : digitValue b c = none := by
  have ha : ¬ 'a' ≤ c := fun hc => absurd (lt_of_lt_of_le h (le_trans (by decide) hc)) (lt_irrefl _)
  have hA : ¬ 'A' ≤ c := fun hc => absurd (lt_of_lt_of_le h (le_trans (by decide) hc)) (lt_irrefl _)
  simp [digitValue, not_le.2 h, ha, hA]

end Numerals
