import Mathlib.Data.List.Nodup
import Mathlib.Data.Nat.Basic

/-!
# Taking turns

The members of a list take turns: the first one is chosen and goes to the end.  After any number of turns two members
have been chosen equally often, up to one turn (`count_turns`).  With one turn more for the first member this fails
unless the turns come out even (`spread_iff`).
-/

namespace RoundRobin

variable {α : Type}

/-- The members chosen in a number of turns. -/
def turns : List α → ℕ → List α
  | _, 0 => []
  | [], _ + 1 => []
  | x :: xs, m + 1 => x :: turns (xs ++ [x]) m

theorem turns_append (xs ys : List α) (m : ℕ) : turns (xs ++ ys) (xs.length + m) = xs ++ turns (ys ++ xs) m := by
  induction xs generalizing ys with
  | nil => simp
  | cons x xs ih =>
    have hlen : (x :: xs).length + m = (xs.length + m) + 1 := by
      rw [List.length_cons]
      omega
    rw [hlen, List.cons_append, turns, List.append_assoc, ih, List.append_assoc, List.singleton_append,
      List.cons_append]

theorem turns_length_add (xs : List α) (m : ℕ) : turns xs (xs.length + m) = xs ++ turns xs m := by
  have h := turns_append xs [] m
  rwa [List.append_nil, List.nil_append] at h

theorem turns_take (xs : List α) {r : ℕ} (hr : r ≤ xs.length) : turns xs r = xs.take r := by
  have h := turns_append (xs.take r) (xs.drop r) 0
  rw [List.take_append_drop, List.length_take, Nat.min_eq_left hr, Nat.add_zero, turns, List.append_nil] at h
  exact h

variable [DecidableEq α]

/-- In `q` rounds and `r` turns every member is chosen `q` times, and the first `r` once more. -/
theorem count_turns {xs : List α} (hxs : xs.Nodup) {x : α} (hx : x ∈ xs) (q : ℕ) {r : ℕ} (hr : r ≤ xs.length) :
    (turns xs (q * xs.length + r)).count x = q + if x ∈ xs.take r then 1 else 0 := by
  induction q with
  | zero =>
    rw [Nat.zero_mul, Nat.zero_add, Nat.zero_add, turns_take xs hr]
    exact (hxs.sublist (List.take_sublist r xs)).count
  | succ q ih =>
    have hlen : (q + 1) * xs.length + r = xs.length + (q * xs.length + r) := by
      rw [Nat.succ_mul]
      omega
    rw [hlen, turns_length_add, List.count_append, ih, List.count_eq_one_of_mem hxs hx]
    omega

/-- Two members are chosen equally often, up to one turn. -/
theorem count_turns_le {xs : List α} (hxs : xs.Nodup) {x y : α} (hx : x ∈ xs) (hy : y ∈ xs) (m : ℕ) :
    (turns xs m).count x ≤ (turns xs m).count y + 1 := by
  have hpos : 0 < xs.length := List.length_pos_of_mem hx
  have hm : m = m / xs.length * xs.length + m % xs.length := by
    rw [Nat.mul_comm]
    exact (Nat.div_add_mod m xs.length).symm
  have hr : m % xs.length ≤ xs.length := Nat.le_of_lt (Nat.mod_lt m hpos)
  rw [hm, count_turns hxs hx _ hr, count_turns hxs hy _ hr]
  split <;> omega

omit [DecidableEq α] in
theorem getLast_notMem_take {xs : List α} (hxs : xs.Nodup) (hne : xs ≠ []) {r : ℕ} (hr : r < xs.length) :
    xs.getLast hne ∉ xs.take r := by
  intro hmem
  have hsplit := List.dropLast_append_getLast hne
  have htake : xs.take r = xs.dropLast.take r := by
    rw [List.dropLast_eq_take, List.take_take]
    congr 1
    omega
  rw [htake] at hmem
  rw [← hsplit, List.nodup_append] at hxs
  exact hxs.2.2 _ (List.mem_of_mem_take hmem) _ (List.mem_singleton.2 rfl) rfl

/-- If the first member is chosen once before the turns begin, the choices are spread evenly exactly when there is only
one member, or every member had the same number of turns. -/
theorem spread_iff {xs : List α} {first : α} (hxs : xs.Nodup) (hhead : xs.head? = some first) (m : ℕ) :
    (∀ x ∈ xs, ∀ y ∈ xs, (first :: turns xs m).count x ≤ (first :: turns xs m).count y + 1) ↔
      xs.length = 1 ∨ xs.length ∣ m := by
  have hfirst : first ∈ xs := List.mem_of_head? hhead
  have hnil : xs ≠ [] := List.ne_nil_of_mem hfirst
  have hpos : 0 < xs.length := List.length_pos_of_mem hfirst
  have hm : m = m / xs.length * xs.length + m % xs.length := by
    rw [Nat.mul_comm]
    exact (Nat.div_add_mod m xs.length).symm
  have hlt : m % xs.length < xs.length := Nat.mod_lt m hpos
  have hcount : ∀ x ∈ xs, (first :: turns xs m).count x =
      m / xs.length + (if x ∈ xs.take (m % xs.length) then 1 else 0) + if x = first then 1 else 0 := by
    intro x hx
    have hturns := count_turns hxs hx (m / xs.length) (Nat.le_of_lt hlt)
    rw [← hm] at hturns
    rw [List.count_cons, hturns]
    by_cases hxf : x = first
    · simp [hxf]
    · simp [hxf, Ne.symm hxf]
  constructor
  · intro h
    by_contra hnot
    obtain ⟨hone, hdvd⟩ := not_or.1 hnot
    have hr : 0 < m % xs.length := Nat.pos_of_ne_zero fun hz => hdvd (Nat.dvd_of_mod_eq_zero hz)
    -- the last member has its turn at the end of a round, and the first has had two
    have hout := getLast_notMem_take hxs hnil hlt
    have hin : first ∈ xs.take (m % xs.length) := by
      obtain ⟨k, hk⟩ : ∃ k, m % xs.length = k + 1 := ⟨m % xs.length - 1, by omega⟩
      rw [hk]
      cases xs with
      | nil => cases hhead
      | cons x xs =>
        cases hhead
        exact List.mem_cons_self
    have hne : xs.getLast hnil ≠ first := fun heq => hout (heq ▸ hin)
    have hle := h first hfirst _ (List.getLast_mem hnil)
    rw [hcount first hfirst, hcount _ (List.getLast_mem hnil), if_pos hin, if_pos rfl, if_neg hout, if_neg hne] at hle
    omega
  · intro h x hx y hy
    rcases h with hone | hdvd
    · obtain ⟨z, rfl⟩ := List.length_eq_one_iff.1 hone
      rw [List.mem_singleton.1 hx, List.mem_singleton.1 hy]
      exact Nat.le_succ _
    · have hzero : m % xs.length = 0 := Nat.mod_eq_zero_of_dvd hdvd
      have hcx := hcount x hx
      have hcy := hcount y hy
      rw [hzero, List.take_zero, if_neg List.not_mem_nil] at hcx hcy
      rw [hcx, hcy]
      split <;> omega

end RoundRobin
