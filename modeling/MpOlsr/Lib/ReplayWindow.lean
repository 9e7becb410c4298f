import Mathlib.Data.List.Nodup
import Mathlib.Order.Lattice

/-!
# Windows of sequence numbers

A receiver accepts a number that is newer than all others, or one of the last `w` numbers if it has not accepted it yet.
After `limit` numbers in a row that are too old it starts again with the next one.  As long as it does not start again,
no number is accepted twice (`receive_accepted`, `WF.receive`).
-/

namespace ReplayWindow

/-- The newest number, the numbers accepted since the start, and how many numbers in a row were too old. -/
structure Window where
  newest : ℕ
  accepted : List ℕ
  low : ℕ

/-- The window at its start. -/
def start (m : ℕ) : Window := ⟨m, [m], 0⟩

section Receive

variable (w limit : ℕ) (W : Window) (m : ℕ)

def tooOld : Bool := m + w ≤ W.newest

def startsAgain : Bool := tooOld w W m && limit ≤ W.low

/-- The window after a number, and whether the number is accepted. -/
def receive : Window × Bool :=
  if tooOld w W m then
    if limit ≤ W.low then (start m, true) else ({ W with low := W.low + 1 }, false)
  else if W.accepted.contains m then ({ W with low := 0 }, false)
  else (⟨max W.newest m, m :: W.accepted, 0⟩, true)

end Receive

structure WF (limit : ℕ) (W : Window) : Prop where
  nodup : W.accepted.Nodup
  le_newest : ∀ m ∈ W.accepted, m ≤ W.newest
  low_le : W.low ≤ limit

variable {w limit : ℕ} {W : Window} {m : ℕ}

theorem wf_start : WF limit (start m) where
  nodup := List.nodup_singleton m
  le_newest _ hm := (List.mem_singleton.1 hm).le
  low_le := Nat.zero_le _

theorem WF.receive (h : WF limit W) : WF limit (receive w limit W m).1 := by
  rw [ReplayWindow.receive]
  split
  · split
    · exact wf_start
    · refine ⟨h.nodup, h.le_newest, ?_⟩
      dsimp only
      omega
  · split
    · exact ⟨h.nodup, h.le_newest, Nat.zero_le _⟩
    · rename_i hnew
      rw [List.contains_iff_mem] at hnew
      refine ⟨List.nodup_cons.2 ⟨hnew, h.nodup⟩, fun n hn => ?_, Nat.zero_le _⟩
      rcases List.mem_cons.1 hn with rfl | hn
      · exact le_max_right _ _
      · exact (h.le_newest n hn).trans (le_max_left _ _)

/-- Unless the receiver starts again, it accepts what is not too old and was not accepted yet, and adds it. -/
theorem receive_accepted (h : startsAgain w limit W m = false) :
    ((receive w limit W m).2 = true ↔ W.newest < m + w ∧ m ∉ W.accepted) ∧
      (receive w limit W m).1.accepted = (if (receive w limit W m).2 then m :: W.accepted else W.accepted) ∧
      (receive w limit W m).1.newest = if (receive w limit W m).2 then max W.newest m else W.newest := by
  rw [receive]
  cases hold : tooOld w W m with
  | true =>
    rw [startsAgain, hold, Bool.true_and, decide_eq_false_iff_not] at h
    rw [tooOld, decide_eq_true_eq] at hold
    rw [if_pos rfl, if_neg h]
    refine ⟨iff_of_false Bool.false_ne_true fun hnew => ?_, rfl, rfl⟩
    omega
  | false =>
    rw [tooOld, decide_eq_false_iff_not, not_le] at hold
    rw [if_neg Bool.false_ne_true, ← List.contains_iff_mem]
    cases hseen : W.accepted.contains m with
    | true => exact ⟨iff_of_false Bool.false_ne_true fun hnew => hnew.2 rfl, rfl, rfl⟩
    | false => exact ⟨iff_of_true rfl ⟨hold, Bool.false_ne_true⟩, rfl, rfl⟩

end ReplayWindow
