import Mathlib.Data.List.Infix

/-!
# Streams of frames

What has arrived of a stream of frames is some of its frames and a part of the next one (`exists_of_prefix`).
-/

namespace Framing

variable {α μ : Type} {frame : μ → List α}

/-- A prefix of a stream is a number of frames and a proper part of the next frame. -/
theorem exists_of_prefix {ms : List μ} {xs : List α} (h : xs <+: ms.flatMap frame) : ∃ n part,
    n ≤ ms.length ∧ xs = (ms.take n).flatMap frame ++ part ∧
      (part = [] ∨ ∃ m, ms[n]? = some m ∧ part <+: frame m ∧ part.length < (frame m).length) := by
  induction ms generalizing xs with
  | nil => exact ⟨0, [], le_refl _, by simpa using h, Or.inl rfl⟩
  | cons m ms ih =>
    rw [List.flatMap_cons] at h
    by_cases hlength : xs.length < (frame m).length
    · refine ⟨0, xs, Nat.zero_le _, rfl, Or.inr ⟨m, rfl, ?_, hlength⟩⟩
      exact List.prefix_of_prefix_length_le h (List.prefix_append _ _) hlength.le
    · obtain ⟨ys, rfl⟩ : frame m <+: xs :=
        List.prefix_of_prefix_length_le (List.prefix_append _ _) h (by omega)
      obtain ⟨n, part, hn, rfl, hpart⟩ := ih ((List.prefix_append_right_inj _).1 h)
      exact ⟨n + 1, part, by simpa using hn, by simp, by simpa using hpart⟩

/-- If the whole stream has arrived, no part of a frame is left. -/
theorem take_of_eq {ms : List μ} {n : ℕ} {part : List α} (hpos : ∀ m ∈ ms, frame m ≠ [])
    (h : ms.flatMap frame = (ms.take n).flatMap frame ++ part)
    (hpart : part = [] ∨ ∃ m, ms[n]? = some m ∧ part <+: frame m ∧ part.length < (frame m).length) :
    ms.length ≤ n := by
  by_contra hn
  have hn : n < ms.length := by omega
  have hsplit := List.take_append_drop n ms
  rw [List.drop_eq_getElem_cons hn] at hsplit
  have hrest : ms.flatMap frame = (ms.take n).flatMap frame ++ (frame ms[n] ++ (ms.drop (n + 1)).flatMap frame) := by
    rw [← List.flatMap_cons, ← List.flatMap_append, hsplit]
  have hlength : (frame ms[n]).length ≤ part.length := by
    have heq := congrArg List.length (List.append_cancel_left (hrest.symm.trans h))
    rw [List.length_append] at heq
    omega
  rcases hpart with rfl | ⟨m, hm, -, hlt⟩
  · exact hpos _ (List.getElem_mem hn) (List.length_eq_zero_iff.1 (by simpa using hlength))
  · rw [List.getElem?_eq_getElem hn, Option.some_inj] at hm
    rw [hm] at hlength
    omega

end Framing
