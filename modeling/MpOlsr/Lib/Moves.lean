import MpOlsr.Lib.Bytes
import MpOlsr.Lib.Fault

/-!
# Moving a block within its memory

The two loops that move a block cell by cell: `moveDown` from its last cell to later addresses, `moveUp` from its first
cell to earlier addresses.  Neither spoils the block, although the ranges overlap.
-/

namespace Bytes

open Buffer Fault

variable {α : Type}

/-- `for (i = 0; i < n; i++) *(dst--) = *(src--);` -/
def moveDown (mem : List α) (dst src : ℤ) : ℕ → Option (List α)
  | 0 => some mem
  | n + 1 => do
    let b ← load mem src
    let mem ← store mem dst b
    moveDown mem (dst - 1) (src - 1) n

/-- `for (i = 0; i < n; i++) *(dst++) = *(src++);` -/
def moveUp (mem : List α) (dst src : ℤ) : ℕ → Option (List α)
  | 0 => some mem
  | n + 1 => do
    let b ← load mem src
    let mem ← store mem dst b
    moveUp mem (dst + 1) (src + 1) n

/-- The block `xs` moves over the cells `g` after it. -/
theorem moveDown_spec (a xs g r : List α) (hg : g ≠ []) : ∃ y, y.length = g.length ∧
    moveDown (a ++ (xs ++ (g ++ r))) (a.length + xs.length + g.length - 1) (a.length + xs.length - 1) xs.length =
      some (a ++ (y ++ (xs ++ r))) := by
  induction xs using List.reverseRecOn generalizing g r with
  | nil => exact ⟨g, rfl, rfl⟩
  | append_singleton xs x ih =>
    obtain ⟨z, zs, hz⟩ : ∃ z zs, x :: g = zs ++ [z] := by
      rcases List.eq_nil_or_concat (x :: g) with h | ⟨zs, z, h⟩
      · cases h
      · exact ⟨z, zs, by rw [h, List.concat_eq_append]⟩
    have hlen : zs.length = g.length := by
      have h := congrArg List.length hz
      rw [List.length_append] at h
      simpa using h.symm
    have hpos : 0 < g.length := List.length_pos_iff.2 hg
    have hload : load (a ++ ((xs ++ [x]) ++ (g ++ r))) (a.length + (xs ++ [x]).length - 1) = some x :=
      load_eq (a := a ++ xs) (c := g ++ r) (by simp) (by simp; omega)
    have hstore : store (a ++ ((xs ++ [x]) ++ (g ++ r))) (a.length + (xs ++ [x]).length + g.length - 1) x =
        some (a ++ (xs ++ (zs ++ (x :: r)))) := by
      have hsplit : a ++ ((xs ++ [x]) ++ (g ++ r)) = (a ++ (xs ++ zs)) ++ z :: r := by
        have hx : [x] ++ (g ++ r) = (zs ++ [z]) ++ r := by
          rw [← hz]
          rfl
        rw [List.append_assoc xs, hx]
        simp
      rw [store_eq hsplit (by simp; omega)]
      simp
    have hzs : zs ≠ [] := List.length_pos_iff.1 (by omega)
    obtain ⟨y, hy, hmove⟩ := ih zs (x :: r) hzs
    refine ⟨y, by omega, ?_⟩
    rw [List.length_append, List.length_singleton, moveDown]
    rw [List.length_append, List.length_singleton] at hload hstore
    rw [bind_of_some hload, bind_of_some hstore]
    have hdst : (a.length : ℤ) + ((xs.length + 1 : ℕ) : ℤ) + g.length - 1 - 1 = a.length + xs.length + zs.length - 1 := by
      omega
    have hsrc : (a.length : ℤ) + ((xs.length + 1 : ℕ) : ℤ) - 1 - 1 = a.length + xs.length - 1 := by omega
    rw [hdst, hsrc, hmove]
    simp

/-- The block `xs` moves over the cells `g` before it. -/
theorem moveUp_spec (a g xs r : List α) (hg : g ≠ []) : ∃ y, y.length = g.length ∧
    moveUp (a ++ (g ++ (xs ++ r))) a.length (a.length + g.length) xs.length = some (a ++ (xs ++ (y ++ r))) := by
  induction xs generalizing a g with
  | nil => exact ⟨g, rfl, rfl⟩
  | cons x xs ih =>
    obtain ⟨z, zs, rfl⟩ := List.exists_cons_of_ne_nil hg
    have hload : load (a ++ ((z :: zs) ++ ((x :: xs) ++ r))) (a.length + (z :: zs).length) = some x :=
      load_eq (a := a ++ (z :: zs)) (c := xs ++ r) (by simp) (by simp)
    have hstore : store (a ++ ((z :: zs) ++ ((x :: xs) ++ r))) a.length x =
        some ((a ++ [x]) ++ ((zs ++ [x]) ++ (xs ++ r))) := by
      have h : store (a ++ z :: (zs ++ ((x :: xs) ++ r))) a.length x = some (a ++ x :: (zs ++ ((x :: xs) ++ r))) :=
        store_eq rfl rfl
      rw [List.cons_append, h]
      simp
    obtain ⟨y, hy, hmove⟩ := ih (a ++ [x]) (zs ++ [x]) (by simp)
    refine ⟨y, by rw [hy]; simp, ?_⟩
    show moveUp _ _ _ (xs.length + 1) = _
    rw [moveUp, bind_of_some hload, bind_of_some hstore]
    have hdst : ((a ++ [x]).length : ℤ) = a.length + 1 := by simp
    have hsrc : ((a ++ [x]).length : ℤ) + (zs ++ [x]).length = a.length + (z :: zs).length + 1 := by
      simp only [List.length_append, List.length_cons, List.length_nil]
      omega
    rw [hdst] at hmove hsrc
    rw [hsrc] at hmove
    rw [hmove]
    simp

end Bytes
