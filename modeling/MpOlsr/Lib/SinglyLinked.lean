import Mathlib.Data.List.Nodup
import Mathlib.Logic.Function.Basic

/-!
# Singly linked lists

Lists threaded through one field of their cells.  A cell is unlinked through the cell before it, or by a new head if it
is the first one.
-/

namespace SinglyLinked

/-- From `first`, the field `next` leads through the cells of a list. -/
inductive Threads {α : Type} (next : α → Option α) : Option α → List α → Prop
  | nil : Threads next none []
  | cons {x : α} {xs : List α} (h : Threads next (next x) xs) : Threads next (some x) (x :: xs)

variable {α : Type} {next next' : α → Option α} {first : Option α} {x : α} {xs ys : List α}

namespace Threads

theorem head (h : Threads next first xs) : first = xs.head? := by
  cases h with
  | nil => rfl
  | cons => rfl

theorem congr (h : Threads next first xs) (hnext : ∀ x ∈ xs, next' x = next x) : Threads next' first xs := by
  induction h with
  | nil => exact .nil
  | @cons x xs _ ih =>
    refine .cons ?_
    rw [hnext x List.mem_cons_self]
    exact ih fun y hy => hnext y (List.mem_cons_of_mem _ hy)

theorem append_right (h : Threads next first (xs ++ x :: ys)) : Threads next (next x) ys := by
  induction xs generalizing first with
  | nil =>
    cases h with
    | cons h => exact h
  | cons z xs ih =>
    cases h with
    | cons h => exact ih h

theorem next_of_split (h : Threads next first (xs ++ x :: ys)) : next x = ys.head? := h.append_right.head

/-- The first cell is unlinked by a new head. -/
theorem unlink_first (h : Threads next first (x :: ys)) : Threads next (next x) ys := by
  cases h with
  | cons h => exact h

variable [DecidableEq α]

/-- A new first cell. -/
theorem push (h : Threads next first xs) (hx : x ∉ xs) :
    Threads (Function.update next x first) (some x) (x :: xs) := by
  refine .cons ?_
  rw [Function.update_self]
  refine h.congr fun y hy => Function.update_of_ne ?_ _ _
  rintro rfl
  exact hx hy

/-- Another cell is unlinked through the cell before it. -/
theorem unlink {p : α} (h : Threads next first (xs ++ p :: x :: ys)) (hnodup : (xs ++ p :: x :: ys).Nodup) :
    Threads (Function.update next p (next x)) first (xs ++ p :: ys) := by
  induction xs generalizing first with
  | nil =>
    rw [List.nil_append, List.nodup_cons] at hnodup
    cases h with
    | cons h =>
      refine .cons ?_
      rw [Function.update_self]
      refine (unlink_first (h.head ▸ h)).congr fun y hy => Function.update_of_ne ?_ _ _
      rintro rfl
      exact hnodup.1 (List.mem_cons_of_mem _ hy)
  | cons z xs ih =>
    rw [List.cons_append, List.nodup_cons] at hnodup
    cases h with
    | cons h =>
      refine .cons ?_
      have hzp : z ≠ p := by
        rintro rfl
        exact hnodup.1 (List.mem_append_right _ List.mem_cons_self)
      rw [Function.update_of_ne hzp]
      exact ih h hnodup.2

end Threads

end SinglyLinked
