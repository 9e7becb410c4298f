import Mathlib.Data.Finset.Fold
import Mathlib.Data.Finset.Filter
import Mathlib.Data.Finset.Image
import Mathlib.Order.Basic

/-!
# Bounded buffers

An array of a C program is a list, accessed at an integer index; an access outside the array is a fault (`none`).
`Holds xs n f` says that `xs` has `n` cells and that the cell `i` contains `f i`.

The second part is about arrays of accumulators: the cell `b` accumulates the values `f x` of the elements `x` of a
finite set that fall into the bin `b` (`binFold`), and is updated when an element enters or leaves the set.
-/

namespace Buffer

variable {α : Type*}

/-- Read the cell `i`. -/
def load (xs : List α) (i : ℤ) : Option α :=
  if 0 ≤ i then xs[i.toNat]? else none

/-- Write the cell `i`. -/
def store (xs : List α) (i : ℤ) (a : α) : Option (List α) :=
  if 0 ≤ i ∧ i.toNat < xs.length then some (xs.set i.toNat a) else none

/-- Apply `g` to the cell `i`. -/
def modify (xs : List α) (i : ℤ) (g : α → α) : Option (List α) := do
  let a ← load xs i
  store xs i (g a)

/-- The array `xs` has `n` cells, with the contents given by `f`. -/
structure Holds (xs : List α) (n : ℤ) (f : ℤ → α) : Prop where
  length : (xs.length : ℤ) = n
  load : ∀ i, 0 ≤ i → i < n → Buffer.load xs i = some (f i)

theorem Holds.congr {xs : List α} {n : ℤ} {f g : ℤ → α} (h : Holds xs n f)
    (hfg : ∀ i, 0 ≤ i → i < n → f i = g i) : Holds xs n g :=
  ⟨h.length, fun i h0 h1 => by rw [h.load i h0 h1, hfg i h0 h1]⟩

/-- An array is determined by its length and its contents. -/
theorem Holds.eq {xs ys : List α} {n : ℤ} {f : ℤ → α} (hx : Holds xs n f) (hy : Holds ys n f) : xs = ys := by
  have hlen : xs.length = ys.length := by have := hx.length; have := hy.length; omega
  refine List.ext_getElem? fun i => ?_
  by_cases hi : i < xs.length
  · have h1 := hx.load i (by omega) (by have := hx.length; omega)
    have h2 := hy.load i (by omega) (by have := hx.length; omega)
    have h0 : (0 : ℤ) ≤ i := by omega
    simp only [Buffer.load, if_pos h0, Int.toNat_natCast] at h1 h2
    rw [h1, h2]
  · rw [List.getElem?_eq_none (by omega), List.getElem?_eq_none (by omega)]

theorem Holds.getElem? {xs : List α} {n : ℤ} {f : ℤ → α} (h : Holds xs n f) {i : ℕ} (hi : (i : ℤ) < n) :
    xs[i]? = some (f i) := by
  have := h.load i (by omega) hi
  have h0 : (0 : ℤ) ≤ i := by omega
  rwa [Buffer.load, if_pos h0, Int.toNat_natCast] at this

theorem holds_replicate (n : ℤ) (a : α) (hn : 0 ≤ n) : Holds (List.replicate n.toNat a) n fun _ => a := by
  refine ⟨by simp [hn], fun i h0 h1 => ?_⟩
  rw [Buffer.load, if_pos h0, List.getElem?_replicate, if_pos (by omega)]

theorem holds_of_forall {xs : List α} {f : ℤ → α} (h : ∀ i : ℕ, i < xs.length → xs[i]? = some (f i)) :
    Holds xs xs.length f := by
  refine ⟨rfl, fun i h0 h1 => ?_⟩
  rw [Buffer.load, if_pos h0, h i.toNat (by omega), Int.toNat_of_nonneg h0]

theorem Holds.store {xs : List α} {n : ℤ} {f : ℤ → α} (h : Holds xs n f) {i : ℤ} (h0 : 0 ≤ i) (h1 : i < n)
    (a : α) : ∃ ys, store xs i a = some ys ∧ Holds ys n (Function.update f i a) := by
  have hlen := h.length
  refine ⟨xs.set i.toNat a, by rw [Buffer.store, if_pos (by omega)], by simpa using hlen, fun j hj0 hj1 => ?_⟩
  have hj := h.load j hj0 hj1
  simp only [Buffer.load, if_pos hj0] at hj ⊢
  by_cases hij : j = i
  · subst hij
    rw [List.getElem?_set_self (by omega), Function.update_self]
  · rw [List.getElem?_set_ne (by omega), Function.update_of_ne hij, hj]

theorem Holds.modify {xs : List α} {n : ℤ} {f : ℤ → α} (h : Holds xs n f) {i : ℤ} (h0 : 0 ≤ i) (h1 : i < n)
    (g : α → α) : ∃ ys, modify xs i g = some ys ∧ Holds ys n (Function.update f i (g (f i))) := by
  obtain ⟨ys, hys, hh⟩ := h.store h0 h1 (g (f i))
  exact ⟨ys, by rw [Buffer.modify, h.load i h0 h1]; exact hys, hh⟩

theorem store_length {xs ys : List α} {i : ℤ} {a : α} (h : store xs i a = some ys) : ys.length = xs.length := by
  unfold store at h
  split at h
  · cases h; simp
  · cases h

/-! ### Accumulators -/

section Accumulators

variable {β : Type*} [DecidableEq α] (op : β → β → β) [Std.Commutative op] [Std.Associative op] (e : β)

/-- The accumulated values of the elements of `s` that fall into the bin `b`. -/
def binFold (f : α → β) (bin : α → ℤ) (s : Finset α) (b : ℤ) : β :=
  (s.filter fun x => bin x = b).fold op e f

variable {op e} {f : α → β} {bin : α → ℤ} {s : Finset α} {x : α}

omit [DecidableEq α] in
@[simp]
theorem binFold_empty (b : ℤ) : binFold op e f bin ∅ b = e := by
  simp [binFold]

theorem binFold_insert (hx : x ∉ s) :
    binFold op e f bin (insert x s) =
      Function.update (binFold op e f bin s) (bin x) (op (f x) (binFold op e f bin s (bin x))) := by
  funext b
  unfold binFold
  by_cases hb : b = bin x
  · subst hb
    rw [Finset.filter_insert, if_pos rfl, Finset.fold_insert (by simp [hx]), Function.update_self]
  · rw [Finset.filter_insert, if_neg (Ne.symm hb), Function.update_of_ne hb]

theorem binFold_erase {sub : β → β → β} (hsub : ∀ a y, sub (op a y) a = y) (hx : x ∈ s) :
    binFold op e f bin (s.erase x) =
      Function.update (binFold op e f bin s) (bin x) (sub (binFold op e f bin s (bin x)) (f x)) := by
  have h : binFold op e f bin (insert x (s.erase x)) = _ := binFold_insert (Finset.notMem_erase x s)
  rw [Finset.insert_erase hx] at h
  funext b
  by_cases hb : b = bin x
  · subst hb
    rw [Function.update_self, h, Function.update_self, hsub]
  · rw [Function.update_of_ne hb, h, Function.update_of_ne hb]

omit [DecidableEq α] in
theorem binFold_of_filter_eq_singleton {b : ℤ} (hop : ∀ a, op a e = a) (h : (s.filter fun y => bin y = b) = {x}) :
    binFold op e f bin s b = f x := by
  rw [binFold, h, Finset.fold_singleton, hop]

end Accumulators

end Buffer
