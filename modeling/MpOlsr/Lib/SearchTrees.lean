import Mathlib.Data.List.Basic
import Mathlib.Data.List.Pairwise
import Mathlib.Logic.Function.Basic

/-!
# Search trees from outside

A search tree as the list of its keys and values, in the order of the ranks of the keys.  No key occurs twice: an entry
whose key is there already is not inserted.
-/

namespace SearchTree

variable {K V : Type}

def place (rank : K → ℕ) (k : K) (x : V) : List (K × V) → List (K × V)
  | [] => [(k, x)]
  | p :: t => if rank p.1 < rank k then p :: place rank k x t else (k, x) :: p :: t

/-- Insert an entry; the second result is whether its key is new. -/
def insert [BEq K] (rank : K → ℕ) (k : K) (x : V) (t : List (K × V)) : List (K × V) × Bool :=
  if (t.lookup k).isSome then (t, false) else (place rank k x t, true)

/-- Insert an entry behind those with the same key. -/
def insertDup (rank : K → ℕ) (k : K) (x : V) : List (K × V) → List (K × V)
  | [] => [(k, x)]
  | p :: t => if rank k < rank p.1 then (k, x) :: p :: t else p :: insertDup rank k x t

/-- Remove the entry of a value. -/
def remove [DecidableEq V] (x : V) (t : List (K × V)) : List (K × V) := t.filter fun p => p.2 != x

/-- The keys are in order. -/
def Sorted (rank : K → ℕ) (t : List (K × V)) : Prop := t.Pairwise fun p q => rank p.1 < rank q.1

/-- The keys are in order, but some of them may be the same. -/
def Ascending (rank : K → ℕ) (t : List (K × V)) : Prop := t.Pairwise fun p q => rank p.1 ≤ rank q.1

variable {rank : K → ℕ} {k k' : K} {x y : V} {t : List (K × V)} {p : K × V}

theorem mem_place : p ∈ place rank k x t ↔ p = (k, x) ∨ p ∈ t := by
  induction t with
  | nil => simp [place]
  | cons q t ih =>
    unfold place
    split
    · simp only [List.mem_cons, ih]
      exact or_left_comm
    · simp

@[simp] theorem length_place : (place rank k x t).length = t.length + 1 := by
  induction t with
  | nil => simp [place]
  | cons q t ih =>
    unfold place
    split <;> simp [ih]

theorem sorted_nil : Sorted rank ([] : List (K × V)) := List.Pairwise.nil

theorem Sorted.unique (h : Sorted rank t) (hx : (k, x) ∈ t) (hy : (k, y) ∈ t) : x = y := by
  induction t with
  | nil => simp at hx
  | cons p t ih =>
    unfold Sorted at h
    rw [List.pairwise_cons] at h
    rcases List.mem_cons.1 hx with rfl | hxt
    · rcases List.mem_cons.1 hy with hy | hyt
      · exact (Prod.mk.inj hy).2.symm
      · have hlt := h.1 _ hyt
        simp at hlt
    · rcases List.mem_cons.1 hy with rfl | hyt
      · have hlt := h.1 _ hxt
        simp at hlt
      · exact ih h.2 hxt hyt

theorem Sorted.place (hrank : Function.Injective rank) (h : Sorted rank t) (hk : ∀ x, (k, x) ∉ t) :
    Sorted rank (place rank k x t) := by
  induction t with
  | nil => simp [SearchTree.place, Sorted]
  | cons p t ih =>
    obtain ⟨k', y⟩ := p
    have hne : rank k' ≠ rank k := fun heq => hk y (by simp [hrank heq])
    have htail : ∀ x, (k, x) ∉ t := fun z hz => hk z (List.mem_cons_of_mem _ hz)
    unfold Sorted at h ih ⊢
    rw [List.pairwise_cons] at h
    unfold SearchTree.place
    split
    · rename_i hlt
      rw [List.pairwise_cons]
      refine ⟨fun q hq => ?_, ih h.2 htail⟩
      rw [mem_place] at hq
      rcases hq with rfl | hq
      · exact hlt
      · exact h.1 q hq
    · rw [List.pairwise_cons, List.pairwise_cons]
      refine ⟨fun q hq => ?_, h⟩
      rcases List.mem_cons.1 hq with rfl | hq
      · simp only at *
        omega
      · have hlt := h.1 q hq
        simp only at *
        omega

theorem insertDup_perm (rank : K → ℕ) (k : K) (x : V) (t : List (K × V)) : (insertDup rank k x t).Perm ((k, x) :: t) := by
  induction t with
  | nil => exact List.Perm.refl _
  | cons q t ih =>
    unfold insertDup
    split
    · exact List.Perm.refl _
    · exact (ih.cons q).trans (List.Perm.swap _ _ _)

theorem Ascending.insertDup (h : Ascending rank t) (k : K) (x : V) : Ascending rank (insertDup rank k x t) := by
  induction t with
  | nil => simp [SearchTree.insertDup, Ascending]
  | cons q t ih =>
    unfold Ascending at h ih ⊢
    rw [List.pairwise_cons] at h
    unfold SearchTree.insertDup
    split
    · rename_i hlt
      rw [List.pairwise_cons, List.pairwise_cons]
      refine ⟨fun q' hq' => ?_, h⟩
      rcases List.mem_cons.1 hq' with rfl | hq'
      · exact Nat.le_of_lt hlt
      · exact Nat.le_trans (Nat.le_of_lt hlt) (h.1 q' hq')
    · rename_i hge
      rw [List.pairwise_cons]
      refine ⟨fun q' hq' => ?_, ih h.2⟩
      rcases List.mem_cons.1 ((insertDup_perm rank k x t).mem_iff.1 hq') with rfl | hq'
      · exact Nat.not_lt.1 hge
      · exact h.1 q' hq'

section Keys

variable [BEq K]

theorem mem_insert (hk : t.lookup k = none) : p ∈ (insert rank k x t).1 ↔ p = (k, x) ∨ p ∈ t := by
  simp [insert, hk, mem_place]

theorem length_insert (hk : t.lookup k = none) : (insert rank k x t).1.length = t.length + 1 := by
  simp [insert, hk]

variable [LawfulBEq K]

theorem lookup_eq_none_iff : t.lookup k = none ↔ ∀ x, (k, x) ∉ t := by
  rw [List.lookup_eq_none_iff]
  constructor
  · intro h x hmem
    simpa using h (k, x) hmem
  · rintro h ⟨k', x⟩ hmem
    rw [bne_iff_ne]
    rintro rfl
    exact h x hmem

theorem mem_of_lookup (h : t.lookup k = some x) : (k, x) ∈ t := by
  induction t with
  | nil => simp at h
  | cons p t ih =>
    obtain ⟨k', y⟩ := p
    rw [List.lookup_cons] at h
    cases hk : k == k' with
    | true =>
      obtain rfl := eq_of_beq hk
      simp_all
    | false =>
      rw [hk] at h
      exact List.mem_cons_of_mem _ (ih h)

theorem Sorted.mem_iff (h : Sorted rank t) : (k, x) ∈ t ↔ t.lookup k = some x := by
  constructor
  · intro hmem
    cases hlookup : t.lookup k with
    | none => exact absurd hmem (lookup_eq_none_iff.1 hlookup x)
    | some y => rw [h.unique hmem (mem_of_lookup hlookup)]
  · exact mem_of_lookup

theorem Sorted.insert (hrank : Function.Injective rank) (h : Sorted rank t) (k : K) (x : V) :
    Sorted rank (insert rank k x t).1 := by
  unfold SearchTree.insert
  split
  · exact h
  · rename_i hk
    rw [Bool.not_eq_true, Option.isSome_eq_false_iff, Option.isNone_iff_eq_none] at hk
    exact h.place hrank (lookup_eq_none_iff.1 hk)

end Keys

section Values

variable [DecidableEq V]

@[simp] theorem mem_remove : p ∈ remove x t ↔ p ∈ t ∧ p.2 ≠ x := by simp [remove]

theorem Ascending.remove (h : Ascending rank t) (x : V) : Ascending rank (remove x t) := h.filter _

theorem Sorted.remove (h : Sorted rank t) (x : V) : Sorted rank (remove x t) := h.filter _

/-- A value that occurs under one key only is removed once. -/
theorem Sorted.length_remove (h : Sorted rank t) (hx : (k, x) ∈ t) (hkey : ∀ k', (k', x) ∈ t → k' = k) :
    (SearchTree.remove x t).length + 1 = t.length := by
  induction t with
  | nil => simp at hx
  | cons p t ih =>
    obtain ⟨k', y⟩ := p
    unfold Sorted at h
    rw [List.pairwise_cons] at h
    by_cases hy : y = x
    · subst hy
      obtain rfl := hkey k' List.mem_cons_self
      have hall : SearchTree.remove y t = t := by
        refine List.filter_eq_self.2 fun q hq => ?_
        have hne : q.2 ≠ y := by
          rintro rfl
          have hlt := h.1 q hq
          rw [hkey q.1 (List.mem_cons_of_mem _ hq)] at hlt
          exact absurd hlt (Nat.lt_irrefl _)
        simpa using hne
      have hcons : SearchTree.remove y ((k', y) :: t) = SearchTree.remove y t := by simp [SearchTree.remove]
      rw [hcons, hall, List.length_cons]
    · have hmem : (k, x) ∈ t := by
        rcases List.mem_cons.1 hx with heq | hmem
        · exact absurd (Prod.ext_iff.1 heq).2.symm hy
        · exact hmem
      have hcons : SearchTree.remove x ((k', y) :: t) = (k', y) :: SearchTree.remove x t := by
        simp [SearchTree.remove, hy]
      have iht := ih h.2 hmem fun k'' hk'' => hkey k'' (List.mem_cons_of_mem _ hk'')
      rw [hcons, List.length_cons, List.length_cons, iht]

end Values

end SearchTree
