import Mathlib.Data.Finset.Card

/-!
# Peeling

An unknown of type `α` takes part in one check for every index `i : ι`, namely in the check `bin i x`.  Peeling a
finite set of unknowns removes, one at a time, an unknown that is alone in some check.  A non-empty set with no
unknown alone in a check is a stopping set: it survives every run, and a set without stopping subsets is peeled
completely.
-/

namespace Peeling

variable {ι α β : Type*} (bin : ι → α → β) (I : List ι)

/-- The unknown `x` is alone in its check of index `i`. -/
def Alone (R : Finset α) (i : ι) (x : α) : Prop :=
  x ∈ R ∧ ∀ y ∈ R, bin i y = bin i x → y = x

/-- A non-empty set of unknowns, none of which is alone in a check. -/
def Stopping (S : Finset α) : Prop :=
  S.Nonempty ∧ ∀ i ∈ I, ∀ x ∈ S, ∃ y ∈ S, y ≠ x ∧ bin i y = bin i x

/-- No stopping set is contained in `R`. -/
def Peelable (R : Finset α) : Prop :=
  ∀ S ⊆ R, ¬ Stopping bin I S

variable {bin I}

theorem Peelable.mono {R R' : Finset α} (h : Peelable bin I R) (hs : R' ⊆ R) : Peelable bin I R' :=
  fun S hS => h S (hS.trans hs)

theorem Peelable.exists_alone {R : Finset α} (h : Peelable bin I R) (hR : R.Nonempty) :
    ∃ i ∈ I, ∃ x, Alone bin R i x := by
  by_contra hno
  push Not at hno
  refine h R subset_rfl ⟨hR, fun i hi x hx => ?_⟩
  have := hno i hi x
  unfold Alone at this
  push Not at this
  obtain ⟨y, hy, hxy, hne⟩ := this hx
  exact ⟨y, hy, hne, hxy⟩

section Erase

variable [DecidableEq α]

/-- A stopping set survives the removal of an unknown that is alone. -/
theorem Stopping.subset_erase {R S : Finset α} (h : Stopping bin I S) (hS : S ⊆ R) {i : ι} (hi : i ∈ I) {x : α}
    (hx : Alone bin R i x) : S ⊆ R.erase x := by
  intro y hy
  refine Finset.mem_erase.2 ⟨?_, hS hy⟩
  rintro rfl
  obtain ⟨z, hz, hne, hbin⟩ := h.2 i hi y hy
  exact hne (hx.2 z (hS hz) hbin)

/-- Removing an unknown that is alone neither adds nor removes a stopping subset. -/
theorem Alone.peelable_erase_iff {R : Finset α} {i : ι} (hi : i ∈ I) {x : α} (hx : Alone bin R i x) :
    Peelable bin I (R.erase x) ↔ Peelable bin I R := by
  constructor
  · intro h S hS hstop
    exact h S (hstop.subset_erase hS hi hx) hstop
  · exact fun h => h.mono (Finset.erase_subset x R)

end Erase

theorem peelable_empty : Peelable bin I (∅ : Finset α) := by
  intro S hS hstop
  obtain ⟨x, hx⟩ := hstop.1
  exact absurd (hS hx) (Finset.notMem_empty x)

end Peeling
