import Mathlib.Logic.Function.Basic

/-!
# Pointers to opposites

Objects with names, of which some are opposite to each other (the two directions of an edge, say), where every object
has a pointer to the object with the opposite name, if there is one.  The pointers stay right when an object comes and
both ends of the new pair are set, and when an object goes and the pointer of its opposite is cleared.
-/

namespace Opposites

variable {O N : Type} [DecidableEq O] {opp : N → N}

/-- The pointers are right: `ptr o` is the pointer of the object `o`, and `name o` its name. -/
def Paired (opp : N → N) (ptr : O → Option (Option O)) (name : O → Option N) : Prop :=
  ∀ o i n, ptr o = some i → name o = some n → ∀ o', i = some o' ↔ name o' = some (opp n)

/-- Different objects have different names. -/
def Injective (name : O → Option N) : Prop := ∀ o o' n, name o = some n → name o' = some n → o = o'

variable {ptr : O → Option (Option O)} {name : O → Option N} {o : O} {n : N}

/-- The pointers of the objects that are not opposite to a new one stay right. -/
theorem Paired.other (h : Paired opp ptr name) (hnew : name o = none) {o₁ : O} {i : Option O} {n₁ : N}
    (hptr : ptr o₁ = some i) (hname : name o₁ = some n₁) (hne : opp n₁ ≠ n) (o' : O) :
    i = some o' ↔ Function.update name o (some n) o' = some (opp n₁) := by
  rw [h o₁ i n₁ hptr hname]
  by_cases ho : o' = o
  · subst ho
    simp [hnew, hne.symm]
  · simp [ho]

/-- An object comes that has no opposite. -/
theorem Paired.add (h : Paired opp ptr name) (hopp : ∀ n, opp (opp n) = n) (hnew : name o = none)
    (halone : ∀ o', Function.update name o (some n) o' ≠ some (opp n)) :
    Paired opp (Function.update ptr o (some none)) (Function.update name o (some n)) := by
  intro o₁ i n₁ hptr hname o'
  by_cases ho : o₁ = o
  · subst ho
    simp only [Function.update_self, Option.some.injEq] at hptr hname
    subst hptr hname
    exact iff_of_false (by simp) (halone o')
  · rw [Function.update_of_ne ho] at hptr
    have hname' : name o₁ = some n₁ := by rwa [Function.update_of_ne ho] at hname
    refine h.other hnew hptr hname' (fun heq => ?_) o'
    subst heq
    exact halone o₁ (by rw [hname, hopp])

/-- An object comes whose opposite is `inv`. -/
theorem Paired.connect (h : Paired opp ptr name) (hopp : ∀ n, opp (opp n) = n) (hnew : name o = none)
    (hinj : Injective (Function.update name o (some n))) {inv : O}
    (hinv : Function.update name o (some n) inv = some (opp n)) :
    Paired opp (Function.update (Function.update ptr inv (some (some o))) o (some (some inv)))
      (Function.update name o (some n)) := by
  have hself : Function.update name o (some n) o = some n := Function.update_self ..
  intro o₁ i n₁ hptr hname o'
  by_cases ho : o₁ = o
  · subst ho
    simp only [Function.update_self, Option.some.injEq] at hptr hname
    subst hptr hname
    rw [Option.some.injEq]
    constructor
    · rintro rfl
      exact hinv
    · exact fun ho' => hinj inv o' _ hinv ho'
  · rw [Function.update_of_ne ho] at hptr
    by_cases hi : o₁ = inv
    · subst hi
      simp only [Function.update_self, Option.some.injEq] at hptr
      subst hptr
      obtain rfl : opp n = n₁ := Option.some_inj.1 (hinv.symm.trans hname)
      rw [Option.some.injEq, hopp]
      constructor
      · rintro rfl
        exact hself
      · exact fun ho' => hinj o o' _ hself ho'
    · rw [Function.update_of_ne hi] at hptr
      have hname' : name o₁ = some n₁ := by rwa [Function.update_of_ne ho] at hname
      refine h.other hnew hptr hname' (fun heq => hi ?_) o'
      subst heq
      exact hinj o₁ inv _ hname (by rw [hinv, hopp])

/-- The pointer of the opposite, if there is one, is cleared. -/
def clear (ptr : O → Option (Option O)) : Option O → O → Option (Option O)
  | none => ptr
  | some inv => Function.update ptr inv (some none)

/-- An object goes. -/
theorem Paired.remove (h : Paired opp ptr name) (hopp : ∀ n, opp (opp n) = n) (hinj : Injective name)
    {i : Option O} (hptr : ptr o = some i) (hname : name o = some n) :
    Paired opp (Function.update (clear ptr i) o none) (Function.update name o none) := by
  intro o₁ i₁ n₁ hptr₁ hname₁ o'
  by_cases ho : o₁ = o
  · subst ho
    simp at hname₁
  · rw [Function.update_of_ne ho] at hptr₁ hname₁
    by_cases hn : opp n₁ = n
    · -- the opposite of the object that goes
      have hi : i = some o₁ := (h o i n hptr hname o₁).2 (by rw [hname₁, ← hn, hopp])
      subst hi
      simp only [clear, Function.update_self, Option.some.injEq] at hptr₁
      subst hptr₁
      refine iff_of_false (by simp) fun ho' => ?_
      by_cases hoo : o' = o
      · subst hoo
        simp at ho'
      · rw [Function.update_of_ne hoo, hn] at ho'
        exact hoo (hinj o' o n ho' hname)
    · have hptr' : ptr o₁ = some i₁ := by
        cases i with
        | none => exact hptr₁
        | some inv =>
          have hinv := (h o (some inv) n hptr hname inv).1 rfl
          have hne : o₁ ≠ inv := by
            rintro rfl
            obtain rfl : opp n = n₁ := Option.some_inj.1 (hinv.symm.trans hname₁)
            exact hn (hopp n)
          simpa [clear, hne] using hptr₁
      rw [h o₁ i₁ n₁ hptr' hname₁]
      by_cases hoo : o' = o
      · subst hoo
        simp [hname, Ne.symm hn]
      · simp [hoo]

end Opposites
