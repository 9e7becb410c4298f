import Mathlib.Data.List.Forall2
import Mathlib.Logic.Function.Basic

/-!
# Loops that can fault

A loop body that can fault is a function into `Option`; the loop is `List.foldlM` or `List.mapM`.  The rules below
show that a loop runs to its end, from a fact about one execution of its body.
-/

namespace Fault

variable {σ α β : Type*}

/-- A step that does not fault hands on its result. -/
theorem bind_of_some {α β : Type} {o : Option α} {a : α} (h : o = some a) (f : α → Option β) : (o >>= f) = f a := by
  rw [h]
  rfl

/-- The invariant rule: `P done s` holds before each iteration, `done` being the elements already visited. -/
theorem foldlM_invariant {f : σ → α → Option σ} (P : List α → σ → Prop) {l : List α} {s : σ} (h0 : P [] s)
    (step : ∀ done a rest s, l = done ++ a :: rest → P done s → ∃ s', f s a = some s' ∧ P (done ++ [a]) s') :
    ∃ s', l.foldlM f s = some s' ∧ P l s' := by
  suffices h : ∀ rest done s, l = done ++ rest → P done s → ∃ s', rest.foldlM f s = some s' ∧ P l s' from
    h l [] s rfl h0
  intro rest
  induction rest with
  | nil =>
    intro done s hl hs
    rw [List.append_nil] at hl
    exact ⟨s, rfl, hl ▸ hs⟩
  | cons a rest ih =>
    intro done s hl hs
    obtain ⟨s', hs', hP⟩ := step done a rest s hl hs
    obtain ⟨s'', hs'', hP'⟩ := ih (done ++ [a]) s' (by simp [hl]) hP
    exact ⟨s'', by rw [List.foldlM_cons, hs']; exact hs'', hP'⟩

/-- A property that every iteration keeps is kept by a loop that returns. -/
theorem foldlM_keeps {f : σ → α → Option σ} {P : σ → Prop} (hstep : ∀ s a s', P s → f s a = some s' → P s')
    {l : List α} {s s' : σ} (hs : P s) (hrun : l.foldlM f s = some s') : P s' := by
  induction l generalizing s with
  | nil =>
    cases hrun
    exact hs
  | cons a l ih =>
    rw [List.foldlM_cons] at hrun
    obtain ⟨s₁, hs₁, hrun⟩ := Option.bind_eq_some_iff.1 hrun
    exact ih (hstep s a s₁ hs hs₁) hrun

/-- Every element of the list is transformed without a fault. -/
theorem mapM_forall₂ {f : α → Option β} {Q : α → β → Prop} {l : List α}
    (h : ∀ a ∈ l, ∃ b, f a = some b ∧ Q a b) : ∃ l', l.mapM f = some l' ∧ List.Forall₂ Q l l' := by
  induction l with
  | nil => exact ⟨[], rfl, .nil⟩
  | cons a l ih =>
    obtain ⟨b, hb, hQ⟩ := h a (List.mem_cons_self ..)
    obtain ⟨l', hl', hQ'⟩ := ih fun x hx => h x (List.mem_cons_of_mem _ hx)
    exact ⟨b :: l', by simp [List.mapM_cons, hb, hl'], .cons hQ hQ'⟩

/-- A fault of one element is a fault of the loop. -/
theorem mapM_eq_none {f : α → Option β} {l : List α} {a : α} (ha : a ∈ l) (hf : f a = none) : l.mapM f = none := by
  induction l with
  | nil => exact absurd ha List.not_mem_nil
  | cons b l ih =>
    rw [List.mapM_cons]
    rcases List.mem_cons.1 ha with rfl | h
    · rw [hf]; rfl
    · rw [ih h]
      cases f b <;> rfl

/-- A loop over the indices of a list that yields its elements. -/
theorem mapM_range_eq {f : ℕ → Option α} {xs : List α} (h : ∀ j (hj : j < xs.length), f j = some xs[j]) :
    (List.range xs.length).mapM f = some xs := by
  induction xs generalizing f with
  | nil => rfl
  | cons x xs ih =>
    have hx : f 0 = some x := h 0 (by simp)
    have hxs : (List.range xs.length).mapM (f ∘ Nat.succ) = some xs :=
      ih fun j hj => h (j + 1) (by simpa using hj)
    rw [List.length_cons, List.range_succ_eq_map, List.mapM_cons, hx, List.mapM_map, hxs]
    rfl

theorem forall_of_forall₂ {Q : α → β → Prop} {P : β → Prop} {l : List α} {l' : List β} (h : List.Forall₂ Q l l')
    (hP : ∀ a b, Q a b → P b) : ∀ b ∈ l', P b := by
  induction h with
  | nil => simp
  | cons hab _ ih => simpa [hP _ _ hab] using ih

theorem map_eq_of_forall₂ {γ : Type*} {Q : α → β → Prop} {f : α → γ} {g : β → γ} {l : List α} {l' : List β}
    (h : List.Forall₂ Q l l') (hfg : ∀ a b, Q a b → g b = f a) : l'.map g = l.map f := by
  induction h with
  | nil => rfl
  | cons hab _ ih => rw [List.map_cons, List.map_cons, hfg _ _ hab, ih]

/-! ### Two programs that fault together -/

/-- Two programs go on from related results. -/
theorem rel_bind {α β : Type} {γ δ : Type*} {R : α → β → Prop} {S : γ → δ → Prop} {o : Option α} {o' : Option β}
    {f : α → Option γ} {f' : β → Option δ} (h : Option.Rel R o o') (hf : ∀ a b, R a b → Option.Rel S (f a) (f' b)) :
    Option.Rel S (o.bind f) (o'.bind f') := by
  cases h with
  | none => exact .none
  | some hab => exact hf _ _ hab

/-- Two programs go on from the same result. -/
theorem rel_bind_same {α : Type} {γ δ : Type*} {S : γ → δ → Prop} {o : Option α} {f : α → Option γ} {f' : α → Option δ}
    (hf : ∀ a, o = some a → Option.Rel S (f a) (f' a)) : Option.Rel S (o.bind f) (o.bind f') := by
  cases ho : o with
  | none => exact .none
  | some a => exact hf a ho

theorem rel_some_right {α β : Type*} {R : α → β → Prop} {o : Option α} {b : β} (h : Option.Rel R o (some b)) :
    ∃ a, o = some a ∧ R a b := by
  cases h with
  | some hab => exact ⟨_, rfl, hab⟩

/-- Loops whose bodies keep a relation. -/
theorem rel_foldlM {τ : Type*} {R : σ → τ → Prop} {f : σ → α → Option σ} {g : τ → α → Option τ}
    (hstep : ∀ s t a, R s t → Option.Rel R (f s a) (g t a)) (l : List α) {s : σ} {t : τ} (h : R s t) :
    Option.Rel R (l.foldlM f s) (l.foldlM g t) := by
  induction l generalizing s t with
  | nil => exact .some h
  | cons a l ih =>
    rw [List.foldlM_cons, List.foldlM_cons]
    have hfirst := hstep s t a h
    cases hs : f s a with
    | none =>
      rw [hs] at hfirst
      cases hfirst' : g t a with
      | none => exact .none
      | some t' =>
        rw [hfirst'] at hfirst
        cases hfirst
    | some s' =>
      rw [hs] at hfirst
      cases hfirst' : g t a with
      | none =>
        rw [hfirst'] at hfirst
        cases hfirst
      | some t' =>
        rw [hfirst'] at hfirst
        cases hfirst with
        | some h' => exact ih h'

/-! ### Loops that write one entry in each round -/

section Entries

variable {κ : Type*} [DecidableEq κ] {name : α → κ} {val : α → β} {l : List α}

theorem foldl_update_of_notMem (f : κ → β) {k : κ} (hk : ∀ x ∈ l, name x ≠ k) :
    l.foldl (fun f x => Function.update f (name x) (val x)) f k = f k := by
  induction l generalizing f with
  | nil => rfl
  | cons x l ih =>
    rw [List.foldl_cons, ih _ fun y hy => hk y (List.mem_cons_of_mem _ hy)]
    exact Function.update_of_ne (hk x List.mem_cons_self).symm _ _

theorem foldl_update_of_mem (hinj : ∀ x ∈ l, ∀ y ∈ l, name x = name y → x = y) (f : κ → β) {x : α} (hx : x ∈ l) :
    l.foldl (fun f x => Function.update f (name x) (val x)) f (name x) = val x := by
  induction l generalizing f with
  | nil => exact (List.not_mem_nil hx).elim
  | cons y l ih =>
    rw [List.foldl_cons]
    by_cases hmem : x ∈ l
    · exact ih (fun z hz z' hz' => hinj z (List.mem_cons_of_mem _ hz) z' (List.mem_cons_of_mem _ hz')) _ hmem
    · have hxy : x = y := (List.mem_cons.1 hx).resolve_right hmem
      subst hxy
      rw [foldl_update_of_notMem, Function.update_self]
      intro z hz hzx
      exact hmem (hinj z (List.mem_cons_of_mem _ hz) x hx hzx ▸ hz)

end Entries

end Fault
