import Mathlib.Logic.Basic

/-!
# Guarded runs

A system takes steps that can fault, `step : σ → μ → Option σ`.  A run is guarded when every step passes a test on the
state before it.  If guarded steps keep a relation to an abstract system, guarded runs do not fault and keep it too
(`guarded_simulates`).  Where the test is a proposition, the states of all guarded runs are those that are `Reached`.
-/

namespace Simulation

variable {σ μ γ : Type}

/-- Every step of a run passes the test when its turn comes. -/
def guarded (step : σ → μ → Option σ) (ok : σ → μ → Bool) : σ → List μ → Bool
  | _, [] => true
  | s, m :: ms => ok s m && (step s m).all fun s' => guarded step ok s' ms

variable {step : σ → μ → Option σ} {ok : σ → μ → Bool} {f : γ → μ → γ} {R : γ → σ → Prop}

theorem guarded_simulates (hstep : ∀ G s m, R G s → ok s m = true → ∃ s', step s m = some s' ∧ R (f G m) s') {G : γ}
    {s : σ} (hR : R G s) (ms : List μ) (hms : guarded step ok s ms = true) :
    ∃ s', ms.foldlM step s = some s' ∧ R (ms.foldl f G) s' := by
  induction ms generalizing G s with
  | nil => exact ⟨s, rfl, hR⟩
  | cons m ms ih =>
    rw [guarded, Bool.and_eq_true] at hms
    obtain ⟨s', hs', hR'⟩ := hstep G s m hR hms.1
    rw [hs', Option.all_some] at hms
    obtain ⟨s'', hs'', hR''⟩ := ih hR' hms.2
    refine ⟨s'', ?_, hR''⟩
    rw [List.foldlM_cons, hs']
    exact hs''

/-- If a step that does not pass the test leads to a fault in the next step, and fails a property that the other steps
have, then the runs whose last step has the property are the guarded ones. -/
theorem guarded_iff {Q : μ → σ → Prop}
    (hstep : ∀ G s m, R G s → ok s m = true → ∃ s', step s m = some s' ∧ R (f G m) s' ∧ Q m s')
    (hbad : ∀ G s m, R G s → ok s m = false → ∀ s', step s m = some s' → ¬ Q m s' ∧ ∀ m', step s' m' = none)
    {G : γ} {s : σ} (hR : R G s) (ms : List μ) (m : μ) :
    (∃ s', (ms ++ [m]).foldlM step s = some s' ∧ Q m s') ↔ guarded step ok s (ms ++ [m]) = true := by
  induction ms generalizing G s with
  | nil =>
    rw [List.nil_append, guarded, List.foldlM_cons]
    cases hok : ok s m with
    | true =>
      obtain ⟨s', hs', -, hQ⟩ := hstep G s m hR hok
      rw [hs', Option.all_some]
      exact iff_of_true ⟨s', rfl, hQ⟩ rfl
    | false =>
      refine iff_of_false ?_ Bool.false_ne_true
      rintro ⟨s', hs', hQ⟩
      obtain ⟨s'', hs'', hrun⟩ := Option.bind_eq_some_iff.1 hs'
      cases hrun
      exact (hbad G s m hR hok _ hs'').1 hQ
  | cons m' ms ih =>
    rw [List.cons_append, guarded, List.foldlM_cons]
    cases hok : ok s m' with
    | true =>
      obtain ⟨s', hs', hR', -⟩ := hstep G s m' hR hok
      rw [hs', Option.all_some]
      exact ih hR'
    | false =>
      refine iff_of_false ?_ Bool.false_ne_true
      rintro ⟨s', hs', -⟩
      obtain ⟨s'', hs'', hrun⟩ := Option.bind_eq_some_iff.1 hs'
      have hnone := (hbad G s m' hR hok _ hs'').2
      cases ms with
      | nil =>
        rw [List.nil_append, List.foldlM_cons, hnone] at hrun
        cases hrun
      | cons m'' ms =>
        rw [List.cons_append, List.foldlM_cons, hnone] at hrun
        cases hrun

/-- An invariant is a relation to a system with one state. -/
theorem guarded_invariant {P : σ → Prop} (hstep : ∀ s m, P s → ok s m = true → ∃ s', step s m = some s' ∧ P s') {s : σ}
    (hs : P s) (ms : List μ) (hms : guarded step ok s ms = true) : ∃ s', ms.foldlM step s = some s' ∧ P s' :=
  guarded_simulates (f := fun (_ : Unit) _ => ()) (R := fun _ => P) (fun _ => hstep) (G := ()) hs ms hms

/-- An invariant of steps that cannot fault. -/
theorem guarded_foldl {f : σ → μ → σ} {P : σ → Prop} (hstep : ∀ s m, P s → ok s m = true → P (f s m)) {s : σ}
    (hs : P s) (ms : List μ) (hms : guarded (fun s m => some (f s m)) ok s ms = true) : P (ms.foldl f s) := by
  induction ms generalizing s with
  | nil => exact hs
  | cons m ms ih =>
    rw [guarded, Bool.and_eq_true] at hms
    exact ih (hstep s m hs hms.1) hms.2

/-- Two tests of the steps are one. -/
theorem guarded_and {ok' : σ → μ → Bool} {s : σ} {ms : List μ} (h : guarded step ok s ms = true)
    (h' : guarded step ok' s ms = true) : guarded step (fun s m => ok s m && ok' s m) s ms = true := by
  induction ms generalizing s with
  | nil => rfl
  | cons m ms ih =>
    rw [guarded, Bool.and_eq_true] at h h' ⊢
    refine ⟨Bool.and_eq_true_iff.2 ⟨h.1, h'.1⟩, ?_⟩
    cases hs : step s m with
    | none => rfl
    | some s' =>
      rw [hs] at h h'
      exact ih h.2 h'.2

/-- A run of steps that pass the test in every state. -/
theorem guarded_of_forall {ms : List μ} (h : ∀ m ∈ ms, ∀ s, ok s m = true) (s : σ) : guarded step ok s ms = true := by
  induction ms generalizing s with
  | nil => rfl
  | cons m ms ih =>
    rw [guarded, h m List.mem_cons_self s, Bool.true_and]
    cases step s m with
    | none => rfl
    | some s' => exact ih (fun m' hm' => h m' (List.mem_cons_of_mem _ hm')) s'

theorem guarded_append {s : σ} {ms ms' : List μ} (h : guarded step ok s (ms ++ ms') = true) :
    guarded step ok s ms = true := by
  induction ms generalizing s with
  | nil => rfl
  | cons m ms ih =>
    rw [List.cons_append, guarded, Bool.and_eq_true] at h
    rw [guarded, Bool.and_eq_true]
    refine ⟨h.1, ?_⟩
    cases hs : step s m with
    | none => rfl
    | some s' =>
      rw [hs] at h
      exact ih h.2

/-- The rest of a guarded run is guarded. -/
theorem guarded_of_append {s s' : σ} {ms ms' : List μ} (h : guarded step ok s (ms ++ ms') = true)
    (hrun : ms.foldlM step s = some s') : guarded step ok s' ms' = true := by
  induction ms generalizing s with
  | nil =>
    cases hrun
    exact h
  | cons m ms ih =>
    rw [List.cons_append, guarded, Bool.and_eq_true] at h
    obtain ⟨t, ht, hrun⟩ := Option.bind_eq_some_iff.1 hrun
    rw [ht] at h
    exact ih h.2 hrun

/-! ### Reached states -/

/-- The states reached from `s₀` in steps that pass the test. -/
inductive Reached (step : σ → μ → Option σ) (ok : σ → μ → Prop) (s₀ : σ) : σ → Prop
  | start : Reached step ok s₀ s₀
  | next {s s' : σ} {m : μ} (h : Reached step ok s₀ s) (hm : ok s m) (hs : step s m = some s') : Reached step ok s₀ s'

/-- What holds at the start and is kept by the steps that pass the test holds in every state reached. -/
theorem Reached.invariant {ok : σ → μ → Prop} {P : σ → Prop} {s₀ s : σ} (hstart : P s₀)
    (hstep : ∀ s m s', P s → ok s m → step s m = some s' → P s') (h : Reached step ok s₀ s) : P s := by
  induction h with
  | start => exact hstart
  | next _ hm hs ih => exact hstep _ _ _ ih hm hs

/-- A guarded run leads to a state that is reached. -/
theorem Reached.of_guarded {ok' : σ → μ → Prop} (hok : ∀ s m, ok s m = true → ok' s m) {s₀ s s' : σ}
    (h : Reached step ok' s₀ s) {ms : List μ} (hms : guarded step ok s ms = true) (hrun : ms.foldlM step s = some s') :
    Reached step ok' s₀ s' := by
  induction ms generalizing s with
  | nil =>
    cases hrun
    exact h
  | cons m ms ih =>
    rw [guarded, Bool.and_eq_true] at hms
    obtain ⟨t, ht, hrun⟩ := Option.bind_eq_some_iff.1 hrun
    rw [ht, Option.all_some] at hms
    exact ih (h.next (hok s m hms.1) ht) hms.2 hrun

end Simulation
