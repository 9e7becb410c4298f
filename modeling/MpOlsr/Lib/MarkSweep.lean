import Mathlib.Data.List.Nodup

/-!
# Mark and sweep

A list of keys, each with a mark.  A round resets the marks, touches some keys, which marks a key or adds it at the
front, and keeps what is marked.  After a round the keys are those that were touched (`mem_renew`), and a round that
touches the same keys again changes nothing (`touch_all_of_mem`).
-/

namespace MarkSweep

variable {α : Type*} [DecidableEq α]

omit [DecidableEq α] in
/-- The keys, in order. -/
def keys (l : List (α × Bool)) : List α := l.map Prod.fst

/-- Mark a key, and add it at the front if it is new. -/
def touch (l : List (α × Bool)) (a : α) : List (α × Bool) :=
  if a ∈ keys l then l.map fun e => if e.1 = a then (a, true) else e else (a, true) :: l

omit [DecidableEq α] in
def reset (l : List (α × Bool)) : List (α × Bool) := l.map fun e => (e.1, false)

omit [DecidableEq α] in
def sweep (l : List (α × Bool)) : List (α × Bool) := l.filter Prod.snd

/-- One round. -/
def renew (l : List (α × Bool)) (xs : List α) : List (α × Bool) := sweep (xs.foldl touch (reset l))

/-- The keys that are new as they are touched one after the other. -/
def newcomers (l : List (α × Bool)) : List α → List α
  | [] => []
  | a :: as => if a ∈ keys l then newcomers (touch l a) as else a :: newcomers (touch l a) as

variable {l : List (α × Bool)} {a x : α} {xs : List α}

omit [DecidableEq α] in
@[simp]
theorem keys_reset : keys (reset l) = keys l := by
  simp [keys, reset]

theorem keys_touch : keys (touch l a) = if a ∈ keys l then keys l else a :: keys l := by
  unfold touch
  split
  · rw [keys, keys, List.map_map]
    refine List.map_congr_left fun e _ => ?_
    by_cases he : e.1 = a <;> simp [he]
  · rfl

theorem mem_keys_touch : x ∈ keys (touch l a) ↔ x = a ∨ x ∈ keys l := by
  rw [keys_touch]
  split
  · next h => exact ⟨Or.inr, fun hx => hx.elim (fun hxa => hxa ▸ h) id⟩
  · exact List.mem_cons

theorem map_mark_of_notMem (h : a ∉ keys l) : (l.map fun e => if e.1 = a then (a, true) else e) = l := by
  refine (List.map_congr_left fun e he => ?_).trans (List.map_id l)
  apply if_neg
  rintro rfl
  exact h (List.mem_map_of_mem he)

/-- A new key that is not marked yet. -/
theorem touch_cons_false (h : a ∉ keys l) : touch ((a, false) :: l) a = touch l a := by
  have hmem : a ∈ keys ((a, false) :: l) := List.mem_cons_self
  rw [touch, if_pos hmem, List.map_cons, if_pos rfl, map_mark_of_notMem h, touch, if_neg h]

theorem touch_touch : touch (touch l a) a = touch l a := by
  rw [touch, if_pos (mem_keys_touch.2 (Or.inl rfl)), touch]
  split
  · rw [List.map_map]
    refine List.map_congr_left fun e _ => ?_
    by_cases he : e.1 = a <;> simp [he]
  · next ha => rw [List.map_cons, if_pos rfl, map_mark_of_notMem ha]

theorem newcomers_append (ys : List α) : newcomers l (xs ++ ys) = newcomers l xs ++ newcomers (xs.foldl touch l) ys := by
  induction xs generalizing l with
  | nil => rfl
  | cons a xs ih =>
    rw [List.cons_append, newcomers, newcomers, List.foldl_cons]
    split
    · exact ih
    · rw [ih, List.cons_append]

theorem nodup_touch (h : (keys l).Nodup) (a : α) : (keys (touch l a)).Nodup := by
  rw [keys_touch]
  split
  · exact h
  · next ha => exact List.nodup_cons.2 ⟨ha, h⟩

theorem marked_touch : (x, true) ∈ touch l a ↔ x = a ∨ (x, true) ∈ l := by
  unfold touch
  split
  · next ha =>
    simp only [List.mem_map]
    constructor
    · rintro ⟨e, he, heq⟩
      by_cases hea : e.1 = a
      · rw [if_pos hea] at heq
        exact Or.inl (congrArg Prod.fst heq).symm
      · rw [if_neg hea] at heq
        exact Or.inr (heq ▸ he)
    · rintro (rfl | hx)
      · obtain ⟨e, he, rfl⟩ := List.mem_map.1 ha
        exact ⟨e, he, if_pos rfl⟩
      · by_cases hxa : x = a
        · exact ⟨(x, true), hx, by simp [hxa]⟩
        · exact ⟨(x, true), hx, by simp [hxa]⟩
  · simp

theorem marked_foldl : (x, true) ∈ xs.foldl touch l ↔ x ∈ xs ∨ (x, true) ∈ l := by
  induction xs generalizing l with
  | nil => simp
  | cons a xs ih =>
    rw [List.foldl_cons, ih, marked_touch, List.mem_cons]
    tauto

theorem nodup_foldl (h : (keys l).Nodup) (xs : List α) : (keys (xs.foldl touch l)).Nodup := by
  induction xs generalizing l with
  | nil => exact h
  | cons a xs ih => exact ih (nodup_touch h a)

/-- The new keys come first, the last one at the front. -/
theorem keys_foldl (xs : List α) : keys (xs.foldl touch l) = (newcomers l xs).reverse ++ keys l := by
  induction xs generalizing l with
  | nil => rfl
  | cons a xs ih =>
    rw [List.foldl_cons, ih, newcomers, keys_touch]
    split
    · rfl
    · simp

theorem mem_newcomers : x ∈ newcomers l xs ↔ x ∈ xs ∧ x ∉ keys l := by
  induction xs generalizing l with
  | nil => simp [newcomers]
  | cons a xs ih =>
    rw [newcomers]
    split
    · next ha =>
      rw [ih, mem_keys_touch, List.mem_cons]
      by_cases hxa : x = a
      · subst hxa
        simp [ha]
      · simp [hxa]
    · next ha =>
      rw [List.mem_cons, ih, mem_keys_touch, List.mem_cons]
      by_cases hxa : x = a
      · subst hxa
        simp [ha]
      · simp [hxa]

theorem nodup_newcomers : (newcomers l xs).Nodup := by
  induction xs generalizing l with
  | nil => exact List.nodup_nil
  | cons a xs ih =>
    rw [newcomers]
    split
    · exact ih
    · exact List.nodup_cons.2 ⟨fun ha => (mem_newcomers.1 ha).2 (mem_keys_touch.2 (Or.inl rfl)), ih⟩

theorem mem_keys_foldl : x ∈ keys (xs.foldl touch l) ↔ x ∈ xs ∨ x ∈ keys l := by
  induction xs generalizing l with
  | nil => simp
  | cons a xs ih =>
    rw [List.foldl_cons, ih, mem_keys_touch, List.mem_cons]
    tauto

/-- After the marking, a key is marked if it was touched. -/
theorem mark_iff (h : (keys l).Nodup) {b : Bool} (hx : (x, b) ∈ xs.foldl touch (reset l)) : b = true ↔ x ∈ xs := by
  have hmarked : (x, true) ∈ xs.foldl touch (reset l) ↔ x ∈ xs := by
    rw [marked_foldl]
    simp [reset]
  cases b with
  | true => exact iff_of_true rfl (hmarked.1 hx)
  | false =>
    refine iff_of_false Bool.false_ne_true fun hmem => ?_
    have hnodup : (keys (xs.foldl touch (reset l))).Nodup := nodup_foldl (keys_reset (l := l) ▸ h) xs
    have := List.inj_on_of_nodup_map hnodup hx (hmarked.2 hmem) rfl
    cases this

theorem unmarked_foldl (h : (keys l).Nodup) : (x, false) ∈ xs.foldl touch (reset l) ↔ x ∈ keys l ∧ x ∉ xs := by
  constructor
  · intro hx
    have hnot : x ∉ xs := fun hmem => Bool.false_ne_true ((mark_iff h hx).2 hmem)
    have hmem : x ∈ keys (xs.foldl touch (reset l)) := List.mem_map_of_mem hx
    rw [mem_keys_foldl, keys_reset] at hmem
    exact ⟨hmem.resolve_left hnot, hnot⟩
  · rintro ⟨hmem, hnot⟩
    have hkey : x ∈ keys (xs.foldl touch (reset l)) := mem_keys_foldl.2 (Or.inr (keys_reset (l := l) ▸ hmem))
    obtain ⟨⟨y, b⟩, he, rfl⟩ := List.mem_map.1 hkey
    have hb : b = false := Bool.eq_false_iff.2 fun hb => hnot ((mark_iff h he).1 hb)
    exact hb ▸ he

omit [DecidableEq α] in
theorem mem_keys_sweep : x ∈ keys (sweep l) ↔ (x, true) ∈ l := by
  simp [keys, sweep]

/-- After a round, the keys are those that were touched. -/
theorem mem_renew : x ∈ keys (renew l xs) ↔ x ∈ xs := by
  rw [renew, mem_keys_sweep, marked_foldl]
  simp [reset]

theorem nodup_renew (h : (keys l).Nodup) (xs : List α) : (keys (renew l xs)).Nodup := by
  have hfold : (keys (xs.foldl touch (reset l))).Nodup := nodup_foldl (keys_reset (l := l) ▸ h) xs
  exact hfold.sublist (List.filter_sublist.map _)

/-- Keys that are there are only marked. -/
theorem touch_all_of_mem (h : ∀ a ∈ xs, a ∈ keys l) :
    xs.foldl touch l = l.map fun e => if e.1 ∈ xs then (e.1, true) else e := by
  induction xs generalizing l with
  | nil => simp
  | cons a xs ih =>
    rw [List.foldl_cons, ih fun b hb => mem_keys_touch.2 (Or.inr (h b (List.mem_cons_of_mem _ hb))), touch,
      if_pos (h a List.mem_cons_self), List.map_map]
    refine List.map_congr_left fun e _ => ?_
    by_cases hea : e.1 = a
    · subst hea
      simp
    · by_cases hx : e.1 ∈ xs <;> simp [hea, hx]

omit [DecidableEq α] in
theorem marked_of_mem_sweep {e : α × Bool} (h : e ∈ sweep l) : e.2 = true := (List.mem_filter.1 h).2

/-- Touching the keys again gives back the marks. -/
theorem remark (hl : ∀ e ∈ l, e.2 = true) (h : ∀ a, a ∈ xs ↔ a ∈ keys l) : xs.foldl touch (reset l) = l := by
  rw [touch_all_of_mem fun a ha => keys_reset (l := l) ▸ (h a).1 ha, reset, List.map_map]
  refine (List.map_congr_left fun e he => ?_).trans (List.map_id l)
  have hmem : e.1 ∈ xs := (h e.1).2 (List.mem_map_of_mem he)
  rw [Function.comp_apply, if_pos hmem]
  exact Prod.ext rfl (hl e he).symm

end MarkSweep
