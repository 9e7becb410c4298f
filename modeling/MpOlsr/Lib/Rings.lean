import MpOlsr.Lib.CellPrograms

/-!
# Rings of cells

Cells with one link, in memory, that are threaded on rings: the last cell of a ring leads back to the first one.  The
programs insert a cell behind the first one, cut a ring into a list, and free the cells of a list; an access to a cell
that is not in memory is a fault (`none`).  `IsRing m head xs` says that the ring from `head` on has the cells `xs`,
in this order.
-/

namespace Ring

open DoublyLinked

variable {α β : Type} [DecidableEq α]

structure Cell (α β : Type) where
  data : β
  next : Option α

/-- The cells in memory. -/
abbrev Cells (α β : Type) := α → Option (Cell α β)

/-! ### Programs -/

omit [DecidableEq α] in
def getNext (m : Cells α β) (x : α) : Option (Option α) := (m x).map Cell.next

def setNext (m : Cells α β) (x : α) (y : Option α) : Option (Cells α β) :=
  (m x).map fun c => Function.update m x (some { c with next := y })

def free (m : Cells α β) (x : α) : Option (Cells α β) := (m x).map fun _ => Function.update m x none

/-- Insert a cell behind the first one, or on a ring of its own; with the first cell of the ring. -/
def insert (m : Cells α β) (x : α) : Option α → Option (Cells α β × Option α)
  | none => do
    let m ← setNext m x (some x)
    return (m, some x)
  | some first => do
    let after ← getNext m first
    let m ← setNext m x after
    let m ← setNext m first (some x)
    return (m, some first)

/-- The cell before the first one loses its link. -/
def cutStep (first : Option α) (m : Cells α β) (x : α) : Option (Cells α β × Option α) := do
  let next ← getNext m x
  let m ← if next = first then setNext m x none else some m
  let next ← getNext m x
  return (m, next)

/-- Cut the ring, in at most `n` steps. -/
def cut (n : ℕ) (m : Cells α β) (first : Option α) : Option (Cells α β) := walk (cutStep first) n m first

/-- Free a cell and go on to the next one; with the cells freed so far. -/
def freeStep (s : Cells α β × List α) (x : α) : Option ((Cells α β × List α) × Option α) := do
  let next ← getNext s.1 x
  let m ← free s.1 x
  return ((m, s.2 ++ [x]), next)

/-- Free the cells from `first` on, in at most `n` steps. -/
def freeAll (n : ℕ) (s : Cells α β × List α) (first : Option α) : Option (Cells α β × List α) :=
  walk freeStep n s first

/-- Cut the ring from `first` on and free its cells. -/
def release (n : ℕ) (s : Cells α β × List α) (first : Option α) : Option (Cells α β × List α) := do
  let m ← cut n s.1 first
  freeAll n (m, s.2) first

/-! ### Lists and rings -/

/-- The links lead through the cells of a list, and from the last one to `stop`. -/
def Leads (m : Cells α β) (stop : Option α) : List α → Prop
  | [] => True
  | x :: xs => getNext m x = some (xs.head?.or stop) ∧ Leads m stop xs

structure IsRing (m : Cells α β) (first : Option α) (xs : List α) : Prop where
  nodup : xs.Nodup
  first_eq : first = xs.head?
  leads : Leads m xs.head? xs

variable {m m' : Cells α β} {stop first : Option α} {x : α} {xs ys : List α}

omit [DecidableEq α] in
theorem Leads.congr (h : Leads m stop xs) (hm : ∀ y ∈ xs, getNext m' y = getNext m y) : Leads m' stop xs := by
  induction xs with
  | nil => trivial
  | cons x xs ih =>
    refine ⟨?_, ih h.2 fun y hy => hm y (List.mem_cons_of_mem _ hy)⟩
    rw [hm x List.mem_cons_self]
    exact h.1

omit [DecidableEq α] in
theorem Leads.mem (h : Leads m stop xs) (hx : x ∈ xs) : (m x).isSome := by
  induction xs with
  | nil => exact (List.not_mem_nil hx).elim
  | cons y xs ih =>
    rcases List.mem_cons.1 hx with rfl | hx
    · obtain ⟨c, hc, -⟩ := Option.map_eq_some_iff.1 h.1
      rw [hc]
      rfl
    · exact ih h.2 hx

omit [DecidableEq α] in
theorem leads_append : Leads m stop (xs ++ ys) ↔ Leads m (ys.head?.or stop) xs ∧ Leads m stop ys := by
  induction xs with
  | nil => simp [Leads]
  | cons x xs ih =>
    rw [List.cons_append, Leads, Leads, ih, and_assoc, List.head?_append, Option.or_assoc]

omit [DecidableEq α] in
theorem IsRing.mem (h : IsRing m first xs) (hx : x ∈ xs) : (m x).isSome := h.leads.mem hx

omit [DecidableEq α] in
theorem isRing_nil : IsRing m none [] := ⟨List.nodup_nil, rfl, trivial⟩

omit [DecidableEq α] in
theorem IsRing.congr (h : IsRing m first xs) (hm : ∀ y ∈ xs, m' y = m y) : IsRing m' first xs :=
  ⟨h.nodup, h.first_eq, h.leads.congr fun y hy => by rw [getNext, hm y hy, getNext]⟩

omit [DecidableEq α] in
/-- The ring from the second cell on. -/
theorem IsRing.rotate (h : IsRing m first (x :: xs)) : ∃ y, getNext m x = some y ∧ IsRing m y (xs ++ [x]) := by
  refine ⟨_, h.leads.1, ?_, ?_, ?_⟩
  · exact (List.perm_append_singleton x xs).nodup_iff.2 h.nodup
  · rw [List.head?_append]
    rfl
  · have hnext := h.leads.1
    cases xs with
    | nil => exact h.leads
    | cons y xs => exact leads_append.2 ⟨h.leads.2, hnext, trivial⟩

theorem getNext_setNext {y : Option α} (hx : (m x).isSome) :
    ∃ m', setNext m x y = some m' ∧ getNext m' x = some y ∧ (∀ z, z ≠ x → m' z = m z) ∧
      ∀ z, (m' z).map Cell.data = (m z).map Cell.data := by
  obtain ⟨c, hc⟩ := Option.isSome_iff_exists.1 hx
  refine ⟨Function.update m x (some { c with next := y }), by rw [setNext, hc]; rfl, by simp [getNext], ?_, ?_⟩
  · intro z hz
    exact Function.update_of_ne hz _ _
  · intro z
    by_cases hz : z = x
    · subst hz
      simp [hc]
    · rw [Function.update_of_ne hz]

/-- The order of the cells after an insertion. -/
def insertSecond (x : α) : List α → List α
  | [] => [x]
  | y :: ys => y :: x :: ys

omit [DecidableEq α] in
theorem insertSecond_perm (x : α) (xs : List α) : (insertSecond x xs).Perm (x :: xs) := by
  cases xs with
  | nil => exact .refl _
  | cons y ys => exact .swap _ _ _

theorem IsRing.insert (h : IsRing m first xs) (hx : x ∉ xs) (hlive : (m x).isSome) :
    ∃ m' first', Ring.insert m x first = some (m', first') ∧ IsRing m' first' (insertSecond x xs) ∧
      (∀ z, z ≠ x → z ∉ xs → m' z = m z) ∧ ∀ z, (m' z).map Cell.data = (m z).map Cell.data := by
  obtain ⟨hnodup, rfl, hleads⟩ := h
  cases xs with
  | nil =>
    obtain ⟨m₁, hset, hnext, hframe, hdata⟩ := getNext_setNext (y := some x) hlive
    refine ⟨m₁, some x, ?_, ⟨List.nodup_singleton x, rfl, hnext, trivial⟩, fun z hz _ => hframe z hz, hdata⟩
    rw [List.head?_nil, Ring.insert, hset]
    rfl
  | cons y ys =>
    rw [List.mem_cons, not_or] at hx
    rw [List.nodup_cons] at hnodup
    obtain ⟨m₁, hset, hnext, hframe, hdata⟩ := getNext_setNext (y := ys.head?.or (some y)) hlive
    have hy : (m₁ y).isSome := by
      rw [hframe y (Ne.symm hx.1)]
      exact Leads.mem hleads List.mem_cons_self
    obtain ⟨m₂, hset', hnext', hframe', hdata'⟩ := getNext_setNext (y := some x) hy
    refine ⟨m₂, some y, ?_, ⟨?_, rfl, hnext', ?_, ?_⟩, ?_, ?_⟩
    · simp only [List.head?_cons, Ring.insert, hleads.1, hset, hset', Option.bind_eq_bind, Option.bind_some]
      rfl
    · refine (insertSecond_perm x (y :: ys)).nodup_iff.2 (List.nodup_cons.2 ⟨?_, List.nodup_cons.2 hnodup⟩)
      exact fun hmem => (List.mem_cons.1 hmem).elim hx.1 hx.2
    · rw [getNext, hframe' x hx.1]
      exact hnext
    · refine Leads.congr hleads.2 fun z hz => ?_
      have hzy : z ≠ y := by
        rintro rfl
        exact hnodup.1 hz
      have hzx : z ≠ x := by
        rintro rfl
        exact hx.2 hz
      rw [getNext, hframe' z hzy, hframe z hzx, getNext]
    · intro z hzx hz
      rw [List.mem_cons, not_or] at hz
      rw [hframe' z hz.1, hframe z hzx]
    · intro z
      rw [hdata', hdata]

omit [DecidableEq α] in
/-- Only the last cell of a ring leads to the first one. -/
theorem eq_nil_of_head_eq {done rest : List α} (hnodup : (done ++ x :: rest).Nodup)
    (hlast : rest.head?.or (done ++ x :: rest).head? = (done ++ x :: rest).head?) : rest = [] := by
  cases rest with
  | nil => rfl
  | cons y rest =>
    rw [List.head?_cons, Option.some_or] at hlast
    cases done with
    | nil =>
      obtain rfl : y = x := by simpa using hlast
      simp at hnodup
    | cons z done =>
      obtain rfl : y = z := by simpa using hlast
      simp at hnodup

/-- In the loop that cuts a ring: the cells `rest` are to be visited, and the links of the others are in place. -/
structure Cutting (m : Cells α β) (xs rest : List α) (m' : Cells α β) : Prop where
  visited : ∃ done, xs = done ++ rest ∧ Leads m' rest.head? done
  leads : Leads m' xs.head? rest
  frame : ∀ z, z ∉ xs → m' z = m z
  live : ∀ z, (m' z).isSome = (m z).isSome

theorem Cutting.step {rest : List α} (hnodup : xs.Nodup) (h : Cutting m xs (x :: rest) m') :
    ∃ m'', cutStep xs.head? m' x = some (m'', rest.head?) ∧ Cutting m xs rest m'' := by
  obtain ⟨⟨done, hxs, hdone⟩, hrest, hframe, hlive⟩ := h
  have hsplit : xs = (done ++ [x]) ++ rest := by simp [hxs]
  by_cases hlast : rest.head?.or xs.head? = xs.head?
  · obtain rfl : rest = [] := by
      rw [hxs] at hnodup hlast
      exact eq_nil_of_head_eq hnodup hlast
    obtain ⟨m'', hset, hnext, hframe', hdata⟩ := getNext_setNext (y := none) (Leads.mem hrest List.mem_cons_self)
    refine ⟨m'', ?_, ⟨done ++ [x], hsplit, ?_⟩, ?_, ?_, ?_⟩
    · simp only [cutStep, hrest.1, List.head?_nil, Option.none_or, if_true, hset, hnext, Option.bind_eq_bind,
        Option.bind_some]
      rfl
    · refine leads_append.2 ⟨hdone.congr fun y hy => ?_, hnext, trivial⟩
      rw [hxs, List.nodup_append] at hnodup
      rw [getNext, hframe' y (hnodup.2.2 y hy x List.mem_cons_self), getNext]
    · trivial
    · intro z hz
      rw [hframe' z, hframe z hz]
      rintro rfl
      exact hz (by simp [hxs])
    · intro z
      rw [← hlive z, ← Option.isSome_map, hdata z, Option.isSome_map]
  · have hnext : getNext m' x = some rest.head? := by
      rw [hrest.1]
      cases rest with
      | nil => exact absurd rfl hlast
      | cons y rest => rfl
    have hne : rest.head? ≠ xs.head? := by
      intro heq
      rw [heq] at hlast
      exact hlast (Option.or_self ..)
    refine ⟨m', ?_, ⟨done ++ [x], hsplit, leads_append.2 ⟨hdone, ?_, trivial⟩⟩, hrest.2, hframe, hlive⟩
    · simp only [cutStep, hnext, if_neg hne, Option.bind_eq_bind, Option.bind_some]
      rfl
    · exact hnext

/-- The loop that cuts a ring ends, and its cells are on a list. -/
theorem IsRing.cut (h : IsRing m first xs) {n : ℕ} (hn : xs.length ≤ n) :
    ∃ m', Ring.cut n m first = some m' ∧ Leads m' none xs ∧ (∀ z, z ∉ xs → m' z = m z) ∧
      ∀ z, (m' z).isSome = (m z).isSome := by
  obtain ⟨hnodup, rfl, hleads⟩ := h
  obtain ⟨m', hrun, ⟨done, hxs, hdone⟩, -, hframe, hlive⟩ := walk_spec (Cutting m xs)
    (fun _ _ _ h => h.step hnodup) hn ⟨⟨[], rfl, trivial⟩, hleads, fun _ _ => rfl, fun _ => rfl⟩
  rw [List.append_nil] at hxs
  exact ⟨m', hrun, hxs ▸ hdone, hframe, hlive⟩

/-- The loop that frees the cells of a list ends, with every cell freed once. -/
theorem Leads.freeAll (h : Leads m none xs) (hnodup : xs.Nodup) {n : ℕ} (hn : xs.length ≤ n) (freed : List α) :
    Ring.freeAll n (m, freed) xs.head? = some (fun z => if z ∈ xs then none else m z, freed ++ xs) := by
  let P : List α → Cells α β × List α → Prop := fun rest s => ∃ done, xs = done ++ rest ∧
    s = (fun z => if z ∈ done then none else m z, freed ++ done)
  have hstep : ∀ x rest s, P (x :: rest) s → ∃ s', freeStep s x = some (s', rest.head?) ∧ P rest s' := by
    rintro x rest s ⟨done, hxs, rfl⟩
    have hx : x ∉ done := by
      rw [hxs, List.nodup_append] at hnodup
      exact fun hmem => hnodup.2.2 x hmem x List.mem_cons_self rfl
    have hnext : getNext m x = some rest.head? := by
      rw [hxs] at h
      rw [(leads_append.1 h).2.1, Option.or_none]
    obtain ⟨c, hc, hcnext⟩ := Option.map_eq_some_iff.1 hnext
    refine ⟨(fun z => if z ∈ done ++ [x] then none else m z, freed ++ (done ++ [x])), ?_, done ++ [x], by simp [hxs], rfl⟩
    simp only [freeStep, getNext, free, if_neg hx, hc, Option.map_some, Option.bind_eq_bind, Option.bind_some, hcnext,
      List.append_assoc]
    congr 3
    funext z
    by_cases hz : z = x
    · subst hz
      simp
    · simp [hz]
  obtain ⟨s, hrun, done, hxs, rfl⟩ := walk_spec (s := (m, freed)) P hstep hn ⟨[], rfl, by simp⟩
  rw [List.append_nil] at hxs
  rw [Ring.freeAll, hrun, ← hxs]

/-- The two loops end, and every cell of the ring is freed once. -/
theorem IsRing.release (h : IsRing m first xs) {n : ℕ} (hn : xs.length ≤ n) (freed : List α) :
    Ring.release n (m, freed) first = some (fun z => if z ∈ xs then none else m z, freed ++ xs) := by
  obtain ⟨m', hcut, hleads, hframe, -⟩ := h.cut hn
  have hfree := hleads.freeAll h.nodup hn freed
  rw [← h.first_eq] at hfree
  rw [Ring.release, hcut, Option.bind_eq_bind, Option.bind_some, hfree]
  congr 2
  funext z
  by_cases hz : z ∈ xs
  · rw [if_pos hz, if_pos hz]
  · rw [if_neg hz, if_neg hz, hframe z hz]

end Ring
