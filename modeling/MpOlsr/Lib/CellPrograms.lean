import MpOlsr.Lib.DoublyLinked

/-!
# Programs on doubly linked lists

The usual programs on the link fields of `DoublyLinked.Links`, with a fault (`none`) for every access to a cell that
is not live.  `insertCell` and `removeCell` are the programs for `push` and `unlink`; `search` looks for a cell, and
`walk` visits the cells of a list, with the number of steps bounded, so that a list with a loop is a fault as well.
-/

namespace DoublyLinked

variable {α κ σ : Type} [DecidableEq α] [DecidableEq κ]

namespace Links

/-- Set the fields of a new cell. -/
def clear (D : Links α κ) (x : α) : Links α κ :=
  { D with next := Function.update D.next x none, prev := Function.update D.prev x none }

/-- Set the head of a new list. -/
def clearHead (D : Links α κ) (k : κ) : Links α κ := { D with head := Function.update D.head k none }

section Access

variable (live : α → Bool) (liveHead : κ → Bool)

omit [DecidableEq α] [DecidableEq κ] in
def getNext (D : Links α κ) (x : α) : Option (Option α) := if live x then some (D.next x) else none

omit [DecidableEq α] [DecidableEq κ] in
def getPrev (D : Links α κ) (x : α) : Option (Option α) := if live x then some (D.prev x) else none

omit [DecidableEq α] [DecidableEq κ] in
def getHead (D : Links α κ) (k : κ) : Option (Option α) := if liveHead k then some (D.head k) else none

def setNext (D : Links α κ) (x : α) (y : Option α) : Option (Links α κ) :=
  if live x then some { D with next := Function.update D.next x y } else none

def setPrev (D : Links α κ) (x : α) (y : Option α) : Option (Links α κ) :=
  if live x then some { D with prev := Function.update D.prev x y } else none

def setHead (D : Links α κ) (k : κ) (y : Option α) : Option (Links α κ) :=
  if liveHead k then some { D with head := Function.update D.head k y } else none

/-- Set the `prev` field of the cell after `x`, if there is one. -/
def setPrevOf (D : Links α κ) (x y : Option α) : Option (Links α κ) :=
  match x with
  | none => some D
  | some x => D.setPrev live x y

/-- Set the `next` field of the cell before, or the head if there is none. -/
def setNextOf (D : Links α κ) (k : κ) (x y : Option α) : Option (Links α κ) :=
  match x with
  | none => D.setHead liveHead k y
  | some x => D.setNext live x y

/-- The program that inserts the cell `x` at the head of the list `k`. -/
def insertCell (D : Links α κ) (k : κ) (x : α) : Option (Links α κ) := do
  let first ← D.getHead liveHead k
  let D ← D.setPrevOf live first (some x)
  let D ← D.setNext live x first
  D.setHead liveHead k (some x)

/-- The program that takes the cell `x` off the list `k`. -/
def removeCell (D : Links α κ) (k : κ) (x : α) : Option (Links α κ) := do
  let before ← D.getPrev live x
  let after ← D.getNext live x
  let D ← D.setNextOf live liveHead k before after
  let after ← D.getNext live x
  let before ← D.getPrev live x
  D.setPrevOf live after before

/-- The program for the same that sets the `prev` field first. -/
def detachCell (D : Links α κ) (k : κ) (x : α) : Option (Links α κ) := do
  let after ← D.getNext live x
  let before ← D.getPrev live x
  let D ← D.setPrevOf live after before
  let before ← D.getPrev live x
  let after ← D.getNext live x
  D.setNextOf live liveHead k before after

end Access

end Links

/-- Look for the first cell that passes the test. -/
def search (next : α → Option (Option α)) (test : α → Option Bool) : ℕ → Option α → Option (Option α)
  | _, none => some none
  | 0, some _ => none
  | n + 1, some x => do
    let found ← test x
    if found then return some x
    else
      let y ← next x
      search next test n y

/-- Visit the cells; a step returns the next cell. -/
def walk (step : σ → α → Option (σ × Option α)) : ℕ → σ → Option α → Option σ
  | _, s, none => some s
  | 0, _, some _ => none
  | n + 1, s, some x => do
    let r ← step s x
    walk step n r.1 r.2

/-! ### The same lists -/

/-- The heads are the same, and so are the fields of the cells in the set. -/
structure Links.SameOn (D : Links α κ) (P : α → Prop) (D' : Links α κ) : Prop where
  head : D'.head = D.head
  next : ∀ x, P x → D'.next x = D.next x
  prev : ∀ x, P x → D'.prev x = D.prev x

namespace Links.SameOn

variable {D : Links α κ} {P : α → Prop}

omit [DecidableEq α] [DecidableEq κ] in
theorem refl : D.SameOn P D := ⟨rfl, fun _ _ => rfl, fun _ _ => rfl⟩

omit [DecidableEq κ] in
/-- The fields of a cell outside of the set are set. -/
theorem clear {x : α} (hx : ¬ P x) : D.SameOn P (D.clear x) := by
  have hne : ∀ y, P y → y ≠ x := by
    rintro y hy rfl
    exact hx hy
  exact ⟨rfl, fun y hy => Function.update_of_ne (hne y hy) _ _, fun y hy => Function.update_of_ne (hne y hy) _ _⟩

end Links.SameOn

/-! ### The rules of the programs -/

/-- A cell that is taken off a list is live. -/
theorem Links.removeCell_live {D D' : Links α κ} {live : α → Bool} {liveHead : κ → Bool} {k : κ} {x : α}
    (hrun : D.removeCell live liveHead k x = some D') : live x = true := by
  obtain ⟨before, hbefore, -⟩ := Option.bind_eq_some_iff.1 hrun
  rw [Links.getPrev] at hbefore
  split at hbefore
  · assumption
  · cases hbefore

/-- A list that a cell enters has a live head. -/
theorem Links.insertCell_live {D D' : Links α κ} {live : α → Bool} {liveHead : κ → Bool} {k : κ} {x : α}
    (hrun : D.insertCell live liveHead k x = some D') : liveHead k = true := by
  obtain ⟨first, hfirst, -⟩ := Option.bind_eq_some_iff.1 hrun
  rw [Links.getHead] at hfirst
  split at hfirst
  · assumption
  · cases hfirst

namespace Holds

variable {D : Links α κ} {f : κ → List α} {k : κ} {x : α} {live : α → Bool} {liveHead : κ → Bool}

omit [DecidableEq κ] in
theorem clear (h : Holds D f) (hx : ∀ k, x ∉ f k) : Holds (D.clear x) f := by
  have hne : ∀ k, ∀ y ∈ f k, y ≠ x := by
    intro k y hy hyx
    exact hx k (hyx ▸ hy)
  refine h.congr (fun _ => rfl) ?_ ?_
  · intro k y hy
    exact Function.update_of_ne (hne k y hy) _ _
  · intro k y hy
    exact Function.update_of_ne (hne k y hy) _ _

omit [DecidableEq α] in
theorem clearHead_eq (D : Links α κ) (k : κ) : (D.clearHead k).head k = none := Function.update_self _ _ _

/-- A list loses its head. -/
theorem clearHead (h : Holds D f) (k : κ) : Holds (D.clearHead k) (Function.update f k []) := by
  have hsub : ∀ {k' x}, x ∈ Function.update f k [] k' → k' ≠ k ∧ x ∈ f k' := by
    intro k' x hx
    by_cases hk : k' = k
    · subst hk
      rw [Function.update_self] at hx
      cases hx
    · rw [Function.update_of_ne hk] at hx
      exact ⟨hk, hx⟩
  refine ⟨?_, ?_, ?_, ?_, fun h₁ h₂ => h.disjoint (hsub h₁).2 (hsub h₂).2⟩
  · intro k'
    by_cases hk : k' = k
    · subst hk
      rw [clearHead_eq, Function.update_self]
      rfl
    · rw [Function.update_of_ne hk, ← h.head k']
      exact Function.update_of_ne hk _ _
  · intro k' x hx
    rw [Function.update_of_ne (hsub hx).1]
    exact h.next k' x (hsub hx).2
  · intro k' x hx
    rw [Function.update_of_ne (hsub hx).1]
    exact h.prev k' x (hsub hx).2
  · intro k'
    by_cases hk : k' = k
    · subst hk
      rw [Function.update_self]
      exact List.nodup_nil
    · rw [Function.update_of_ne hk]
      exact h.nodup k'

theorem insertCell (h : Holds D f) (hlive : ∀ y ∈ f k, live y = true) (hk : liveHead k = true) (hx : live x = true) :
    D.insertCell live liveHead k x = some (D.push k x) := by
  rw [Links.insertCell, Links.getHead, if_pos hk, Option.bind_eq_bind, Option.bind_some]
  cases hhead : D.head k with
  | none =>
    simp only [Links.setPrevOf, Option.bind_eq_bind, Option.bind_some, Links.setNext, if_pos hx, Links.setHead,
      if_pos hk]
    congr 1
    refine Links.ext ?_ ?_ rfl
    · simp [Links.push, hhead]
    · simp [Links.push, hhead]
  | some y =>
    have hy : y ∈ f k := by
      rw [h.head k] at hhead
      exact List.mem_of_head? hhead
    simp only [Links.setPrevOf, Links.setPrev, if_pos (hlive y hy), Option.bind_eq_bind, Option.bind_some,
      Links.setNext, if_pos hx, Links.setHead, if_pos hk]
    congr 1
    refine Links.ext ?_ ?_ rfl
    · simp [Links.push, hhead]
    · funext z
      by_cases hz : z = y
      · subst hz
        simp [Links.push, hhead]
      · simp [Links.push, hhead, hz, Ne.symm hz]

theorem removeCell (h : Holds D f) (hlive : ∀ y ∈ f k, live y = true) (hk : liveHead k = true) (hx : x ∈ f k) :
    D.removeCell live liveHead k x = some (D.unlink k x) := by
  have hlx := hlive x hx
  rw [Links.removeCell, Links.getPrev, if_pos hlx, Option.bind_eq_bind, Option.bind_some, Links.getNext, if_pos hlx,
    Option.bind_some]
  cases hp : D.prev x with
  | none =>
    simp only [Links.setNextOf, Links.setHead, if_pos hk, Option.bind_eq_bind, Option.bind_some, Links.getNext,
      Links.getPrev, if_pos hlx]
    cases hn : D.next x with
    | none =>
      simp [Links.setPrevOf, Links.unlink, hp, hn]
    | some y =>
      simp only [Links.setPrevOf, Links.setPrev, if_pos (hlive y (h.mem_of_next hx hn))]
      congr 1
      refine Links.ext ?_ ?_ ?_
      · simp [Links.unlink, hp]
      · funext z
        by_cases hz : z = y
        · subst hz
          simp [Links.unlink, hp, hn]
        · simp [Links.unlink, hn, hz, Ne.symm hz]
      · simp [Links.unlink, hp, hn]
  | some q =>
    have hqx : q ≠ x := fun hqx => h.prev_ne_self hx (hqx ▸ hp)
    simp only [Links.setNextOf, Links.setNext, if_pos (hlive q (h.mem_of_prev hx hp)), Option.bind_eq_bind,
      Option.bind_some, Links.getNext, Links.getPrev, if_pos hlx]
    have hnext : Function.update D.next q (D.next x) = fun y => if some q = some y then D.next x else D.next y := by
      funext z
      by_cases hz : z = q
      · subst hz
        simp
      · simp [hz, Ne.symm hz]
    show ({ D with next := Function.update D.next q (D.next x) } : Links α κ).setPrevOf live
      (Function.update D.next q (D.next x) x) (D.prev x) = _
    rw [Function.update_of_ne (Ne.symm hqx)]
    cases hn : D.next x with
    | none =>
      rw [hn] at hnext
      simp [Links.setPrevOf, Links.unlink, hp, hn, hnext]
    | some y =>
      rw [hn] at hnext
      rw [Links.setPrevOf, Links.setPrev, if_pos (hlive y (h.mem_of_next hx hn))]
      congr 1
      refine Links.ext ?_ ?_ ?_
      · rw [hnext]
        simp [Links.unlink, hp, hn]
      · funext z
        by_cases hz : z = y
        · subst hz
          simp [Links.unlink, hp, hn]
        · simp [Links.unlink, hp, hn, hz, Ne.symm hz]
      · simp [Links.unlink, hp]

omit [DecidableEq κ] in
theorem setPrevOf_withNext (D : Links α κ) (next : α → Option α) (x y : Option α) :
    ({ D with next := next } : Links α κ).setPrevOf live x y =
      (D.setPrevOf live x y).map fun D' => { D' with next := next } := by
  cases x with
  | none => rfl
  | some x =>
    rw [Links.setPrevOf, Links.setPrevOf, Links.setPrev, Links.setPrev]
    split <;> rfl

/-- The part of `unlink` for the `prev` fields. -/
theorem setPrevOf_next (h : Holds D f) (hlive : ∀ y ∈ f k, live y = true) (hx : x ∈ f k) :
    D.setPrevOf live (D.next x) (D.prev x) = some { D with prev := (D.unlink k x).prev } := by
  cases hn : D.next x with
  | none => simp [Links.setPrevOf, Links.unlink, hn]
  | some y =>
    rw [Links.setPrevOf, Links.setPrev, if_pos (hlive y (h.mem_of_next hx hn))]
    congr 1
    refine Links.ext rfl ?_ rfl
    funext z
    by_cases hz : z = y
    · subst hz
      simp [Links.unlink, hn]
    · simp [Links.unlink, hn, hz, Ne.symm hz]

theorem unlink_prev_self (h : Holds D f) (hx : x ∈ f k) : (D.unlink k x).prev x = D.prev x :=
  if_neg (h.next_ne_self hx)

theorem detachCell (h : Holds D f) (hlive : ∀ y ∈ f k, live y = true) (hk : liveHead k = true) (hx : x ∈ f k) :
    D.detachCell live liveHead k x = some (D.unlink k x) := by
  have hlx := hlive x hx
  rw [Links.detachCell, Links.getNext, if_pos hlx, Option.bind_eq_bind, Option.bind_some, Links.getPrev, if_pos hlx,
    Option.bind_some, h.setPrevOf_next hlive hx, Option.bind_eq_bind, Option.bind_some, Links.getPrev, if_pos hlx,
    Option.bind_some, Links.getNext, if_pos hlx, Option.bind_some, h.unlink_prev_self hx]
  cases hp : D.prev x with
  | none =>
    rw [Links.setNextOf, Links.setHead, if_pos hk]
    congr 1
    refine Links.ext ?_ rfl ?_
    · simp [Links.unlink, hp]
    · simp [Links.unlink, hp]
  | some q =>
    rw [Links.setNextOf, Links.setNext, if_pos (hlive q (h.mem_of_prev hx hp))]
    congr 1
    refine Links.ext ?_ rfl ?_
    · funext z
      by_cases hz : z = q
      · subst hz
        simp [Links.unlink, hp]
      · simp [Links.unlink, hp, hz, Ne.symm hz]
    · simp [Links.unlink, hp]

omit [DecidableEq κ] in
/-- A search over a list of live cells finds the first one that passes the test. -/
theorem search (h : Holds D f) {test : α → Option Bool} {p : α → Bool} (hlive : ∀ y ∈ f k, live y = true)
    (htest : ∀ y ∈ f k, test y = some (p y)) {n : ℕ} (hn : (f k).length ≤ n) :
    DoublyLinked.search (D.getNext live) test n (D.head k) = some ((f k).find? p) := by
  have hrun : ∀ {rest a : List α} {n : ℕ}, f k = a ++ rest → rest.length ≤ n →
      DoublyLinked.search (D.getNext live) test n rest.head? = some (rest.find? p) := by
    intro rest
    induction rest with
    | nil => intro a n _ _; cases n <;> rfl
    | cons y rest ih =>
      intro a n hf hn
      have hy : y ∈ f k := by rw [hf]; simp
      cases n with
      | zero => simp at hn
      | succ n =>
        rw [List.head?_cons, DoublyLinked.search, htest y hy, Option.bind_eq_bind, Option.bind_some]
        by_cases hp : p y = true
        · rw [if_pos hp, List.find?_cons_of_pos hp]
          rfl
        · rw [if_neg hp, List.find?_cons_of_neg hp, Links.getNext, if_pos (hlive y hy), Option.bind_eq_bind,
            Option.bind_some, h.next_of_split hf]
          exact ih (a := a ++ [y]) (by rw [hf]; simp) (by simpa using hn)
  rw [h.head k]
  exact hrun (a := []) rfl hn

omit [DecidableEq κ] in
theorem mem_of_getNext (h : Holds D f) (hx : x ∈ f k) {y : α} (hy : D.getNext live x = some (some y)) : y ∈ f k := by
  rw [Links.getNext] at hy
  split at hy
  · exact h.mem_of_next hx (Option.some_inj.1 hy)
  · cases hy

omit [DecidableEq κ] in
/-- A cell that a search finds is on the list and passes the test. -/
theorem search_mem (h : Holds D f) {test : α → Option Bool} {n : ℕ} {y : α}
    (hrun : DoublyLinked.search (D.getNext live) test n (D.head k) = some (some y)) : y ∈ f k ∧ test y = some true := by
  have hfrom : ∀ (n : ℕ) (start : Option α), (∀ z, start = some z → z ∈ f k) →
      DoublyLinked.search (D.getNext live) test n start = some (some y) → y ∈ f k ∧ test y = some true := by
    intro n
    induction n with
    | zero =>
      intro start _ hrun
      cases start <;> cases hrun
    | succ n ih =>
      intro start hstart hrun
      cases start with
      | none => cases hrun
      | some z =>
        have hz := hstart z rfl
        obtain ⟨found, hfound, hrun⟩ := Option.bind_eq_some_iff.1 hrun
        cases found with
        | true =>
          cases hrun
          exact ⟨hz, hfound⟩
        | false =>
          obtain ⟨next, hnext, hrun⟩ := Option.bind_eq_some_iff.1 hrun
          refine ih next ?_ hrun
          rintro z' rfl
          exact h.mem_of_getNext hz hnext
  refine hfrom n _ ?_ hrun
  intro z hz
  rw [h.head k] at hz
  exact List.mem_of_mem_head? hz

omit [DecidableEq κ] in
/-- A search that finds no cell has tested all of them. -/
theorem search_none (h : Holds D f) {test : α → Option Bool} {n : ℕ}
    (hrun : DoublyLinked.search (D.getNext live) test n (D.head k) = some none) : ∀ y ∈ f k, test y = some false := by
  have hfrom : ∀ (rest a : List α) (n : ℕ), f k = a ++ rest →
      DoublyLinked.search (D.getNext live) test n rest.head? = some none → ∀ y ∈ rest, test y = some false := by
    intro rest
    induction rest with
    | nil => exact fun a n _ _ y hy => (List.not_mem_nil hy).elim
    | cons z rest ih =>
      intro a n hf hrun
      cases n with
      | zero => cases hrun
      | succ n =>
        obtain ⟨found, hfound, hrun⟩ := Option.bind_eq_some_iff.1 hrun
        cases found with
        | true => cases hrun
        | false =>
          obtain ⟨next, hnext, hrun⟩ := Option.bind_eq_some_iff.1 hrun
          rw [Links.getNext] at hnext
          split at hnext
          · rw [h.next_of_split hf, Option.some_inj] at hnext
            subst hnext
            intro y hy
            rcases List.mem_cons.1 hy with rfl | hy
            · exact hfound
            · exact ih (a ++ [z]) n (by simp [hf]) hrun y hy
          · cases hnext
  rw [h.head k] at hrun
  exact hfrom _ [] n rfl hrun

end Holds

omit [DecidableEq α] in
/-- A walk over a list: every step keeps the property, which may refer to the cells that remain. -/
theorem walk_spec {step : σ → α → Option (σ × Option α)} (P : List α → σ → Prop)
    (hstep : ∀ x rest s, P (x :: rest) s → ∃ s', step s x = some (s', rest.head?) ∧ P rest s') {xs : List α} {s : σ}
    {n : ℕ} (hn : xs.length ≤ n) (hs : P xs s) : ∃ s', walk step n s xs.head? = some s' ∧ P [] s' := by
  induction xs generalizing s n with
  | nil => exact ⟨s, by cases n <;> rfl, hs⟩
  | cons x xs ih =>
    cases n with
    | zero => simp at hn
    | succ n =>
      obtain ⟨s', hs', hP⟩ := hstep x xs s hs
      obtain ⟨s'', hwalk, hP'⟩ := ih (n := n) (by simpa using hn) hP
      refine ⟨s'', ?_, hP'⟩
      rw [List.head?_cons, walk, hs']
      exact hwalk

omit [DecidableEq α] in
/-- A property that every step keeps is kept by a walk. -/
theorem walk_keeps {step : σ → α → Option (σ × Option α)} {P : σ → Prop}
    (hstep : ∀ s x r, P s → step s x = some r → P r.1) {n : ℕ} {s s' : σ} {x : Option α} (hs : P s)
    (hrun : walk step n s x = some s') : P s' := by
  induction n generalizing s x with
  | zero =>
    cases x with
    | none =>
      cases hrun
      exact hs
    | some x => cases hrun
  | succ n ih =>
    cases x with
    | none =>
      cases hrun
      exact hs
    | some x =>
      obtain ⟨r, hr, hrun⟩ := Option.bind_eq_some_iff.1 hrun
      exact ih (hstep s x r hs hr) hrun

omit [DecidableEq α] in
/-- What a walk that returns has visited: a list of cells that follow each other, all with a property. -/
theorem walk_visits {step : σ → α → Option (σ × Option α)} {next : α → Option α} {I : σ → Prop} {P : α → Prop}
    (hstep : ∀ s x r, I s → step s x = some r → I r.1 ∧ r.2 = next x ∧ P x) {n : ℕ} {s s' : σ} {x : Option α} (hs : I s)
    (hrun : walk step n s x = some s') :
    ∃ l : List α, x = l.head? ∧ (∀ a y b, l = a ++ y :: b → next y = b.head?) ∧ ∀ y ∈ l, P y := by
  have hnil : ∀ a (y : α) b, [] = a ++ y :: b → next y = b.head? := fun _ _ _ h =>
    absurd h.symm (List.append_ne_nil_of_right_ne_nil _ (List.cons_ne_nil _ _))
  induction n generalizing s x with
  | zero =>
    cases x with
    | none => exact ⟨[], rfl, hnil, fun _ h => (List.not_mem_nil h).elim⟩
    | some x => cases hrun
  | succ n ih =>
    cases x with
    | none => exact ⟨[], rfl, hnil, fun _ h => (List.not_mem_nil h).elim⟩
    | some x =>
      obtain ⟨r, hr, hrun⟩ := Option.bind_eq_some_iff.1 hrun
      obtain ⟨hI, hnext, hP⟩ := hstep s x r hs hr
      obtain ⟨l, hl, hfollow, hall⟩ := ih hI hrun
      refine ⟨x :: l, rfl, ?_, ?_⟩
      · intro a y b hsplit
        cases a with
        | nil =>
          rw [List.nil_append, List.cons.injEq] at hsplit
          rw [← hsplit.1, ← hsplit.2, ← hnext, hl]
        | cons z a =>
          rw [List.cons_append, List.cons.injEq] at hsplit
          exact hfollow a y b hsplit.2
      · intro y hy
        rcases List.mem_cons.1 hy with rfl | hy
        · exact hP
        · exact hall y hy

namespace Holds

variable {D : Links α κ} {f : κ → List α} {n : κ}

omit [DecidableEq κ] in
/-- A walk along a list of named cells: every step goes on to the next cell, and keeps the property. -/
theorem walk_map {β : Type} {name : β → α} {xs : List β} (h : Holds D f) (hf : f n = xs.map name)
    {t : σ → α → Option (σ × Option α)} (P : List β → σ → Prop)
    (hstep : ∀ x rest s, x ∈ xs → P (x :: rest) s → ∃ s', t s (name x) = some (s', D.next (name x)) ∧ P rest s')
    {m : ℕ} (hm : xs.length ≤ m) {s : σ} (hs : P xs s) : ∃ s', walk t m s (D.head n) = some s' ∧ P [] s' := by
  let Q : List α → σ → Prop := fun rest s => ∃ done rest', xs = done ++ rest' ∧ rest = rest'.map name ∧ P rest' s
  have hrun : ∀ x rest s, Q (x :: rest) s → ∃ s', t s x = some (s', rest.head?) ∧ Q rest s' := by
    intro x rest s hQ
    obtain ⟨done, rest', hxs, hrest, hP⟩ := hQ
    obtain ⟨y, ys, rfl, rfl, rfl⟩ := List.map_eq_cons_iff.1 hrest.symm
    obtain ⟨s', hstep', hP'⟩ := hstep y ys s (by rw [hxs]; simp) hP
    refine ⟨s', ?_, done ++ [y], ys, by rw [hxs]; simp, rfl, hP'⟩
    rw [hstep', h.next_of_split (a := done.map name) (b := ys.map name) (by rw [hf, hxs]; simp)]
  have hlength : (xs.map name).length ≤ m := by simpa using hm
  obtain ⟨s', hwalk, done, rest', -, hnil, hP⟩ := walk_spec Q hrun hlength ⟨[], xs, rfl, rfl, hs⟩
  refine ⟨s', ?_, ?_⟩
  · rw [h.head n, hf]
    exact hwalk
  · rwa [List.map_eq_nil_iff.1 hnil.symm] at hP

omit [DecidableEq κ] in
/-- A walk that frees the cells of a list. -/
theorem walk_free {τ : Type} (h : Holds D f) {B : α → Option τ} {I : (α → Option τ) → σ}
    {t : σ → α → Option (σ × Option α)}
    (hstep : ∀ B' x, (B' x).isSome → t (I B') x = some (I (Function.update B' x none), D.next x))
    (hlive : ∀ x ∈ f n, (B x).isSome) {m : ℕ} (hm : (f n).length ≤ m) :
    walk t m (I B) (D.head n) = some (I fun x => if x ∈ f n then none else B x) := by
  let P : List α → σ → Prop := fun rest s => ∃ freed, f n = freed ++ rest ∧
    s = I fun x => if x ∈ freed then none else B x
  have hrun : ∀ x rest s, P (x :: rest) s → ∃ s', t s x = some (s', rest.head?) ∧ P rest s' := by
    intro x rest s hP
    obtain ⟨freed, hf, hs⟩ := hP
    have hx : x ∉ freed := by
      have hnodup := h.nodup n
      rw [hf] at hnodup
      exact fun hx => (List.nodup_append.1 hnodup).2.2 x hx x List.mem_cons_self rfl
    let B' : α → Option τ := fun y => if y ∈ freed then none else B y
    have hlive' : (B' x).isSome := by
      simp only [B', if_neg hx]
      exact hlive x (by rw [hf]; simp)
    refine ⟨I (Function.update B' x none), ?_, freed ++ [x], by rw [hf]; simp, ?_⟩
    · rw [hs, ← h.next_of_split hf]
      exact hstep B' x hlive'
    · congr 1
      funext y
      by_cases hy : y = x
      · subst hy
        simp
      · simp [B', hy]
  obtain ⟨s, hwalk, freed, hfreed, hs⟩ := walk_spec (s := I B) P hrun hm ⟨[], rfl, by simp⟩
  rw [List.append_nil] at hfreed
  rw [h.head n, hwalk, hs, hfreed]

/-- A walk along a list of one family that takes its cells off their lists in another family. -/
theorem walk_unlink {β : Type} {E : Links α κ} {key₁ key₂ : β → κ} {name : β → α} {L₁ L₂ : List β}
    (hD : Holds D (group key₁ name L₁)) (hE : Holds E (group key₂ name L₂)) (hsub : L₁ ⊆ L₂)
    (hname : (L₂.map name).Nodup) {I : Links α κ → σ} {t : σ → α → Option (σ × Option α)}
    (hstep : ∀ E' L' l, L' ⊆ L₂ → Holds E' (group key₂ name L') → l ∈ L' →
      t (I E') (name l) = some (I (E'.unlink (key₂ l) (name l)), D.next (name l)))
    {m : ℕ} (hm : (group key₁ name L₁ n).length ≤ m) :
    ∃ E', walk t m (I E) (D.head n) = some (I E') ∧
      Holds E' (group key₂ name (L₂.filter fun l => name l ∉ group key₁ name L₁ n)) := by
  let P : List α → σ → Prop := fun rest s => ∃ done E', group key₁ name L₁ n = done ++ rest ∧ s = I E' ∧
    Holds E' (group key₂ name (L₂.filter fun l => name l ∉ done))
  have hrun : ∀ x rest s, P (x :: rest) s → ∃ s', t s x = some (s', rest.head?) ∧ P rest s' := by
    intro x rest s hP
    obtain ⟨done, E', hf, hs, hE'⟩ := hP
    obtain ⟨l, hl, -, rfl⟩ := mem_group.1 (show x ∈ group key₁ name L₁ n by rw [hf]; simp)
    have hx : name l ∉ done := by
      have hnodup := hD.nodup n
      rw [hf] at hnodup
      exact fun hx => (List.nodup_append.1 hnodup).2.2 _ hx _ List.mem_cons_self rfl
    let L' := L₂.filter fun l' => name l' ∉ done
    have hl' : l ∈ L' := List.mem_filter.2 ⟨hsub hl, decide_eq_true hx⟩
    have hL' : L' ⊆ L₂ := List.filter_subset_self L₂
    have hinj : ∀ l' ∈ L', name l' = name l → l' = l := fun l' hmem hn =>
      List.inj_on_of_nodup_map hname (hL' hmem) (hsub hl) hn
    refine ⟨I (E'.unlink (key₂ l) (name l)), ?_, done ++ [name l], _, by rw [hf]; simp, rfl, ?_⟩
    · rw [hs, hstep E' L' l hL' hE' hl', hD.next_of_split hf]
    · have hfilter : (L₂.filter fun l' => name l' ∉ done ++ [name l]) = L'.filter fun l' => name l' ≠ name l := by
        rw [List.filter_filter]
        refine List.filter_congr fun l' _ => ?_
        by_cases h1 : name l' ∈ done <;> by_cases h2 : name l' = name l <;> simp [h1, h2]
      rw [hfilter, group_filter_ne hl' hinj]
      exact hE'.unlink (mem_group.2 ⟨l, hl', rfl, rfl⟩)
  obtain ⟨s, hwalk, done, E', hdone, hs, hE'⟩ := walk_spec P hrun hm ⟨[], E, rfl, rfl, by simpa using hE⟩
  rw [List.append_nil] at hdone
  refine ⟨E', ?_, hdone ▸ hE'⟩
  rw [hD.head n, hwalk, hs]

end Holds

end DoublyLinked
