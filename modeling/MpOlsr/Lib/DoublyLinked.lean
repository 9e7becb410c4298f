import Mathlib.Data.List.Induction
import Mathlib.Data.List.Basic
import Mathlib.Data.List.Nodup
import Mathlib.Data.List.TakeWhile
import Mathlib.Logic.Function.Basic

/-!
# Doubly linked lists

The link fields of cells that are threaded on a family of doubly linked lists: every cell has a `next` and a `prev`
field, and every list a `head`.  `Holds D f` says that the fields `D` thread, for every `k`, the cells `f k` in this
order, and no cell twice.  Inserting a cell at the head of a list (`push`) and taking a cell off its list (`unlink`)
keep the other lists (`Holds.push`, `Holds.unlink`).

`group key name L` is a family of lists that comes from one list of records: the records with the key `k`, in the
order of `L`.
-/

namespace DoublyLinked

variable {α κ β : Type*} [DecidableEq α] [DecidableEq κ]

/-! ### Neighbours in a list -/

/-- The element after `x`. -/
def nextIn : List α → α → Option α
  | [], _ => none
  | a :: l, x => if a = x then l.head? else nextIn l x

/-- The element before `x`. -/
def prevIn : List α → α → Option α
  | [], _ => none
  | a :: l, x => if l.head? = some x then some a else prevIn l x

theorem prevIn_of_notMem {l : List α} {x : α} (h : x ∉ l) : prevIn l x = none := by
  induction l with
  | nil => rfl
  | cons a l ih =>
    rw [List.mem_cons, not_or] at h
    rw [prevIn, if_neg (fun hx => h.2 (List.mem_of_head? hx)), ih h.2]

theorem mem_of_nextIn {l : List α} {x y : α} (h : nextIn l x = some y) : y ∈ l := by
  induction l with
  | nil => cases h
  | cons a l ih =>
    rw [nextIn] at h
    split at h
    · exact List.mem_cons_of_mem _ (List.mem_of_head? h)
    · exact List.mem_cons_of_mem _ (ih h)

theorem mem_of_prevIn {l : List α} {x y : α} (h : prevIn l x = some y) : y ∈ l := by
  induction l with
  | nil => cases h
  | cons a l ih =>
    rw [prevIn] at h
    split at h
    · cases h
      exact List.mem_cons_self
    · exact List.mem_cons_of_mem _ (ih h)

theorem nextIn_append {a b : List α} {x : α} (h : x ∉ a) : nextIn (a ++ x :: b) x = b.head? := by
  induction a with
  | nil => rw [List.nil_append, nextIn, if_pos rfl]
  | cons c a ih =>
    rw [List.mem_cons, not_or] at h
    rw [List.cons_append, nextIn, if_neg (Ne.symm h.1), ih h.2]

/-- In a list without repetitions, `y` comes before `x` when `x` comes after `y`. -/
theorem nextIn_eq_some_iff {l : List α} (hl : l.Nodup) {x y : α} : nextIn l y = some x ↔ prevIn l x = some y := by
  induction l with
  | nil => simp [nextIn, prevIn]
  | cons a l ih =>
    rw [List.nodup_cons] at hl
    rw [nextIn, prevIn]
    by_cases hy : a = y
    · subst hy
      rw [if_pos rfl]
      by_cases hx : l.head? = some x
      · simp [hx]
      · rw [if_neg hx]
        constructor
        · intro h
          exact absurd h hx
        · intro h
          exact absurd (mem_of_prevIn h) hl.1
    · rw [if_neg hy]
      by_cases hx : l.head? = some x
      · rw [if_pos hx]
        constructor
        · intro h
          cases l with
          | nil => cases h
          | cons b l =>
            have hbx : b = x := by simpa using hx
            subst hbx
            have hb : b ∉ l := (List.nodup_cons.1 hl.2).1
            have hprev := (ih hl.2).1 h
            rw [prevIn, if_neg (fun hhead => hb (List.mem_of_head? hhead)), prevIn_of_notMem hb] at hprev
            cases hprev
        · intro h
          exact absurd (Option.some.inj h) hy
      · rw [if_neg hx]
        exact ih hl.2

theorem prevIn_eq_none_iff {l : List α} (hl : l.Nodup) {x : α} (hx : x ∈ l) : prevIn l x = none ↔ l.head? = some x := by
  induction l with
  | nil => cases hx
  | cons a l ih =>
    rw [List.nodup_cons] at hl
    rw [prevIn, List.head?_cons]
    by_cases hhead : l.head? = some x
    · have hax : a ≠ x := fun h => hl.1 (h ▸ List.mem_of_head? hhead)
      simp [hhead, hax]
    · rw [if_neg hhead]
      rcases List.mem_cons.1 hx with rfl | hmem
      · simp [prevIn_of_notMem hl.1]
      · have hax : a ≠ x := fun h => hl.1 (h ▸ hmem)
        rw [ih hl.2 hmem]
        simp [hhead, hax]

theorem nextIn_append_of_notMem {a b : List α} {x : α} (h : x ∉ a) : nextIn (a ++ b) x = nextIn b x := by
  induction a with
  | nil => rfl
  | cons c a ih =>
    rw [List.mem_cons, not_or] at h
    rw [List.cons_append, nextIn, if_neg (Ne.symm h.1), ih h.2]

/-! ### Removing an element -/

theorem filter_ne_of_notMem {l : List α} {x : α} (h : x ∉ l) : l.filter (· ≠ x) = l := by
  refine List.filter_eq_self.2 fun y hy => decide_eq_true ?_
  intro hyx
  exact h (hyx ▸ hy)

theorem head?_filter_ne {l : List α} (hl : l.Nodup) {x : α} (hx : x ∈ l) :
    (l.filter (· ≠ x)).head? = if prevIn l x = none then nextIn l x else l.head? := by
  cases l with
  | nil => cases hx
  | cons a l =>
    have hnone := prevIn_eq_none_iff hl hx
    rw [List.nodup_cons] at hl
    by_cases hax : a = x
    · subst hax
      have hfilter : l.filter (· ≠ a) = l := filter_ne_of_notMem hl.1
      rw [if_pos (hnone.2 rfl), List.filter_cons_of_neg (by simp), hfilter, nextIn, if_pos rfl]
    · rw [if_neg (fun h => hax (Option.some.inj (hnone.1 h))), List.filter_cons_of_pos (by simpa using hax)]
      rfl

theorem nextIn_filter_ne {l : List α} (hl : l.Nodup) {x y : α} (hx : x ∈ l) (hne : y ≠ x) :
    nextIn (l.filter (· ≠ x)) y = if prevIn l x = some y then nextIn l x else nextIn l y := by
  induction l with
  | nil => cases hx
  | cons a l ih =>
    have hl' := hl
    rw [List.nodup_cons] at hl
    by_cases hax : a = x
    · subst hax
      have hfilter : l.filter (· ≠ a) = l := filter_ne_of_notMem hl.1
      rw [(prevIn_eq_none_iff hl' hx).2 rfl, if_neg (by simp), List.filter_cons_of_neg (by simp), hfilter]
      rw [nextIn, if_neg (Ne.symm hne)]
    · have hxl : x ∈ l := by
        rcases List.mem_cons.1 hx with h | h
        · exact absurd h.symm hax
        · exact h
      rw [List.filter_cons_of_pos (by simpa using hax), nextIn, nextIn, nextIn, if_neg hax, prevIn]
      by_cases hay : a = y
      · subst hay
        rw [if_pos rfl, if_pos rfl, head?_filter_ne hl.2 hxl]
        have hnone := prevIn_eq_none_iff hl.2 hxl
        by_cases hhead : l.head? = some x
        · rw [if_pos (hnone.2 hhead), if_pos hhead, if_pos rfl]
        · have hpa : prevIn l x ≠ some a := fun h => hl.1 (mem_of_prevIn h)
          rw [if_neg (fun h => hhead (hnone.1 h)), if_neg hhead, if_neg hpa]
      · rw [if_neg hay, if_neg hay, ih hl.2 hxl]
        by_cases hhead : l.head? = some x
        · have hnone := (prevIn_eq_none_iff hl.2 hxl).2 hhead
          rw [if_pos hhead, hnone, if_neg (by simp), if_neg (by simpa using hay)]
        · rw [if_neg hhead]

theorem prevIn_filter_ne {l : List α} (hl : l.Nodup) {x y : α} (hx : x ∈ l) (hne : y ≠ x) :
    prevIn (l.filter (· ≠ x)) y = if nextIn l x = some y then prevIn l x else prevIn l y := by
  have hl' : (l.filter (· ≠ x)).Nodup := hl.filter _
  -- the predecessors of `y` in the two lists, compared through their successors
  refine Option.ext fun z => ?_
  rw [← nextIn_eq_some_iff hl']
  by_cases hzx : z = x
  · subst hzx
    constructor
    · intro h
      have hz := List.mem_filter.1 (mem_of_prevIn ((nextIn_eq_some_iff hl').1 h))
      exact absurd rfl (of_decide_eq_true hz.2)
    · intro h
      split at h
      · rename_i hnext
        have hself := (nextIn_eq_some_iff hl).2 h
        rw [hself] at hnext
        exact absurd (Option.some.inj hnext).symm hne
      · rename_i hnext
        exact absurd ((nextIn_eq_some_iff hl).2 h) hnext
  · by_cases hz : z ∈ l
    · rw [nextIn_filter_ne hl hx hzx]
      split
      · rename_i hpz
        rw [hpz]
        by_cases hnext : nextIn l x = some y
        · simp [hnext]
        · rw [if_neg hnext]
          constructor
          · intro h
            exact absurd h hnext
          · intro h
            have hzy := (nextIn_eq_some_iff hl).2 h
            rw [(nextIn_eq_some_iff hl).2 hpz] at hzy
            exact absurd (Option.some.inj hzy).symm hne
      · rename_i hpz
        by_cases hnext : nextIn l x = some y
        · rw [if_pos hnext]
          constructor
          · intro h
            have hyz := (nextIn_eq_some_iff hl).1 h
            rw [(nextIn_eq_some_iff hl).1 hnext] at hyz
            exact absurd (Option.some.inj hyz).symm hzx
          · intro h
            exact absurd h hpz
        · rw [if_neg hnext]
          exact nextIn_eq_some_iff hl
    · constructor
      · intro h
        exact absurd (List.mem_filter.1 (mem_of_prevIn ((nextIn_eq_some_iff hl').1 h))).1 hz
      · intro h
        split at h
        · exact absurd (mem_of_prevIn h) hz
        · exact absurd (mem_of_prevIn h) hz

/-! ### Removing elements at the front -/

omit [DecidableEq α] in
/-- The elements that do not pass the test are in front of the others. -/
def failFirst (test : α → Bool) (l : List α) : Bool := (l.dropWhile fun x => !test x).all test

section FailFirst

variable {test : α → Bool} {l l' : List α}

omit [DecidableEq α] in
theorem failFirst_split (h : failFirst test l = true) : ∃ a b, l = a ++ b ∧ (∀ x ∈ a, test x = false) ∧
    ∀ x ∈ b, test x = true := by
  refine ⟨l.takeWhile fun x => !test x, l.dropWhile fun x => !test x, List.takeWhile_append_dropWhile.symm, ?_, ?_⟩
  · intro x hx
    simpa using List.mem_takeWhile_imp hx
  · exact List.all_eq_true.1 h

omit [DecidableEq α] in
/-- Otherwise an element that fails stands behind one that passes. -/
theorem not_failFirst_split (h : failFirst test l = false) : ∃ a b c x y, l = a ++ (x :: b ++ y :: c) ∧
    (∀ z ∈ a, test z = false) ∧ (∀ z ∈ x :: b, test z = true) ∧ test y = false := by
  induction l with
  | nil => cases h
  | cons z l ih =>
    cases hz : test z with
    | false =>
      rw [failFirst, List.dropWhile_cons_of_pos (by simp [hz])] at h
      obtain ⟨a, b, c, x, y, rfl, ha, hb, hy⟩ := ih h
      refine ⟨z :: a, b, c, x, y, rfl, ?_, hb, hy⟩
      intro w hw
      rcases List.mem_cons.1 hw with rfl | hw
      · exact hz
      · exact ha w hw
    | true =>
      rw [failFirst, List.dropWhile_cons_of_neg (by simp [hz]), List.all_cons, hz, Bool.true_and] at h
      -- the first element that fails
      have hdrop : l.dropWhile test ≠ [] := by
        intro hnil
        have hall : ∀ w ∈ l, test w = true := List.dropWhile_eq_nil_iff.1 hnil
        rw [List.all_eq_true.2 hall] at h
        cases h
      obtain ⟨y, c, hyc⟩ := List.exists_cons_of_ne_nil hdrop
      refine ⟨[], l.takeWhile test, c, z, y, ?_, fun w hw => (List.not_mem_nil hw).elim, ?_, ?_⟩
      · rw [← hyc, List.nil_append, List.cons_append, List.takeWhile_append_dropWhile]
      · intro w hw
        rcases List.mem_cons.1 hw with rfl | hw
        · exact hz
        · exact List.mem_takeWhile_imp hw
      · have hhead := List.head_dropWhile_not test hdrop
        have hy : (l.dropWhile test).head hdrop = y := by simp [hyc]
        rw [hy] at hhead
        exact hhead

omit [DecidableEq α] in
/-- In front of a list that starts with an element that passes, all must pass. -/
theorem failFirst_append (hl : ∀ x ∈ l, test x = true) (hne : l ≠ []) :
    failFirst test (l ++ l') = true ↔ ∀ x ∈ l', test x = true := by
  cases l with
  | nil => exact absurd rfl hne
  | cons y l =>
    have hy : test y = true := hl y List.mem_cons_self
    rw [failFirst, List.cons_append, List.dropWhile_cons_of_neg (by simp [hy]), List.all_eq_true]
    constructor
    · intro h x hx
      exact h x (List.mem_cons_of_mem _ (List.mem_append_right _ hx))
    · intro h x hx
      rcases List.mem_append.1 (List.cons_append ▸ hx) with hx | hx
      · exact hl x hx
      · exact h x hx

omit [DecidableEq α] in
theorem failFirst_congr {test' : α → Bool} (h : ∀ x ∈ l, test x = test' x) : failFirst test l = failFirst test' l := by
  induction l with
  | nil => rfl
  | cons y l ih =>
    have hy := h y List.mem_cons_self
    have hl := ih fun x hx => h x (List.mem_cons_of_mem _ hx)
    rw [failFirst, failFirst, List.dropWhile_cons, List.dropWhile_cons, ← hy]
    split
    · exact hl
    · rw [Bool.eq_iff_iff, List.all_eq_true, List.all_eq_true]
      exact forall₂_congr fun x hx => by rw [h x hx]

omit [DecidableEq α] in
/-- Of the elements in front that pass, only matters whether there are any. -/
theorem failFirst_replace {a : List α} (hl : ∀ x ∈ l, test x = true) (ha : ∀ x ∈ a, test x = true)
    (hne : l = [] ↔ a = []) : failFirst test (l ++ l') = failFirst test (a ++ l') := by
  by_cases h : l = []
  · rw [h, hne.1 h]
  · rw [Bool.eq_iff_iff, failFirst_append hl h, failFirst_append ha fun h' => h (hne.2 h')]

omit [DecidableEq α] in
theorem failFirst_of_all (hl : ∀ x ∈ l, test x = true) : failFirst test l = true := by
  rw [failFirst, List.all_eq_true]
  exact fun x hx => hl x ((List.dropWhile_sublist _).subset hx)

omit [DecidableEq α] in
theorem failFirst_map {β : Type*} {f : β → α} {m : List β} : failFirst test (m.map f) = failFirst (test ∘ f) m := by
  rw [failFirst, failFirst, List.dropWhile_map, List.all_map]
  rfl

end FailFirst

/-! ### Families of lists -/

/-- The link fields of the cells, and the heads of the lists. -/
@[ext]
structure Links (α κ : Type*) where
  next : α → Option α
  prev : α → Option α
  head : κ → Option α

/-- The fields thread, for every `k`, the cells `f k`. -/
structure Holds (D : Links α κ) (f : κ → List α) : Prop where
  head : ∀ k, D.head k = (f k).head?
  next : ∀ k, ∀ x ∈ f k, D.next x = nextIn (f k) x
  prev : ∀ k, ∀ x ∈ f k, D.prev x = prevIn (f k) x
  nodup : ∀ k, (f k).Nodup
  disjoint : ∀ {k k' x}, x ∈ f k → x ∈ f k' → k = k'

/-- Insert `x` at the head of the list `k`. -/
def Links.push (D : Links α κ) (k : κ) (x : α) : Links α κ where
  next := Function.update D.next x (D.head k)
  prev := fun y => if D.head k = some y then some x else D.prev y
  head := Function.update D.head k (some x)

/-- Take `x` off the list `k`. -/
def Links.unlink (D : Links α κ) (k : κ) (x : α) : Links α κ where
  next := fun y => if D.prev x = some y then D.next x else D.next y
  prev := fun y => if D.next x = some y then D.prev x else D.prev y
  head := if D.prev x = none then Function.update D.head k (D.next x) else D.head

/-- The cells that are found from the head of a list by the `next` fields. -/
inductive Links.Reach (D : Links α κ) (k : κ) : α → Prop
  | head {x : α} (h : D.head k = some x) : D.Reach k x
  | next {x y : α} (h : D.Reach k x) (hy : D.next x = some y) : D.Reach k y

/-- The first cells that are found from a cell on, at most `n` of them. -/
def Links.cells (D : Links α κ) : ℕ → Option α → List α
  | 0, _ => []
  | _ + 1, none => []
  | n + 1, some x => x :: D.cells n (D.next x)

omit [DecidableEq α] [DecidableEq κ] in
/-- The cells of a list that starts at the head are found. -/
theorem Links.reach_of_follow {D : Links α κ} {k : κ} {l : List α} (hhead : D.head k = l.head?)
    (hnext : ∀ a x b, l = a ++ x :: b → D.next x = b.head?) {x : α} (hx : x ∈ l) : D.Reach k x := by
  -- every cell is reached from the one before it
  have hrun : ∀ a b, l = a ++ b → ∀ y, b.head? = some y → D.Reach k y := by
    intro a
    induction a using List.reverseRecOn with
    | nil =>
      intro b hl y hy
      exact .head (by rw [hhead, hl]; exact hy)
    | append_singleton a z ih =>
      intro b hl y hy
      have hl' : l = a ++ z :: b := by rw [hl]; simp
      exact .next (ih (z :: b) hl' z rfl) ((hnext a z b hl').trans hy)
  obtain ⟨a, b, hab⟩ := List.append_of_mem hx
  exact hrun a (x :: b) hab x rfl

namespace Holds

variable {D D' : Links α κ} {f : κ → List α} {k : κ} {x : α}

omit [DecidableEq κ] in
theorem of_head_none (h : ∀ k, D.head k = none) : Holds D fun _ => [] where
  head := h
  next := fun _ _ hx => (List.not_mem_nil hx).elim
  prev := fun _ _ hx => (List.not_mem_nil hx).elim
  nodup := fun _ => List.nodup_nil
  disjoint := fun hx => (List.not_mem_nil hx).elim

omit [DecidableEq κ] in
/-- The lists only depend on the fields of their cells. -/
theorem congr (h : Holds D f) (hhead : ∀ k, D'.head k = D.head k) (hnext : ∀ k, ∀ x ∈ f k, D'.next x = D.next x)
    (hprev : ∀ k, ∀ x ∈ f k, D'.prev x = D.prev x) : Holds D' f where
  head := fun k => (hhead k).trans (h.head k)
  next := fun k x hx => (hnext k x hx).trans (h.next k x hx)
  prev := fun k x hx => (hprev k x hx).trans (h.prev k x hx)
  nodup := h.nodup
  disjoint := h.disjoint

theorem push (h : Holds D f) (hx : ∀ k, x ∉ f k) (hp : D.prev x = none) (k : κ) :
    Holds (D.push k x) (Function.update f k (x :: f k)) where
  head := by
    intro k'
    show Function.update D.head k (some x) k' = _
    by_cases hk : k' = k
    · subst hk
      rw [Function.update_self, Function.update_self, List.head?_cons]
    · rw [Function.update_of_ne hk, Function.update_of_ne hk, h.head k']
  next := by
    intro k' y hy
    show Function.update D.next x (D.head k) y = _
    by_cases hk : k' = k
    · subst hk
      rw [Function.update_self] at hy ⊢
      by_cases hyx : y = x
      · subst hyx
        rw [nextIn, if_pos rfl, Function.update_self, h.head k']
      · have hyf := (List.mem_cons.1 hy).resolve_left hyx
        rw [nextIn, if_neg (Ne.symm hyx), Function.update_of_ne hyx, h.next k' y hyf]
    · rw [Function.update_of_ne hk] at hy ⊢
      have hyx : y ≠ x := fun hyx => hx k' (hyx ▸ hy)
      rw [Function.update_of_ne hyx, h.next k' y hy]
  prev := by
    intro k' y hy
    by_cases hk : k' = k
    · subst hk
      rw [Function.update_self] at hy ⊢
      rw [prevIn]
      show (if D.head k' = some y then some x else D.prev y) = _
      rw [h.head k']
      by_cases hhead : (f k').head? = some y
      · rw [if_pos hhead, if_pos hhead]
      · rw [if_neg hhead, if_neg hhead]
        by_cases hyx : y = x
        · subst hyx
          rw [hp, prevIn_of_notMem (hx k')]
        · exact h.prev k' y ((List.mem_cons.1 hy).resolve_left hyx)
    · rw [Function.update_of_ne hk] at hy ⊢
      have hhead : ¬ D.head k = some y := by
        intro hhead
        rw [h.head k] at hhead
        exact hk (h.disjoint hy (List.mem_of_head? hhead))
      show (if D.head k = some y then some x else D.prev y) = _
      rw [if_neg hhead, h.prev k' y hy]
  nodup := by
    intro k'
    by_cases hk : k' = k
    · subst hk
      rw [Function.update_self]
      exact List.nodup_cons.2 ⟨hx k', h.nodup k'⟩
    · rw [Function.update_of_ne hk]
      exact h.nodup k'
  disjoint := by
    intro k₁ k₂ y h₁ h₂
    have hmem : ∀ {k'}, y ∈ Function.update f k (x :: f k) k' → (k' = k ∧ y = x) ∨ y ∈ f k' := by
      intro k' hy
      by_cases hk : k' = k
      · subst hk
        rw [Function.update_self] at hy
        rcases List.mem_cons.1 hy with hyx | hyf
        · exact Or.inl ⟨rfl, hyx⟩
        · exact Or.inr hyf
      · rw [Function.update_of_ne hk] at hy
        exact Or.inr hy
    rcases hmem h₁ with ⟨hk₁, hyx⟩ | hy₁
    · rcases hmem h₂ with ⟨hk₂, _⟩ | hy₂
      · rw [hk₁, hk₂]
      · exact absurd (hyx ▸ hy₂) (hx k₂)
    · rcases hmem h₂ with ⟨_, hyx⟩ | hy₂
      · exact absurd (hyx ▸ hy₁) (hx k₁)
      · exact h.disjoint hy₁ hy₂

theorem unlink (h : Holds D f) (hx : x ∈ f k) :
    Holds (D.unlink k x) (Function.update f k ((f k).filter (· ≠ x))) where
  head := by
    intro k'
    show (if D.prev x = none then Function.update D.head k (D.next x) else D.head) k' = _
    rw [h.prev k x hx, h.next k x hx]
    by_cases hk : k' = k
    · subst hk
      rw [Function.update_self, head?_filter_ne (h.nodup k') hx, ← h.head k']
      split
      · rw [Function.update_self]
      · rfl
    · rw [Function.update_of_ne hk, ← h.head k']
      split
      · rw [Function.update_of_ne hk]
      · rfl
  next := by
    intro k' y hy
    show (if D.prev x = some y then D.next x else D.next y) = _
    rw [h.prev k x hx, h.next k x hx]
    by_cases hk : k' = k
    · subst hk
      rw [Function.update_self] at hy ⊢
      have hy' := List.mem_filter.1 hy
      rw [nextIn_filter_ne (h.nodup k') hx (of_decide_eq_true hy'.2), h.next k' y hy'.1]
    · rw [Function.update_of_ne hk] at hy ⊢
      rw [if_neg (fun hp => hk (h.disjoint hy (mem_of_prevIn hp))), h.next k' y hy]
  prev := by
    intro k' y hy
    show (if D.next x = some y then D.prev x else D.prev y) = _
    rw [h.prev k x hx, h.next k x hx]
    by_cases hk : k' = k
    · subst hk
      rw [Function.update_self] at hy ⊢
      have hy' := List.mem_filter.1 hy
      rw [prevIn_filter_ne (h.nodup k') hx (of_decide_eq_true hy'.2), h.prev k' y hy'.1]
    · rw [Function.update_of_ne hk] at hy ⊢
      rw [if_neg (fun hn => hk (h.disjoint hy (mem_of_nextIn hn))), h.prev k' y hy]
  nodup := by
    intro k'
    by_cases hk : k' = k
    · subst hk
      rw [Function.update_self]
      exact (h.nodup k').filter _
    · rw [Function.update_of_ne hk]
      exact h.nodup k'
  disjoint := by
    intro k₁ k₂ y h₁ h₂
    have hmem : ∀ {k'}, y ∈ Function.update f k ((f k).filter (· ≠ x)) k' → y ∈ f k' := by
      intro k' hy
      by_cases hk : k' = k
      · subst hk
        rw [Function.update_self] at hy
        exact (List.mem_filter.1 hy).1
      · rwa [Function.update_of_ne hk] at hy
    exact h.disjoint (hmem h₁) (hmem h₂)

omit [DecidableEq κ] in
/-- The cell after `x`, found at its place in the list. -/
theorem next_of_split (h : Holds D f) {a b : List α} (hf : f k = a ++ x :: b) : D.next x = b.head? := by
  have hx : x ∈ f k := by rw [hf]; simp
  have hnodup := h.nodup k
  rw [hf] at hnodup
  have hxa : x ∉ a := fun hxa => (List.nodup_append.1 hnodup).2.2 x hxa x List.mem_cons_self rfl
  rw [h.next k x hx, hf, nextIn_append hxa]

omit [DecidableEq κ] in
theorem mem_of_next (h : Holds D f) (hx : x ∈ f k) {y : α} (hy : D.next x = some y) : y ∈ f k := by
  rw [h.next k x hx] at hy
  exact mem_of_nextIn hy

omit [DecidableEq κ] in
theorem mem_of_prev (h : Holds D f) (hx : x ∈ f k) {y : α} (hy : D.prev x = some y) : y ∈ f k := by
  rw [h.prev k x hx] at hy
  exact mem_of_prevIn hy

omit [DecidableEq κ] in
theorem reach_iff (h : Holds D f) : D.Reach k x ↔ x ∈ f k := by
  constructor
  · intro hx
    induction hx with
    | head hx =>
      rw [h.head k] at hx
      exact List.mem_of_head? hx
    | next _ hy ih => exact h.mem_of_next ih hy
  · exact fun hx => Links.reach_of_follow (h.head k) (fun _ _ _ hf => h.next_of_split hf) hx

omit [DecidableEq κ] in
theorem cells_of_split (h : Holds D f) {a b : List α} {n : ℕ} (hf : f k = a ++ b) (hn : b.length ≤ n) :
    D.cells n b.head? = b := by
  induction b generalizing a n with
  | nil => cases n <;> rfl
  | cons x b ih =>
    cases n with
    | zero => simp at hn
    | succ n =>
      rw [List.head?_cons, Links.cells, h.next_of_split hf]
      exact congrArg (x :: ·) (ih (a := a ++ [x]) (by simp [hf]) (Nat.le_of_succ_le_succ hn))

omit [DecidableEq κ] in
/-- Enough cells are all cells. -/
theorem mem_cells (h : Holds D f) {n : ℕ} (hn : (f k).length ≤ n) : x ∈ D.cells n (D.head k) ↔ D.Reach k x := by
  rw [h.head k, h.cells_of_split (List.nil_append _).symm hn, h.reach_iff]

omit [DecidableEq κ] in
theorem next_ne_self (h : Holds D f) (hx : x ∈ f k) : D.next x ≠ some x := by
  intro hn
  obtain ⟨a, b, hab⟩ := List.append_of_mem hx
  rw [h.next_of_split hab] at hn
  have hnodup := h.nodup k
  rw [hab] at hnodup
  exact (List.nodup_cons.1 (List.nodup_append.1 hnodup).2.1).1 (List.mem_of_head? hn)

omit [DecidableEq κ] in
theorem prev_ne_self (h : Holds D f) (hx : x ∈ f k) : D.prev x ≠ some x := by
  intro hp
  rw [h.prev k x hx, ← nextIn_eq_some_iff (h.nodup k), ← h.next k x hx] at hp
  exact h.next_ne_self hx hp

end Holds

/-! ### Lists of records -/

/-- The names of the records with the key `k`, in the order of `L`. -/
def group (key : β → κ) (name : β → α) (L : List β) (k : κ) : List α :=
  (L.filter fun e => key e = k).map name

section Group

variable {key : β → κ} {name : β → α} {L : List β}

omit [DecidableEq α] in
theorem mem_group {k : κ} {x : α} : x ∈ group key name L k ↔ ∃ e ∈ L, key e = k ∧ name e = x := by
  simp [group, and_assoc]

omit [DecidableEq α] in
theorem group_cons (e : β) :
    group key name (e :: L) = Function.update (group key name L) (key e) (name e :: group key name L (key e)) := by
  funext k
  by_cases hk : k = key e
  · subst hk
    rw [Function.update_self, group, List.filter_cons_of_pos (by simp)]
    rfl
  · rw [Function.update_of_ne hk, group, List.filter_cons_of_neg (by simpa using Ne.symm hk)]
    rfl

/-- Removing the records with the name of one of them takes it off its list. -/
theorem group_filter_ne {e : β} (he : e ∈ L) (hinj : ∀ e' ∈ L, name e' = name e → e' = e) :
    group key name (L.filter fun e' => name e' ≠ name e) = Function.update (group key name L) (key e)
      ((group key name L (key e)).filter (· ≠ name e)) := by
  funext k
  by_cases hk : k = key e
  · subst hk
    rw [Function.update_self, group, group, List.filter_map, List.filter_filter, List.filter_filter]
    congr 1
    refine List.filter_congr fun e' _ => ?_
    rw [Bool.and_comm]
    rfl
  · rw [Function.update_of_ne hk, group, group, List.filter_filter]
    congr 1
    refine List.filter_congr fun e' he' => ?_
    by_cases hname : name e' = name e
    · have : e' = e := hinj e' he' hname
      subst this
      simp [Ne.symm hk]
    · simp [hname]

omit [DecidableEq α] in
/-- Removing the records with a key empties its list. -/
theorem group_filter_key (n : κ) : group key name (L.filter fun e => key e ≠ n) =
    Function.update (group key name L) n [] := by
  funext k
  by_cases hk : k = n
  · subst hk
    rw [Function.update_self, List.eq_nil_iff_forall_not_mem]
    intro x hx
    obtain ⟨e, he, hkey, -⟩ := mem_group.1 hx
    exact absurd hkey (of_decide_eq_true (List.mem_filter.1 he).2)
  · rw [Function.update_of_ne hk, group, group, List.filter_filter]
    congr 1
    refine List.filter_congr fun e _ => ?_
    by_cases hkey : key e = k
    · simp [hkey, hk]
    · simp [hkey]

end Group

end DoublyLinked
