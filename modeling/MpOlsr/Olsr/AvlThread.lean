import MpOlsr.Lib.DoublyLinked
import MpOlsr.Lib.Fault
import MpOlsr.Olsr.AvlCells

/-!
# The list of an AVL tree

All nodes of a tree are on a doubly linked list.  `avl_insert_before`, `avl_insert_after` and `avl_remove` put a node
between two others, or take it off, and change nothing else (`Avl.Rethreads`).
-/

namespace DoublyLinked

variable {α : Type*} [DecidableEq α] {a b : List α} {x y : α}

theorem prevIn_append (h : (a ++ x :: b).Nodup) : prevIn (a ++ x :: b) x = a.getLast? := by
  cases ha : a.getLast? with
  | none =>
    obtain rfl := List.getLast?_eq_none_iff.1 ha
    exact (prevIn_eq_none_iff h (by simp)).2 rfl
  | some z =>
    obtain ⟨a, rfl⟩ := List.getLast?_eq_some_iff.1 ha
    rw [← nextIn_eq_some_iff h, List.append_assoc]
    refine nextIn_append fun hz => ?_
    rw [List.append_assoc, List.nodup_append] at h
    exact h.2.2 z hz z (by simp) rfl

theorem filter_ne_append (h : (a ++ x :: b).Nodup) : (a ++ x :: b).filter (· ≠ x) = a ++ b := by
  rw [List.nodup_middle, List.nodup_cons, List.mem_append, not_or] at h
  rw [List.filter_append, List.filter_cons_of_neg (by simp), filter_ne_of_notMem h.1.1, filter_ne_of_notMem h.1.2]

/-- The element after `y` in a list from which `x` was taken. -/
theorem nextIn_without (h : (a ++ x :: b).Nodup) (hne : y ≠ x) :
    nextIn (a ++ b) y = if a.getLast? = some y then b.head? else nextIn (a ++ x :: b) y := by
  have hx : x ∉ a := by
    rw [List.nodup_middle, List.nodup_cons, List.mem_append, not_or] at h
    exact h.1.1
  have hnext := nextIn_filter_ne h (x := x) (by simp) hne
  rwa [filter_ne_append h, prevIn_append h, nextIn_append hx] at hnext

theorem prevIn_without (h : (a ++ x :: b).Nodup) (hne : y ≠ x) :
    prevIn (a ++ b) y = if b.head? = some y then a.getLast? else prevIn (a ++ x :: b) y := by
  have hx : x ∉ a := by
    rw [List.nodup_middle, List.nodup_cons, List.mem_append, not_or] at h
    exact h.1.1
  have hprev := prevIn_filter_ne h (x := x) (by simp) hne
  rwa [filter_ne_append h, prevIn_append h, nextIn_append hx] at hprev

/-- The element after `y` in a list to which `x` was added. -/
theorem nextIn_with (h : (a ++ x :: b).Nodup) (hne : y ≠ x) :
    nextIn (a ++ x :: b) y = if a.getLast? = some y then some x else nextIn (a ++ b) y := by
  split
  · rename_i hlast
    rw [nextIn_eq_some_iff h, prevIn_append h, hlast]
  · rename_i hlast
    rw [nextIn_without h hne, if_neg hlast]

theorem prevIn_with (h : (a ++ x :: b).Nodup) (hne : y ≠ x) :
    prevIn (a ++ x :: b) y = if b.head? = some y then some x else prevIn (a ++ b) y := by
  have hx : x ∉ a := by
    rw [List.nodup_middle, List.nodup_cons, List.mem_append, not_or] at h
    exact h.1.1
  split
  · rename_i hhead
    rw [← nextIn_eq_some_iff h, nextIn_append hx, hhead]
  · rename_i hhead
    rw [prevIn_without h hne, if_neg hhead]

end DoublyLinked

namespace MpOlsr

namespace Avl

open DoublyLinked

variable {K : Type} {s s' : Avl K} {x new : Ptr} {P Q : List Ptr} {m : AvlNode K}

/-- What a block says about other things than the list. -/
def keep (n : AvlNode K) : AvlLinks × K × Bool := (n.links, n.key, n.leader)

/-- Only the list changed. -/
structure Rethreads (s s' : Avl K) : Prop where
  root : s'.root = s.root
  keep : ∀ y, (s'.nodes y).map Avl.keep = (s.nodes y).map Avl.keep

/-- The nodes are on the list in this order. -/
structure Thread (s : Avl K) (L : List Ptr) : Prop where
  nodup : L.Nodup
  first : s.first = L.head?
  last : s.last = L.getLast?
  count : s.count = BitVec.ofNat 32 L.length
  link : ∀ x ∈ L, ∃ n, s.nodes x = some n ∧ n.next = nextIn L x ∧ n.prev = prevIn L x

/-- Change a block, if there is one. -/
def touch (s : Avl K) (x : Option Ptr) (f : AvlNode K → AvlNode K) : Avl K :=
  { s with nodes := fun y => if x = some y then (s.nodes y).map f else s.nodes y }

theorem modify_eq {n : AvlNode K} (hn : s.nodes x = some n) (f : AvlNode K → AvlNode K) :
    s.modify x f = some (s.touch (some x) f) := by
  rw [modify, hn, Option.map_some, touch]
  congr 2
  funext y
  by_cases hy : y = x
  · subst hy
    rw [Function.update_self, if_pos rfl, hn, Option.map_some]
  · rw [Function.update_of_ne hy, if_neg fun h => hy (Option.some_inj.1 h).symm]

theorem touch_nodes (s : Avl K) (x : Option Ptr) (f : AvlNode K → AvlNode K) (y : Ptr) :
    (s.touch x f).nodes y = if x = some y then (s.nodes y).map f else s.nodes y := rfl

theorem map_keep_touch {f : AvlNode K → AvlNode K} (hf : ∀ n, Avl.keep (f n) = Avl.keep n) (z : Option Ptr) (y : Ptr) :
    ((s.touch z f).nodes y).map Avl.keep = (s.nodes y).map Avl.keep := by
  rw [touch_nodes]
  split
  · cases s.nodes y with
    | none => rfl
    | some n => rw [Option.map_some, Option.map_some, hf]; rfl
  · rfl

theorem modifyOr_eq {z : Option Ptr} (hz : ∀ p, z = some p → ∃ n, s.nodes p = some n) (f : AvlNode K → AvlNode K)
    (otherwise : Avl K) : s.modifyOr z f otherwise = some (if z = none then otherwise else s.touch z f) := by
  cases z with
  | none => rfl
  | some p =>
    obtain ⟨n, hn⟩ := hz p rfl
    exact modify_eq hn f

/-- What a neighbour or an end of the list says. -/
theorem nodes_modifyOr (z : Option Ptr) (f : AvlNode K → AvlNode K) {otherwise : Avl K}
    (hother : otherwise.nodes = s.nodes) (y : Ptr) : (if z = none then otherwise else s.touch z f).nodes y =
      if z = some y then (s.nodes y).map f else s.nodes y := by
  cases z with
  | none => rw [if_pos rfl, if_neg (by simp), hother]
  | some p => rw [if_neg (by simp), touch_nodes]

theorem Thread.exists_node {L : List Ptr} (h : Thread s L) (hx : x ∈ L) : ∃ n, s.nodes x = some n :=
  let ⟨n, hn, _⟩ := h.link x hx
  ⟨n, hn⟩

/-- A block is put between two others. -/
theorem Thread.splice (h : Thread s (P ++ Q)) (hnew : new ∉ P ++ Q)
    (hfirst : s'.first = if P.getLast? = none then some new else s.first)
    (hlast : s'.last = if Q.head? = none then some new else s.last) (hcount : s'.count = s.count + 1)
    (hself : ∃ n, s'.nodes new = some n ∧ n.next = Q.head? ∧ n.prev = P.getLast?)
    (hothers : ∀ y n, y ∈ P ++ Q → s.nodes y = some n → ∃ n', s'.nodes y = some n' ∧
      n'.next = (if P.getLast? = some y then some new else n.next) ∧
      n'.prev = if Q.head? = some y then some new else n.prev) : Thread s' (P ++ new :: Q) := by
  have hnodup : (P ++ new :: Q).Nodup := List.nodup_middle.2 (List.nodup_cons.2 ⟨hnew, h.nodup⟩)
  rw [List.mem_append, not_or] at hnew
  refine ⟨hnodup, ?_, ?_, ?_, fun y hy => ?_⟩
  · rw [hfirst, h.first]
    cases P with
    | nil => rfl
    | cons p P => simp
  · rw [hlast, h.last]
    cases Q with
    | nil => simp
    | cons q Q => simp
  · rw [hcount, h.count, List.length_append, List.length_append, List.length_cons, ← Nat.add_assoc,
      BitVec.ofNat_add _ 1]
    rfl
  · by_cases hyx : y = new
    · subst hyx
      obtain ⟨n, hn, hnext, hprev⟩ := hself
      exact ⟨n, hn, by rw [hnext, nextIn_append hnew.1], by rw [hprev, prevIn_append hnodup]⟩
    · have hy' : y ∈ P ++ Q := by
        rw [List.mem_append, List.mem_cons] at hy
        rw [List.mem_append]
        tauto
      obtain ⟨n, hn, hnext, hprev⟩ := h.link y hy'
      obtain ⟨n', hn', hnext', hprev'⟩ := hothers y n hy' hn
      refine ⟨n', hn', ?_, ?_⟩
      · rw [hnext', hnext, nextIn_with hnodup hyx]
      · rw [hprev', hprev, prevIn_with hnodup hyx]

theorem Thread.avl_insert_before (h : Thread s (P ++ x :: Q)) (hnew : new ∉ P ++ x :: Q) (hm : s.nodes new = some m) :
    ∃ s', s.avl_insert_before x new = some s' ∧ Thread s' (P ++ new :: x :: Q) ∧ Rethreads s s' := by
  obtain ⟨n, hn, -, hprev⟩ := h.link x (by simp)
  rw [prevIn_append h.nodup] at hprev
  have hx : x ∉ P := by
    have hnodup := h.nodup
    rw [List.nodup_middle, List.nodup_cons, List.mem_append, not_or] at hnodup
    exact hnodup.1.1
  have hnewx : new ≠ x := fun heq => hnew (by simp [heq])
  have hlastx : P.getLast? ≠ some x := fun heq => hx (List.mem_of_getLast? heq)
  have hlastnew : P.getLast? ≠ some new := fun heq => hnew (List.mem_append_left _ (List.mem_of_getLast? heq))
  rw [Avl.avl_insert_before, Fault.bind_of_some hn, hprev,
    Fault.bind_of_some (modifyOr_eq (fun p hp => h.exists_node (List.mem_append_left _ (List.mem_of_getLast? hp))) _ _)]
  generalize hs₁ : (if P.getLast? = none then { s with first := some new }
    else s.touch P.getLast? fun n => { n with next := some new } : Avl K) = s₁
  have hnodes₁ : ∀ y, s₁.nodes y = if P.getLast? = some y then (s.nodes y).map fun n => { n with next := some new }
      else s.nodes y := by
    intro y
    rw [← hs₁]
    exact nodes_modifyOr _ _ (by rfl) y
  have hfields₁ : s₁.first = (if P.getLast? = none then some new else s.first) ∧ s₁.last = s.last ∧
      s₁.count = s.count ∧ s₁.root = s.root := by
    rw [← hs₁]
    split <;> exact ⟨rfl, rfl, rfl, rfl⟩
  obtain ⟨hfirst₁, hlast₁, hcount₁, hroot₁⟩ := hfields₁
  have hm₁ : s₁.nodes new = some m := by rw [hnodes₁, if_neg hlastnew, hm]
  have hn₁ : s₁.nodes x = some n := by rw [hnodes₁, if_neg hlastx, hn]
  have hx₂ : (s₁.touch (some new) fun n => { n with prev := P.getLast?, next := some x }).nodes x = some n := by
    rw [touch_nodes, if_neg fun heq => hnewx (Option.some_inj.1 heq), hn₁]
  rw [Fault.bind_of_some (modify_eq hm₁ _), Fault.bind_of_some (modify_eq hx₂ _)]
  refine ⟨_, rfl, ?_, hroot₁, fun y => ?_⟩
  · refine h.splice hnew hfirst₁ ?_ (congrArg (· + 1) hcount₁) ?_ fun y n' hy hn' => ?_
    · rw [if_neg (by simp)]
      exact hlast₁
    · refine ⟨{ m with prev := P.getLast?, next := some x }, ?_, rfl, rfl⟩
      simp [touch_nodes, hm₁, hnewx.symm]
    · have hynew : new ≠ y := fun heq => hnew (heq ▸ hy)
      by_cases hyx : x = y
      · subst hyx
        obtain rfl := Option.some_inj.1 (hn.symm.trans hn')
        exact ⟨{ n with prev := some new }, by simp [touch_nodes, hn₁, hnewx], by simp [hlastx], by simp⟩
      · refine ⟨if P.getLast? = some y then { n' with next := some new } else n', ?_, ?_, ?_⟩
        · simp only [touch_nodes, Option.some.injEq, hyx, if_false, hynew, hnodes₁, hn', Option.map_some]
          split <;> rfl
        · split <;> rfl
        · simp only [List.head?_cons, Option.some.injEq, hyx, if_false]
          split <;> rfl
  · refine (map_keep_touch (by intro; rfl) _ y).trans ((map_keep_touch (by intro; rfl) _ y).trans ?_)
    rw [hnodes₁]
    split
    · cases s.nodes y <;> rfl
    · rfl

theorem Thread.avl_insert_after (h : Thread s (P ++ x :: Q)) (hnew : new ∉ P ++ x :: Q) (hm : s.nodes new = some m) :
    ∃ s', s.avl_insert_after x new = some s' ∧ Thread s' (P ++ x :: new :: Q) ∧ Rethreads s s' := by
  have hx : x ∉ P ++ Q := by
    have hnodup := h.nodup
    rw [List.nodup_middle, List.nodup_cons] at hnodup
    exact hnodup.1
  rw [List.mem_append, not_or] at hx
  obtain ⟨n, hn, hnext, -⟩ := h.link x (by simp)
  rw [nextIn_append hx.1] at hnext
  have hnewx : new ≠ x := fun heq => hnew (by simp [heq])
  have hheadx : Q.head? ≠ some x := fun heq => hx.2 (List.mem_of_head? heq)
  have hheadnew : Q.head? ≠ some new := fun heq => hnew (by simp [List.mem_of_head? heq])
  rw [Avl.avl_insert_after, Fault.bind_of_some hn, hnext,
    Fault.bind_of_some (modifyOr_eq (fun p hp => h.exists_node (by simp [List.mem_of_head? hp])) _ _)]
  generalize hs₁ : (if Q.head? = none then { s with last := some new }
    else s.touch Q.head? fun n => { n with prev := some new } : Avl K) = s₁
  have hnodes₁ : ∀ y, s₁.nodes y = if Q.head? = some y then (s.nodes y).map fun n => { n with prev := some new }
      else s.nodes y := by
    intro y
    rw [← hs₁]
    exact nodes_modifyOr _ _ (by rfl) y
  have hfields₁ : s₁.first = s.first ∧ s₁.last = (if Q.head? = none then some new else s.last) ∧
      s₁.count = s.count ∧ s₁.root = s.root := by
    rw [← hs₁]
    split <;> exact ⟨rfl, rfl, rfl, rfl⟩
  obtain ⟨hfirst₁, hlast₁, hcount₁, hroot₁⟩ := hfields₁
  have hm₁ : s₁.nodes new = some m := by rw [hnodes₁, if_neg hheadnew, hm]
  have hn₁ : s₁.nodes x = some n := by rw [hnodes₁, if_neg hheadx, hn]
  have hx₂ : (s₁.touch (some new) fun n => { n with prev := some x, next := Q.head? }).nodes x = some n := by
    rw [touch_nodes, if_neg fun heq => hnewx (Option.some_inj.1 heq), hn₁]
  rw [Fault.bind_of_some (modify_eq hm₁ _), Fault.bind_of_some (modify_eq hx₂ _)]
  have h' : Thread s ((P ++ [x]) ++ Q) := by simpa using h
  refine ⟨_, rfl, ?_, hroot₁, fun y => ?_⟩
  · have hlist : P ++ x :: new :: Q = (P ++ [x]) ++ new :: Q := by simp
    rw [hlist]
    refine h'.splice (by simpa using hnew) ?_ hlast₁ (congrArg (· + 1) hcount₁) ?_ fun y n' hy hn' => ?_
    · rw [if_neg (by simp)]
      exact hfirst₁
    · refine ⟨{ m with prev := some x, next := Q.head? }, ?_, rfl, by simp⟩
      simp [touch_nodes, hm₁, hnewx.symm]
    · have hynew : new ≠ y := fun heq => hnew (by simpa [heq] using hy)
      by_cases hyx : x = y
      · subst hyx
        obtain rfl := Option.some_inj.1 (hn.symm.trans hn')
        exact ⟨{ n with next := some new }, by simp [touch_nodes, hn₁, hnewx], by simp, by simp [hheadx]⟩
      · refine ⟨if Q.head? = some y then { n' with prev := some new } else n', ?_, ?_, ?_⟩
        · simp only [touch_nodes, Option.some.injEq, hyx, if_false, hynew, hnodes₁, hn', Option.map_some]
          split <;> rfl
        · simp only [List.getLast?_append, List.getLast?_singleton, Option.some_or, Option.some.injEq, hyx, if_false]
          split <;> rfl
        · split <;> rfl
  · refine (map_keep_touch (by intro; rfl) _ y).trans ((map_keep_touch (by intro; rfl) _ y).trans ?_)
    rw [hnodes₁]
    split
    · cases s.nodes y <;> rfl
    · rfl

theorem Thread.avl_remove (h : Thread s (P ++ x :: Q)) :
    ∃ s', s.avl_remove x = some s' ∧ Thread s' (P ++ Q) ∧ Rethreads s s' := by
  have hnodup := h.nodup
  have hx : x ∉ P ++ Q := by
    rw [List.nodup_middle, List.nodup_cons] at hnodup
    exact hnodup.1
  have hx' := hx
  rw [List.mem_append, not_or] at hx'
  obtain ⟨n, hn, hnext, hprev⟩ := h.link x (by simp)
  rw [nextIn_append hx'.1] at hnext
  rw [prevIn_append hnodup] at hprev
  rw [Avl.avl_remove, Fault.bind_of_some hn, hnext, hprev,
    Fault.bind_of_some (modifyOr_eq (fun p hp => h.exists_node (List.mem_append_left _ (List.mem_of_getLast? hp))) _ _)]
  generalize hs₁ : (if P.getLast? = none then { s with first := Q.head? }
    else s.touch P.getLast? fun p => { p with next := Q.head? } : Avl K) = s₁
  have hnodes₁ : ∀ y, s₁.nodes y = if P.getLast? = some y then (s.nodes y).map fun n => { n with next := Q.head? }
      else s.nodes y := by
    intro y
    rw [← hs₁]
    exact nodes_modifyOr _ _ (by rfl) y
  have hfields₁ : s₁.first = (if P.getLast? = none then Q.head? else s.first) ∧ s₁.last = s.last ∧
      s₁.count = s.count ∧ s₁.root = s.root := by
    rw [← hs₁]
    split <;> exact ⟨rfl, rfl, rfl, rfl⟩
  have hsecond : ∀ q, Q.head? = some q → ∃ m, s₁.nodes q = some m := by
    intro q hq
    obtain ⟨m, hm⟩ := h.exists_node (x := q) (by simp [List.mem_of_head? hq])
    rw [hnodes₁, hm]
    split <;> exact ⟨_, rfl⟩
  rw [Fault.bind_of_some (modifyOr_eq hsecond _ _)]
  generalize hs₂ : (if Q.head? = none then { s₁ with last := P.getLast? }
    else s₁.touch Q.head? fun p => { p with prev := P.getLast? } : Avl K) = s₂
  have hnodes₂ : ∀ y, s₂.nodes y = if Q.head? = some y then (s₁.nodes y).map fun n => { n with prev := P.getLast? }
      else s₁.nodes y := by
    intro y
    rw [← hs₂]
    exact nodes_modifyOr _ _ (by rfl) y
  have hfields₂ : s₂.first = s₁.first ∧ s₂.last = (if Q.head? = none then P.getLast? else s₁.last) ∧
      s₂.count = s₁.count ∧ s₂.root = s₁.root := by
    rw [← hs₂]
    split <;> exact ⟨rfl, rfl, rfl, rfl⟩
  obtain ⟨hfirst₁, hlast₁, hcount₁, hroot₁⟩ := hfields₁
  obtain ⟨hfirst₂, hlast₂, hcount₂, hroot₂⟩ := hfields₂
  refine ⟨_, rfl, ⟨(List.nodup_middle.1 hnodup).of_cons, ?_, ?_, ?_, fun y hy => ?_⟩, hroot₂.trans hroot₁, fun y => ?_⟩
  · dsimp only
    rw [hfirst₂, hfirst₁, h.first]
    cases P with
    | nil => rfl
    | cons p P => simp
  · dsimp only
    rw [hlast₂, hlast₁, h.last]
    cases Q with
    | nil => simp
    | cons q Q => simp
  · dsimp only
    rw [hcount₂, hcount₁, h.count, List.length_append, List.length_append, List.length_cons, ← Nat.add_assoc,
      BitVec.ofNat_add _ 1]
    exact BitVec.add_sub_cancel _ 1
  · have hyx : y ≠ x := fun heq => hx (heq ▸ hy)
    have hy' : y ∈ P ++ x :: Q := by
      rw [List.mem_append] at hy
      rw [List.mem_append, List.mem_cons]
      tauto
    obtain ⟨n', hn', hnext', hprev'⟩ := h.link y hy'
    rw [nextIn_without hnodup hyx, prevIn_without hnodup hyx, ← hnext', ← hprev']
    dsimp only
    rw [hnodes₂, hnodes₁, hn']
    split <;> split <;> exact ⟨_, rfl, rfl, rfl⟩
  · dsimp only
    rw [hnodes₂, hnodes₁]
    cases s.nodes y with
    | none => split <;> split <;> rfl
    | some n' => split <;> split <;> rfl

end Avl

end MpOlsr
