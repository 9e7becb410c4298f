import Mathlib.Data.List.Find
import MpOlsr.Lib.CellPrograms

/-!
# Records in blocks

A memory of blocks that is described by a list of records with different names: the block of a name is that of its
record (`blocks`).  The programs on the blocks are operations on the list: a new record, a change to a record
(`modify`), and the removal of a record.
-/

namespace Records

open DoublyLinked

variable {α β γ κ : Type} [DecidableEq α] [DecidableEq κ] {name : β → α} {block : β → γ} {key : β → κ}

/-- The memory that a list of records describes. -/
def blocks (name : β → α) (block : β → γ) (L : List β) (x : α) : Option γ :=
  (L.find? fun e => name e = x).map block

/-- Change the record with a name. -/
def modify (name : β → α) (x : α) (g : β → β) (L : List β) : List β := L.map fun e => if name e = x then g e else e

variable {L : List β} {e : β} {x : α} {g : β → β}

theorem find_name (hL : (L.map name).Nodup) (he : e ∈ L) : L.find? (fun e' => name e' = name e) = some e := by
  cases hfind : L.find? fun e' => name e' = name e with
  | none =>
    have := List.find?_eq_none.1 hfind e he
    simp at this
  | some e' =>
    have hname : name e' = name e := by simpa using List.find?_some hfind
    rw [List.inj_on_of_nodup_map hL (List.mem_of_find?_eq_some hfind) he hname]

theorem blocks_of_mem (hL : (L.map name).Nodup) (he : e ∈ L) : blocks name block L (name e) = some (block e) := by
  rw [blocks, find_name hL he]
  rfl

theorem blocks_isSome : (blocks name block L x).isSome ↔ x ∈ L.map name := by
  rw [blocks, Option.isSome_map, List.find?_isSome, List.mem_map]
  simp

theorem blocks_cons : blocks name block (e :: L) = Function.update (blocks name block L) (name e) (some (block e)) := by
  funext x
  by_cases hx : x = name e
  · subst hx
    rw [Function.update_self, blocks, List.find?_cons_of_pos (by simp)]
    rfl
  · rw [Function.update_of_ne hx, blocks, List.find?_cons_of_neg (by simpa using Ne.symm hx)]
    rfl

theorem blocks_erase : blocks name block (L.filter fun e => name e ≠ x) =
    Function.update (blocks name block L) x none := by
  funext y
  rw [blocks, List.find?_filter]
  by_cases hy : y = x
  · subst hy
    rw [Function.update_self, Option.map_eq_none_iff, List.find?_eq_none]
    intro e _
    simp
  · rw [Function.update_of_ne hy, blocks]
    congr 1
    refine List.find?_congr fun e _ => ?_
    by_cases he : name e = y
    · simp [he, hy]
    · simp [he]

/-! ### Changes -/

theorem modify_map {δ : Type} (f : β → δ) (hg : ∀ e, f (g e) = f e) : (modify name x g L).map f = L.map f := by
  rw [modify, List.map_map]
  refine List.map_congr_left fun e _ => ?_
  rw [Function.comp_apply]
  split
  · exact hg e
  · rfl

theorem mem_modify {e' : β} : e' ∈ modify name x g L ↔ ∃ e ∈ L, (if name e = x then g e else e) = e' := List.mem_map

theorem blocks_modify {f : γ → γ} (hL : (L.map name).Nodup) (hname : ∀ e, name (g e) = name e)
    (hblock : ∀ e, block (g e) = f (block e)) (he : e ∈ L) : blocks name block (modify name (name e) g L) =
      Function.update (blocks name block L) (name e) (some (f (block e))) := by
  funext y
  have hnames : ((modify name (name e) g L).map name) = L.map name := modify_map name hname
  by_cases hy : y ∈ L.map name
  · obtain ⟨e', he', rfl⟩ := List.mem_map.1 hy
    have hmem : (if name e' = name e then g e' else e') ∈ modify name (name e) g L := mem_modify.2 ⟨e', he', rfl⟩
    have hn : name (if name e' = name e then g e' else e') = name e' := by
      split
      · exact hname e'
      · rfl
    rw [← hn, blocks_of_mem (hnames ▸ hL) hmem, hn]
    by_cases heq : name e' = name e
    · have hee : e' = e := List.inj_on_of_nodup_map hL he' he heq
      subst hee
      rw [if_pos rfl, Function.update_self, hblock]
    · rw [if_neg heq, Function.update_of_ne heq, blocks_of_mem hL he']
  · have hnone : ∀ {L' : List β}, y ∉ L'.map name → blocks name block L' y = none := by
      intro L' h
      by_contra hne
      exact h (blocks_isSome.1 (Option.isSome_iff_ne_none.2 hne))
    have hne : y ≠ name e := by
      rintro rfl
      exact hy (List.mem_map_of_mem he)
    rw [hnone (hnames ▸ hy), Function.update_of_ne hne, hnone hy]

omit [DecidableEq α] in
theorem group_map {δ : Type} {name : δ → α} {key : δ → κ} (g : β → δ) :
    group key name (L.map g) = group (key ∘ g) (name ∘ g) L := by
  funext k
  rw [group, group, List.filter_map, List.map_map]
  rfl

/-- A search along a chain is a search in the records. -/
theorem search_group {D : Links α κ} {k : κ} (h : Holds D (group key name L)) {live : α → Bool}
    (hlive : ∀ e ∈ L, live (name e) = true) {test : α → Option Bool} {q : β → Bool}
    (htest : ∀ e ∈ L, test (name e) = some (q e)) {n : ℕ} (hn : (group key name L k).length ≤ n) :
    search (D.getNext live) test n (D.head k) = some ((L.find? fun e => key e = k && q e).map name) := by
  let p : α → Bool := fun y => (test y).getD false
  have hp : ∀ e ∈ L, p (name e) = q e := by
    intro e he
    simp only [p, htest e he, Option.getD_some]
  have hchain : ∀ y ∈ group key name L k, live y = true := by
    intro y hy
    obtain ⟨e, he, -, rfl⟩ := mem_group.1 hy
    exact hlive e he
  have htest' : ∀ y ∈ group key name L k, test y = some (p y) := by
    intro y hy
    obtain ⟨e, he, -, rfl⟩ := mem_group.1 hy
    rw [hp e he, htest e he]
  rw [h.search hchain htest' hn]
  congr 1
  rw [group, List.find?_map, List.find?_filter]
  congr 1
  refine List.find?_congr fun e he => ?_
  rw [Function.comp_apply, hp e he]
  by_cases hk : key e = k <;> simp [hk]

/-! ### Sweeps -/

/-- A walk along a list that keeps some records and takes the others off.  The invariant may refer to the cells that
were visited. -/
theorem walk_sweep {σ : Type} {step : σ → α → Option (σ × Option α)} {keep : β → Bool}
    {Inv : List α → List β → σ → Prop} {k : κ}
    (hL : (L.map name).Nodup)
    (hstep : ∀ L' e done kept rest s, L' ⊆ L → e ∈ L' → key e = k → group key name L k = done ++ name e :: rest →
      group key name L' k = kept ++ name e :: rest → Inv done L' s → ∃ s', step s (name e) = some (s', rest.head?) ∧
        Inv (done ++ [name e]) (if keep e then L' else L'.filter fun e' => name e' ≠ name e) s')
    {s : σ} {n : ℕ} (hn : (group key name L k).length ≤ n) (hs : Inv [] L s) :
    ∃ s', walk step n s (group key name L k).head? = some s' ∧
      Inv (group key name L k) (L.filter fun e => key e ≠ k || keep e) s' := by
  -- the list without the records that were swept so far
  let swept (done : List α) : List β := L.filter fun e => name e ∉ done || keep e
  let P : List α → σ → Prop := fun rest s => ∃ done, group key name L k = done ++ rest ∧ Inv done (swept done) s
  have hrun : ∀ x rest s, P (x :: rest) s → ∃ s', step s x = some (s', rest.head?) ∧ P rest s' := by
    intro x rest s hP
    obtain ⟨done, hsplit, hs⟩ := hP
    obtain ⟨e, he, hkey, rfl⟩ := mem_group.1 (show x ∈ group key name L k by rw [hsplit]; simp)
    have hnodup : (done ++ name e :: rest).Nodup := by
      rw [← hsplit]
      exact hL.sublist (List.filter_sublist.map name)
    have hdone : name e ∉ done := fun h => (List.nodup_append.1 hnodup).2.2 _ h _ List.mem_cons_self rfl
    have hmem : e ∈ swept done := List.mem_filter.2 ⟨he, by simp [hdone]⟩
    have hkept : ∃ kept, group key name (swept done) k = kept ++ name e :: rest := by
      obtain ⟨A, B, hchain, rfl, hB⟩ := List.map_eq_append_iff.1 hsplit
      have hrest : B.filter (fun b => name b ∉ A.map name || keep b) = B := by
        refine List.filter_eq_self.2 fun b hb => ?_
        have hmem : name b ∈ name e :: rest := hB ▸ List.mem_map_of_mem hb
        have hnotin : name b ∉ A.map name := fun h => (List.nodup_append.1 hnodup).2.2 _ h _ hmem rfl
        rw [decide_eq_true hnotin, Bool.true_or]
      refine ⟨(A.filter fun a => name a ∉ A.map name || keep a).map name, ?_⟩
      have hfilter : (swept (A.map name)).filter (fun e => key e = k) =
          (A ++ B).filter fun a => name a ∉ A.map name || keep a := by
        rw [← hchain, List.filter_filter, List.filter_filter]
        exact List.filter_congr fun b _ => Bool.and_comm _ _
      rw [group, hfilter, List.filter_append, hrest, List.map_append, hB]
    obtain ⟨kept, hkept⟩ := hkept
    obtain ⟨s', hs', hInv⟩ := hstep _ e done kept rest s (List.filter_subset_self L) hmem hkey hsplit hkept hs
    refine ⟨s', hs', done ++ [name e], by rw [hsplit]; simp, ?_⟩
    have hswept : (if keep e then swept done else (swept done).filter fun e' => name e' ≠ name e) =
        swept (done ++ [name e]) := by
      split
      · next hkeep =>
        refine List.filter_congr fun b hb => ?_
        by_cases hbe : name b = name e
        · rw [List.inj_on_of_nodup_map hL hb he hbe, hkeep, Bool.or_true, Bool.or_true]
        · simp [hbe]
      · next hkeep =>
        rw [List.filter_filter]
        refine List.filter_congr fun b hb => ?_
        by_cases hbe : name b = name e
        · rw [List.inj_on_of_nodup_map hL hb he hbe]
          simp [hkeep]
        · simp [hbe]
    rw [← hswept]
    exact hInv
  obtain ⟨s', hwalk, done, hdone, hs'⟩ := walk_spec P hrun hn ⟨[], rfl, by simpa [swept] using hs⟩
  refine ⟨s', hwalk, ?_⟩
  rw [List.append_nil] at hdone
  have hswept : swept done = L.filter fun e => key e ≠ k || keep e := by
    refine List.filter_congr fun e he => ?_
    have hiff : name e ∈ done ↔ key e = k := by
      rw [← hdone, mem_group]
      constructor
      · rintro ⟨e', he', hkey, hname⟩
        rw [← List.inj_on_of_nodup_map hL he' he hname, hkey]
      · intro hkey
        exact ⟨e, he, hkey, rfl⟩
    simp only [hiff]
  rw [← hswept, hdone]
  exact hs'

end Records
