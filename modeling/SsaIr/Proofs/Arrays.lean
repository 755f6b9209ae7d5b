import Mathlib

/-!
# Reading updated arrays

The tables of the analyses and of the program graph are arrays read with a default. Each lemma says
what such a reading gives after one kind of update.
-/

namespace Array

variable {α β : Type} {i : Nat}

section

variable (xs : Array α)

/-- Beyond the end the default is read. -/
theorem getD_of_not_lt (h : ¬ i < xs.size) (d : α) : xs.getD i d = d := by
  rw [getD_eq_getD_getElem?, getElem?_eq_none (not_lt.mp h), Option.getD_none]

/-- Within the array its element is read. -/
theorem getD_of_lt (h : i < xs.size) (d : α) : xs.getD i d = xs[i] := by
  rw [getD_eq_getD_getElem?, getElem?_eq_getElem h, Option.getD_some]

/-- A set element is read back, and the others are as before. -/
theorem getD_setIfInBounds (i j : Nat) (v d : α) :
    (xs.setIfInBounds i v).getD j d = if i = j ∧ i < xs.size then v else xs.getD j d := by
  simp only [getD_eq_getD_getElem?, getElem?_setIfInBounds]
  by_cases h : i = j
  · subst h
    by_cases hi : i < xs.size <;> simp [hi]
  · simp [h]

/-- Modifying an element changes the reading at its index only. -/
theorem getD_modify (i j : Nat) (f : α → α) (d : α) :
    (xs.modify i f).getD j d = if i = j ∧ i < xs.size then f (xs.getD j d) else xs.getD j d := by
  simp only [getD_eq_getD_getElem?, getElem?_modify]
  by_cases h : i = j
  · subst h
    by_cases hi : i < xs.size <;> simp [hi]
  · simp [h]

/-- Beyond the end there is nothing to modify. -/
theorem modify_of_size_le (h : xs.size ≤ i) (f : α → α) : xs.modify i f = xs := by
  refine ext_getElem? fun j => ?_
  rw [getElem?_modify]
  split
  · next hij => rw [← hij, getElem?_eq_none h, Option.map_none]
  · rfl

end

section

variable {P : α → Prop} {xs : Array α} (h : ∀ x ∈ xs, P x)
include h

/-- What holds of all elements and of the default holds of every reading. -/
theorem getD_of_forall {d : α} (hd : P d) (i : Nat) : P (xs.getD i d) := by
  by_cases hi : i < xs.size
  · rw [getD_of_lt xs hi]
    exact h _ (getElem_mem hi)
  · rw [getD_of_not_lt xs hi]
    exact hd

/-- A property of all elements survives pushing one that has it. -/
theorem forall_push {v : α} (hv : P v) : ∀ x ∈ xs.push v, P x := by
  intro x hx
  rcases mem_push.mp hx with hx | rfl
  · exact h x hx
  · exact hv

/-- A property of all elements survives a change that keeps it. -/
theorem forall_modify {f : α → α} (hf : ∀ x, P x → P (f x)) (i : Nat) :
    ∀ x ∈ xs.modify i f, P x := by
  intro x hx
  obtain ⟨j, hj, rfl⟩ := mem_iff_getElem.mp hx
  rw [size_modify] at hj
  have hxs : P xs[j] := h _ (getElem_mem hj)
  rw [getElem_modify]
  split
  · exact hf _ hxs
  · exact hxs

end

theorem getD_replicate_self (n i : Nat) (d : α) : (replicate n d).getD i d = d := by
  simp only [getD_eq_getD_getElem?, getElem?_replicate]
  split <;> rfl

/-- A pushed element is read at the old size. -/
theorem getD_push (xs : Array α) (v : α) (i : Nat) (d : α) :
    (xs.push v).getD i d = if i = xs.size then v else xs.getD i d := by
  simp only [getD_eq_getD_getElem?, getElem?_push]
  split <;> simp_all

/-- A reading that the default cannot give is of an element. -/
theorem lt_size_of_getD {p : α → Prop} {xs : Array α} {d : α} (h : p (xs.getD i d))
    (hd : ¬ p d) : i < xs.size := by
  by_contra hi
  rw [getD_of_not_lt _ hi] at h
  exact hd h

/-- An aspect that a pushed element shares with the default stays as it is. -/
theorem apply_getD_push (g : α → β) (xs : Array α) {v d : α} (h : g v = g d) (i : Nat) :
    g ((xs.push v).getD i d) = g (xs.getD i d) := by
  rw [getD_push]
  split
  · next hi => rw [h, getD_of_not_lt _ hi.symm.le.not_gt]
  · rfl

/-- An aspect that a change leaves alone stays as it is. -/
theorem apply_getD_modify (g : α → β) (xs : Array α) {f : α → α} (hf : ∀ x, g (f x) = g x)
    (i j : Nat) (d : α) : g ((xs.modify i f).getD j d) = g (xs.getD j d) := by
  rw [getD_modify]
  split
  · exact hf _
  · rfl

/-- A change acts on an aspect of the element modified. -/
theorem apply_getD_modify_of_lt (g : α → β) {xs : Array α} {f : α → α} {k : β → β}
    (hf : ∀ x, g (f x) = k (g x)) (hi : i < xs.size) (j : Nat) (d : α) {p : Prop} [Decidable p]
    (hp : p ↔ i = j) : g ((xs.modify i f).getD j d) = if p then k (g (xs.getD j d))
    else g (xs.getD j d) := by
  simp only [getD_modify, hi, and_true, hp]
  split
  · exact hf _
  · rfl

theorem nodup_push {xs : Array α} {v : α} (h : xs.toList.Nodup) (hv : v ∉ xs) :
    (xs.push v).toList.Nodup := by
  rw [toList_push, List.nodup_append]
  refine ⟨h, List.nodup_singleton v, fun x hx y hy hxy => hv ?_⟩
  rw [← List.mem_singleton.mp hy, ← hxy]
  exact mem_toList_iff.mp hx

/-- Mapping commutes with reading. -/
theorem getD_map (f : α → β) (xs : Array α) (i : Nat) (d : α) :
    (xs.map f).getD i (f d) = f (xs.getD i d) := by
  simp only [getD_eq_getD_getElem?, getElem?_map]
  cases xs[i]? <;> rfl

/-- Mapping turns a change of an element into the change of its image. -/
theorem map_modify (g : α → β) {f : α → α} {h : β → β} (xs : Array α) (i : Nat)
    (hf : ∀ x, g (f x) = h (g x)) : (xs.modify i f).map g = (xs.map g).modify i h := by
  refine ext_getElem? fun j => ?_
  simp only [getElem?_map, getElem?_modify]
  by_cases hij : i = j
  · simp only [hij, if_true]
    cases xs[j]? with
    | none => rfl
    | some x => simp [hf]
  · simp only [hij, if_false]

theorem modify_id (xs : Array α) (i : Nat) : xs.modify i (fun x => x) = xs := by
  refine ext_getElem? fun j => ?_
  rw [getElem?_modify]
  split <;> simp

/-- A map that forgets a change does not see it. -/
theorem map_modify_of_forget (g : α → β) {f : α → α} (xs : Array α) (i : Nat)
    (hf : ∀ x, g (f x) = g x) : (xs.modify i f).map g = xs.map g := by
  rw [map_modify (h := fun y => y) g xs i hf, modify_id]

theorem mem_take_succ {xs : Array α} {x : α} (h : xs[i]? = some x) {y : α} :
    y ∈ xs.toList.take (i + 1) ↔ y ∈ xs.toList.take i ∨ y = x := by
  rw [List.take_add_one, getElem?_toList, h, List.mem_append]
  simp

/-- A member comes before position `k` if it is among the first `k`. -/
theorem idxOf?_getD_lt_iff [DecidableEq α] {xs : Array α} {x : α} (hx : x ∈ xs)
    {k : Nat} : (xs.idxOf? x).getD 0 < k ↔ x ∈ xs.toList.take k := by
  have hmem := hx.val
  have hidx : xs.idxOf? x = some (xs.toList.idxOf x) := by
    rw [← Array.idxOf?_toList, List.idxOf?_eq_some_iff]
    have hlt := List.idxOf_lt_length_of_mem hmem
    refine ⟨hlt, by simp, fun j hj => ?_⟩
    have hne := List.not_of_lt_findIdx hj
    simpa using hne
  rw [hidx, Option.getD_some, List.mem_take_iff_idxOf_lt hmem]

end Array

/-- What precedes an element that does not repeat stands before it. -/
theorem List.mem_of_pair_sublist {α : Type} {x y : α} {pre post : List α}
    (h : [x, y].Sublist (pre ++ y :: post)) (hnodup : (pre ++ y :: post).Nodup) : x ∈ pre := by
  induction pre with
  | nil =>
    have hy := (List.nodup_cons.mp hnodup).1
    cases h with
    | cons _ h => exact absurd (h.subset (by simp)) hy
    | cons_cons _ h => exact absurd (h.subset (by simp)) hy
  | cons z pre ih =>
    cases h with
    | cons _ h => exact .tail _ (ih h (List.nodup_cons.mp hnodup).2)
    | cons_cons _ _ => exact .head _

/-- The `k`-th element that passes a filter has `k` such before it. -/
theorem List.getElem?_filter_split {α : Type} {q : α → Bool} {l : List α} {k : Nat} {x : α}
    (h : (l.filter q)[k]? = some x) :
    ∃ pre post, l = pre ++ x :: post ∧ (pre.filter q).length = k := by
  induction l generalizing k with
  | nil => simp at h
  | cons y l ih =>
    cases hy : q y with
    | false =>
      rw [List.filter_cons_of_neg (by simp [hy])] at h
      obtain ⟨pre, post, rfl, hlen⟩ := ih h
      exact ⟨y :: pre, post, rfl, by rw [List.filter_cons_of_neg (by simp [hy]), hlen]⟩
    | true =>
      rw [List.filter_cons_of_pos hy] at h
      cases k with
      | zero =>
        cases h
        exact ⟨[], l, rfl, rfl⟩
      | succ k =>
        obtain ⟨pre, post, rfl, hlen⟩ := ih h
        exact ⟨y :: pre, post, rfl, by rw [List.filter_cons_of_pos hy, List.length_cons, hlen]⟩
