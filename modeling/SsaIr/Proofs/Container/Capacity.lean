import SsaIr.Proofs.Container.FiniteMap

/-!
# How large hash tables get

A table is only built anew with twice the slots when its entries take half of them, so that marks of
removed entries never make it grow: `capacity_bounded`. Nothing here depends on how keys are hashed
or compared.
-/

namespace SsaIr

def TableReply.isInsertion {κ ν : Type} : TableReply κ ν → Bool
  | stored (.ok true) => true
  | _ => false

namespace HashTable

variable {κ ν : Type} {r : KeyRules κ} {t : HashTable κ ν}

/-- One more entry would take more than three quarters of the slots, which is when a new key makes
the table be built anew. -/
def Crowded (t : HashTable κ ν) : Prop := t.capacity * 3 < (t.size + t.removed + 1) * 4

theorem withRoom_of_not_crowded (h : ¬ t.Crowded) : t.withRoom r = t := if_neg h

/-! ## One request -/

theorem capacity_serve (r : KeyRules κ) (t : HashTable κ ν) (q : TableRequest κ ν) :
    (t.serve r q).2.capacity = t.capacity ∨ (t.serve r q).2.capacity = t.rebuiltCapacity := by
  have hroom :
      (t.withRoom r).capacity = t.capacity ∨ (t.withRoom r).capacity = t.rebuiltCapacity := by
    unfold withRoom
    split
    · exact .inr ((foldl_store_grows ..).1.trans (capacity_ofCapacity _))
    · exact .inl rfl
  cases q with
  | put k v =>
    show (t.put r k v).2.capacity = _ ∨ (t.put r k v).2.capacity = _
    unfold put
    split
    · exact .inl Array.size_modify
    · split
      · exact hroom
      · rwa [(store_grows ..).1]
  | remove k =>
    left
    show (t.remove r k).2.capacity = _
    unfold remove
    split
    · rfl
    · exact Array.size_setIfInBounds
  | clear => exact .inl (capacity_ofCapacity _)
  | _ => exact .inl rfl

/-! ## Any number of requests -/

theorem two_dvd_slotsFor (least : Nat) {slots : Nat} (h : 2 ∣ slots) :
    2 ∣ slotsFor least slots := by
  fun_induction slotsFor least slots with
  | case1 => exact h
  | case2 _ _ ih => exact ih (Nat.dvd_mul_right ..)

theorem le_slotsFor (least : Nat) {slots : Nat} (h : 0 < slots) :
    least ≤ slotsFor least slots * 3 := by
  fun_induction slotsFor least slots with
  | case1 slots hstop => omega
  | case2 _ _ ih => exact ih (by omega)

/-- The number of slots is even, so a table that gets twice as many has entries in half of them. -/
theorem capacity_serveAll_le (heven : 2 ∣ t.capacity) {most : Nat} (qs : List (TableRequest κ ν))
    (hlive : ∀ pre, pre <+: qs → (t.serveAll r pre).2.size ≤ most) :
    (t.serveAll r qs).2.capacity ≤ max t.capacity (4 * most) := by
  induction qs generalizing t with
  | nil => exact Nat.le_max_left ..
  | cons q qs ih =>
    have hsize : t.size ≤ most := hlive [] List.nil_prefix
    have hstep :
        2 ∣ (t.serve r q).2.capacity ∧ (t.serve r q).2.capacity ≤ max t.capacity (4 * most) := by
      rcases capacity_serve r t q with heq | heq
      · rw [heq]
        exact ⟨heven, Nat.le_max_left ..⟩
      · rw [heq, rebuiltCapacity]
        split <;> omega
    have hrest :=
      ih hstep.1 fun pre hpre => hlive (q :: pre) (List.cons_prefix_cons.mpr ⟨rfl, hpre⟩)
    exact hrest.trans (max_le hstep.2 (Nat.le_max_right ..))

/-- Without removals, a table with room for all that is inserted and one entry more stays as it
is. -/
theorem serveAll_of_room (qs : List (TableRequest κ ν)) (hkeep : ∀ k, .remove k ∉ qs)
    (hclean : t.removed = 0)
    (hroom : (t.size + (t.serveAll r qs).1.countP TableReply.isInsertion + 1) * 4 ≤
      t.capacity * 3) :
    ¬ (t.serveAll r qs).2.Crowded ∧ (t.serveAll r qs).2.capacity = t.capacity := by
  induction qs generalizing t with
  | nil =>
    refine ⟨?_, rfl⟩
    show ¬ t.capacity * 3 < (t.size + t.removed + 1) * 4
    rw [hclean]
    exact not_lt.mpr hroom
  | cons q qs ih =>
    have hcount : (t.serveAll r (q :: qs)).1.countP TableReply.isInsertion =
        ((t.serve r q).2.serveAll r qs).1.countP TableReply.isInsertion +
          (TableReply.isInsertion (t.serve r q).1).toNat := by
      show List.countP _ ((t.serve r q).1 :: ((t.serve r q).2.serveAll r qs).1) = _
      rw [List.countP_cons, Bool.toNat, Bool.cond_eq_ite]
    rw [hcount] at hroom
    have hstep : (t.serve r q).2.removed = 0 ∧ (t.serve r q).2.capacity = t.capacity ∧
        (t.serve r q).2.size ≤ t.size + (TableReply.isInsertion (t.serve r q).1).toNat := by
      have hsame : t.withRoom r = t := withRoom_of_not_crowded (by unfold Crowded; omega)
      cases q with
      | put k v =>
        show (t.put r k v).2.removed = 0 ∧ (t.put r k v).2.capacity = _ ∧
          (t.put r k v).2.size ≤ t.size + (TableReply.isInsertion (.stored (t.put r k v).1)).toNat
        unfold put
        rw [hsame]
        cases t.find? r k with
        | some i => exact ⟨hclean, Array.size_modify, Nat.le_add_right ..⟩
        | none =>
          cases r.storedForm k with
          | none => exact ⟨hclean, rfl, Nat.le_add_right ..⟩
          | some key =>
            obtain ⟨hcap, hsize, hmarks⟩ := store_grows r t key v
            exact ⟨Nat.le_zero.mp (hclean ▸ hmarks), hcap, hsize⟩
      | remove k => exact absurd (.head _) (hkeep k)
      | clear => exact ⟨rfl, capacity_ofCapacity _, Nat.zero_le _⟩
      | _ => exact ⟨hclean, rfl, Nat.le_add_right ..⟩
    obtain ⟨hclean', hcap, hsize⟩ := hstep
    have hrest := ih (t := (t.serve r q).2) (fun k hk => hkeep k (.tail _ hk)) hclean'
      (by rw [hcap]; omega)
    exact ⟨hrest.1, hrest.2.trans hcap⟩

/-- A table does not grow because of removals: whatever is put, removed and cleared, it has at most
four slots for each of the most entries that it had at once, or as many as when it was new. And it
is not built anew before it has taken the number of entries it was made for, if four times that
number is a word. -/
theorem capacity_bounded (r : KeyRules κ) (wanted : Int64) (qs : List (TableRequest κ ν)) :
    (∀ most, (∀ pre, pre <+: qs → ((new wanted : HashTable κ ν).serveAll r pre).2.size ≤ most) →
      ((new wanted : HashTable κ ν).serveAll r qs).2.capacity ≤
        max (new wanted : HashTable κ ν).capacity (4 * most)) ∧
    (wanted.toInt < 2 ^ 61 → (∀ k, .remove k ∉ qs) →
      ((new wanted : HashTable κ ν).serveAll r qs).1.countP TableReply.isInsertion <
        wanted.toInt.toNat →
      ¬ ((new wanted : HashTable κ ν).serveAll r qs).2.Crowded ∧
        ((new wanted : HashTable κ ν).serveAll r qs).2.capacity =
          (new wanted : HashTable κ ν).capacity) := by
  have hnew : (new wanted : HashTable κ ν).capacity =
      slotsFor (wanted * 4).toInt.toNat leastCapacity := capacity_ofCapacity _
  refine ⟨fun most hlive => capacity_serveAll_le ?_ qs hlive, fun hsmall hkeep hcount => ?_⟩
  · rw [hnew]
    exact two_dvd_slotsFor _ (by decide)
  · have hroom := le_slotsFor (wanted * 4).toInt.toNat (show 0 < leastCapacity by decide)
    have hfour : (wanted * 4).toInt = wanted.toInt * 4 := by
      rw [Int64.toInt_mul]
      exact Int.bmod_eq_of_le (by simp; omega) (by simp; omega)
    refine serveAll_of_room qs hkeep rfl ?_
    rw [hnew]
    show (0 + _ + 1) * 4 ≤ _
    omega

/-- Seven keys, each removed before the next is put. -/
def churn : List (TableRequest UInt64 Unit) :=
  [1, 2, 3, 4, 5, 6, 7].flatMap fun k => [.put k (), .remove k]

theorem capacity_bounded_churn :
    ((new 4 : HashTable UInt64 Unit).serveAll .word churn).2.capacity ≤ 8 ∧
    ¬ ((new 4 : HashTable UInt64 Unit).serveAll .word
      [.put 1 (), .put 2 (), .put 1 ()]).2.Crowded := by
  have hnew : (new 4 : HashTable UInt64 Unit) = ofCapacity 8 := by
    unfold new
    rw [slotsFor]
    rfl
  refine ⟨((capacity_bounded .word 4 churn).1 1 ?_).trans ?_,
    ((capacity_bounded .word 4 _).2 (by decide) (by simp) ?_).1⟩
  · simp only [← List.mem_inits]
    rw [hnew]
    decide +kernel
  · rw [hnew]
    decide
  · rw [hnew]
    decide +kernel

end HashTable

end SsaIr
