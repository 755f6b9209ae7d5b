import SsaIr.Container.Bitset
import SsaIr.Proofs.Arrays

/-!
# Members of bitsets

What adding a number does to the members, and what the list of members holds, which is found by
clearing the lowest bit of each word again and again. Read `contains_insert` and `mem_toList` first.
-/

namespace SsaIr

open List

namespace Bitset

theorem bit_toNat (i : Nat) : (bit i).toNat = 2 ^ (i % 64) := by
  have hlt : i % 64 < 64 := Nat.mod_lt _ (by decide)
  have hpow : 2 ^ (i % 64) < 2 ^ 64 := Nat.pow_lt_pow_right (by decide) hlt
  have hsmall : (i % 64).toUInt64.toNat = i % 64 := by
    rw [Nat.toUInt64_eq, UInt64.toNat_ofNat']
    exact Nat.mod_eq_of_lt (by omega)
  rw [bit, UInt64.toNat_shiftLeft, hsmall, Nat.mod_eq_of_lt hlt, UInt64.toNat_one,
    Nat.shiftLeft_eq, Nat.one_mul, Nat.mod_eq_of_lt hpow]

theorem and_bit_ne_zero (w : UInt64) (i : Nat) : (w &&& bit i != 0) = w.toNat.testBit (i % 64) := by
  have hzero : (w &&& bit i != 0) = ((w &&& bit i).toNat != 0) := by
    rw [Bool.eq_iff_iff, bne_iff_ne, bne_iff_ne, ← UInt64.toNat_zero, Ne, Ne, UInt64.toNat_inj]
  rw [hzero, UInt64.toNat_and, bit_toNat, Nat.and_two_pow]
  cases w.toNat.testBit (i % 64) with
  | false => rw [Bool.toNat_false, Nat.zero_mul]; rfl
  | true =>
    rw [Bool.toNat_true, Nat.one_mul, bne_iff_ne]
    exact Nat.ne_of_gt (Nat.two_pow_pos _)

theorem contains_eq (b : Bitset) (i : Nat) :
    b.contains i = (b.words.getD (i / 64) 0).toNat.testBit (i % 64) :=
  and_bit_ne_zero _ _

theorem contains_empty (size i : Nat) : (empty size).contains i = false := by
  rw [contains_eq, empty, Array.getD_replicate_self, UInt64.toNat_zero, Nat.zero_testBit]

theorem contains_insert (b : Bitset) {i : Nat} (hi : i / 64 < b.words.size) (j : Nat) :
    (b.insert i).contains j = (b.contains j || i == j) := by
  rw [contains_eq, contains_eq, insert, Array.getD_modify]
  by_cases hword : i / 64 = j / 64
  · rw [if_pos ⟨hword, hi⟩, UInt64.toNat_or, Nat.testBit_or, bit_toNat, Nat.testBit_two_pow]
    congr 1
    rw [Bool.eq_iff_iff, decide_eq_true_eq, beq_iff_eq]
    omega
  · rw [if_neg fun h => hword h.1]
    have hne : (i == j) = false := by
      rw [beq_eq_false_iff_ne]
      rintro rfl
      exact hword rfl
    rw [hne, Bool.or_false]

/-! ## The lowest bit -/

/-- Subtracting one changes the lowest bit that is set and those below it, so that all others
stay. -/
theorem testBit_and_pred {n z : Nat} (hz : n.testBit z = true) (hlow : ∀ i < z, n.testBit i = false)
    (i : Nat) : (n &&& (n - 1)).testBit i = (n.testBit i && decide (i ≠ z)) := by
  have hrest : n % 2 ^ z = 0 := Nat.eq_of_testBit_eq fun i => by
    rw [Nat.testBit_mod_two_pow, Nat.zero_testBit]
    by_cases hi : i < z
    · rw [hlow i hi, Bool.and_false]
    · rw [decide_eq_false hi, Bool.false_and]
  have hodd : n / 2 ^ z % 2 = 1 := by
    rw [← Nat.zero_add z, ← Nat.testBit_div_two_pow, Nat.testBit_zero] at hz
    exact of_decide_eq_true hz
  obtain ⟨m, hm⟩ : ∃ m, n / 2 ^ z = 2 * m + 1 := ⟨n / 2 ^ z / 2, by omega⟩
  have hpos := Nat.two_pow_pos z
  have hn : n = 2 ^ z * (2 * m + 1) := by
    rw [← hm, Nat.mul_div_cancel' (Nat.dvd_of_mod_eq_zero hrest)]
  have hpred : n - 1 = 2 ^ z * (2 * m) + (2 ^ z - 1) := by
    rw [hn, Nat.mul_succ]
    omega
  rw [Nat.testBit_and, hpred, Nat.testBit_two_pow_mul_add _ (Nat.sub_lt hpos Nat.one_pos)]
  split
  · next hi => rw [hlow i hi, Bool.false_and, Bool.false_and]
  · next hi =>
    rw [hn, Nat.testBit_two_pow_mul, decide_eq_true (not_lt.mp hi), Bool.true_and]
    obtain ⟨k, rfl⟩ := Nat.exists_eq_add_of_le (not_lt.mp hi)
    cases k with
    | zero => simp
    | succ k =>
      have hhalf : (2 * m + 1) / 2 = m := by omega
      simp [Nat.testBit_succ, hhalf]

theorem lt_of_testBit {w : UInt64} {i : Nat} (h : w.toNat.testBit i = true) : i < 64 := by
  by_contra hge
  rw [Nat.testBit_lt_two_pow (w.toNat_lt.trans_le (Nat.pow_le_pow_right (by decide) (by omega)))]
    at h
  cases h

theorem trailingZeros_spec {w : UInt64} (h : w ≠ 0) : w.toNat.testBit (trailingZeros w) = true ∧
    ∀ i < trailingZeros w, w.toNat.testBit i = false := by
  have hmod : ∀ {i}, i < 64 → (w &&& bit i != 0) = w.toNat.testBit i := fun {i} hi => by
    rw [and_bit_ne_zero, Nat.mod_eq_of_lt hi]
  obtain ⟨i, hi⟩ := Nat.exists_testBit_of_ne_zero fun h0 => h (UInt64.toNat_inj.mp h0)
  have hexists : ∃ i ∈ range 64, (w &&& bit i != 0) = true :=
    ⟨i, mem_range.mpr (lt_of_testBit hi), by rwa [hmod (lt_of_testBit hi)]⟩
  have hfound := findIdx_lt_length_of_exists hexists
  have hbit := findIdx_getElem (w := hfound)
  rw [getElem_range] at hbit
  rw [length_range] at hfound
  refine ⟨(hmod hfound).symm.trans hbit, fun j hj => ?_⟩
  have hclear := not_of_lt_findIdx hj
  rw [getElem_range] at hclear
  exact (hmod (hj.trans hfound)).symm.trans hclear

theorem testBit_and_pred_word {w : UInt64} (h : w ≠ 0) (i : Nat) :
    (w &&& (w - 1)).toNat.testBit i = (w.toNat.testBit i && decide (i ≠ trailingZeros w)) := by
  obtain ⟨hbit, hlow⟩ := trailingZeros_spec h
  have hone : (1 : UInt64) ≤ w := UInt64.le_iff_toNat_le.mpr
    (Nat.pos_of_ne_zero fun h0 => h (UInt64.toNat_inj.mp h0))
  rw [UInt64.toNat_and, UInt64.toNat_sub_of_le _ _ hone]
  exact testBit_and_pred hbit hlow i

theorem mem_ones (w : UInt64) (i : Nat) : i ∈ ones w ↔ w.toNat.testBit i = true := by
  fun_induction ones w with
  | case1 => simp
  | case2 w hw ih =>
    obtain ⟨hbit, -⟩ := trailingZeros_spec hw
    rw [mem_cons, ih, testBit_and_pred_word hw, Bool.and_eq_true, decide_eq_true_eq]
    grind

theorem ones_sorted (w : UInt64) : (ones w).Pairwise (· < ·) := by
  fun_induction ones w with
  | case1 => exact .nil
  | case2 w hw ih =>
    obtain ⟨-, hlow⟩ := trailingZeros_spec hw
    refine .cons (fun i hi => ?_) ih
    rw [mem_ones, testBit_and_pred_word hw, Bool.and_eq_true, decide_eq_true_eq] at hi
    refine (lt_or_gt_of_ne hi.2).resolve_left fun hlt => ?_
    cases (hlow i hlt).symm.trans hi.1

theorem lt_of_mem_ones {w : UInt64} {i : Nat} (h : i ∈ ones w) : i < 64 :=
  lt_of_testBit ((mem_ones w i).mp h)

theorem mem_toList (b : Bitset) (i : Nat) : i ∈ b.toList ↔ b.contains i = true := by
  simp only [toList, mem_flatMap, mem_range, mem_map]
  rw [contains_eq]
  constructor
  · rintro ⟨k, -, j, hj, rfl⟩
    have hlt := lt_of_mem_ones hj
    rwa [show (64 * k + j) / 64 = k by omega, show (64 * k + j) % 64 = j by omega, ← mem_ones]
  · intro h
    refine ⟨i / 64, ?_, i % 64, (mem_ones _ _).mpr h, Nat.div_add_mod i 64⟩
    by_contra hge
    rw [Array.getD_of_not_lt _ hge, UInt64.toNat_zero, Nat.zero_testBit] at h
    cases h

theorem toList_sorted (b : Bitset) : b.toList.Pairwise (· < ·) := by
  refine pairwise_flatMap.mpr ⟨fun k _ => ?_, pairwise_lt_range.imp fun {k l} hkl x hx y hy => ?_⟩
  · exact pairwise_map.mpr ((ones_sorted _).imp (Nat.add_lt_add_left · _))
  · obtain ⟨i, hi, rfl⟩ := mem_map.mp hx
    obtain ⟨j, -, rfl⟩ := mem_map.mp hy
    have hlt := lt_of_mem_ones hi
    omega

theorem words_insert (b : Bitset) (i : Nat) : (b.insert i).words.size = b.words.size :=
  Array.size_modify

theorem eq_of_contains {a b : Bitset} (hsize : a.size = b.size)
    (hwords : a.words.size = b.words.size)
    (h : ∀ i, a.contains i = b.contains i) : a = b := by
  obtain ⟨n, ws⟩ := a
  obtain ⟨m, vs⟩ := b
  obtain rfl : n = m := hsize
  congr 1
  refine Array.ext hwords fun k hk hk' => ?_
  rw [← UInt64.toNat_inj]
  refine Nat.eq_of_testBit_eq fun i => ?_
  by_cases hi : i < 64
  · have hbit := h (64 * k + i)
    simp only [contains_eq] at hbit
    rw [show (64 * k + i) / 64 = k by omega, show (64 * k + i) % 64 = i by omega,
      Array.getD_of_lt _ hk, Array.getD_of_lt _ hk'] at hbit
    exact hbit
  · have hclear : ∀ w : UInt64, w.toNat.testBit i = false := fun w =>
      Bool.eq_false_iff.mpr fun hbit => hi (lt_of_testBit hbit)
    rw [hclear, hclear]

end Bitset

end SsaIr
