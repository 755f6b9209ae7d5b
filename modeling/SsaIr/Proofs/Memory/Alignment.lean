import Mathlib
import SsaIr.Layout

/-!
# Addresses and sizes as numbers

Addresses and sizes are 64-bit words. The first lemmas read sums of words that do not wrap as sums
of numbers, and `toNat_and_not_mask` says that masking rounds an address down to a multiple of a
power of two.
-/

namespace SsaIr

/-! ## Sums that do not wrap -/

section Words

variable {a b : Int64}

theorem toInt_add_of_bounds (hlow : -0x8000000000000000 ≤ a.toInt + b.toInt)
    (hhigh : a.toInt + b.toInt < 0x8000000000000000) : (a + b).toInt = a.toInt + b.toInt := by
  rw [Int64.toInt_add]
  exact Int.bmod_eq_of_le hlow hhigh

theorem toInt_sub_of_bounds (hlow : -0x8000000000000000 ≤ a.toInt - b.toInt)
    (hhigh : a.toInt - b.toInt < 0x8000000000000000) : (a - b).toInt = a.toInt - b.toInt := by
  rw [Int64.toInt_sub]
  exact Int.bmod_eq_of_le hlow hhigh

theorem toInt_toInt64 {x : UInt64} (h : x.toNat < 0x8000000000000000) :
    x.toInt64.toInt = x.toNat := by
  show x.toBitVec.toInt = x.toBitVec.toNat
  exact BitVec.toInt_eq_toNat_of_lt (by show 2 * x.toNat < _; omega)

theorem toInt_toInt64_of_nonneg {x : UInt64} (h : 0 ≤ x.toInt64.toInt) :
    x.toInt64.toInt = x.toNat := by
  have hcond := x.toBitVec.toInt_eq_toNat_cond
  have hto : x.toInt64.toInt = x.toBitVec.toInt := rfl
  have hnat : x.toNat = x.toBitVec.toNat := rfl
  omega

theorem toInt_add_of_not_lt (h : 0 ≤ b.toInt) (hle : a.toInt ≤ (a + b).toInt) :
    (a + b).toInt = a.toInt + b.toInt := by
  rw [Int64.toInt_add] at hle ⊢
  have ha := a.toInt_lt
  have hb := b.toInt_lt
  have hlow := a.le_toInt
  rw [Int.bmod_def] at hle ⊢
  split at hle <;> omega

theorem toNat_toUInt64 (h : 0 ≤ a.toInt) : a.toUInt64.toNat = a.toInt.toNat := by
  show a.toBitVec.toNat = a.toBitVec.toInt.toNat
  have hcond := a.toBitVec.toInt_eq_toNat_cond
  have h' : 0 ≤ a.toBitVec.toInt := h
  omega

theorem toNat_add_toUInt64 {x : UInt64} (h : 0 ≤ a.toInt)
    (hlt : x.toNat + a.toInt.toNat < 0x10000000000000000) :
    (x + a.toUInt64).toNat = x.toNat + a.toInt.toNat := by
  rw [UInt64.toNat_add, toNat_toUInt64 h]
  exact Nat.mod_eq_of_lt hlt

theorem toNat_sub_of_toNat_le {x y : UInt64} (h : y.toNat ≤ x.toNat) :
    (x - y).toNat = x.toNat - y.toNat :=
  UInt64.toNat_sub_of_le _ _ (UInt64.le_iff_toNat_le.mpr h)

theorem toInt_sub_toInt64 {x y : UInt64} (h : y.toNat ≤ x.toNat)
    (hlt : x.toNat - y.toNat < 0x8000000000000000) :
    (x - y).toInt64.toInt = (x.toNat : Int) - y.toNat := by
  have hsub := toNat_sub_of_toNat_le h
  rw [toInt_toInt64 (by omega), hsub]
  omega

theorem toInt_max (a b : Int64) : (max a b).toInt = max a.toInt b.toInt := by
  show (if a ≤ b then b else a).toInt = _
  simp only [max_def, Int64.le_iff_toInt_le]
  split <;> rfl

theorem toInt_min (a b : Int64) : (min a b).toInt = min a.toInt b.toInt := by
  show (if a ≤ b then a else b).toInt = _
  simp only [min_def, Int64.le_iff_toInt_le]
  split <;> rfl

end Words

/-! ## Powers of two -/

theorem exists_pow_of_isPowerOfTwo {n : Int64} (h : isPowerOfTwo n = true) :
    ∃ k < 63, n.toInt = 2 ^ k := by
  unfold isPowerOfTwo at h
  simp only [Bool.and_eq_true, decide_eq_true_eq, beq_iff_eq] at h
  obtain ⟨hpos, hand⟩ := h
  have hpos : 0 < n.toInt := Int64.lt_iff_toInt_lt.mp hpos
  have hlt := n.toInt_lt
  have hnat : (n.toBitVec.toNat : Int) = n.toInt := by
    have hcond := n.toBitVec.toInt_eq_toNat_cond
    have hto : n.toBitVec.toInt = n.toInt := rfl
    omega
  have hbits : n.toBitVec.toNat &&& (n.toBitVec.toNat - 1) = 0 := by
    have hword := congrArg (fun w : Int64 => w.toBitVec.toNat) hand
    simp only [Int64.toBitVec_and, BitVec.toNat_and, Int64.toBitVec_sub, BitVec.toNat_sub] at hword
    have hone : ((2 : Nat) ^ 64 - (1 : Int64).toBitVec.toNat + n.toBitVec.toNat) % 2 ^ 64 =
        n.toBitVec.toNat - 1 := by
      have h1 : (1 : Int64).toBitVec.toNat = 1 := rfl
      omega
    rwa [hone] at hword
  obtain ⟨k, hk⟩ := (Nat.and_sub_one_eq_zero_iff_isPowerOfTwo (by omega)).mp hbits
  have hklt : k < 63 := by
    by_contra hle
    have := Nat.pow_le_pow_right (show 0 < 2 by decide) (not_lt.mp hle)
    omega
  exact ⟨k, hklt, by rw [← hnat, hk]; push_cast; rfl⟩

theorem and_not_mask {x k : Nat} (hx : x < 2 ^ 64) (hk : k < 64) :
    x &&& (2 ^ 64 - 1 - (2 ^ k - 1)) = x / 2 ^ k * 2 ^ k := by
  refine Nat.eq_of_testBit_eq fun i => ?_
  have hle : 2 ^ k - 1 < 2 ^ 64 := by
    have := Nat.pow_lt_pow_right (show 1 < 2 by decide) hk
    omega
  rw [Nat.sub_sub, Nat.add_comm 1, Nat.testBit_and, Nat.testBit_two_pow_sub_succ hle,
    Nat.testBit_two_pow_sub_one, Nat.testBit_mul_two_pow, Nat.testBit_div_two_pow]
  by_cases hi : k ≤ i
  · have hxi : 64 ≤ i → x.testBit i = false := fun h64 =>
      Nat.testBit_lt_two_pow (hx.trans_le (Nat.pow_le_pow_right (by decide) h64))
    by_cases h64 : i < 64
    · simp [hi, h64]
    · simp [hi, hxi (not_lt.mp h64)]
  · simp [hi, Nat.lt_of_not_le hi]

theorem toNat_and_not_mask (x : UInt64) {n : Int64} {k : Nat} (hk : k < 63) (hn : n.toInt = 2 ^ k) :
    (x &&& ~~~(n - 1).toUInt64).toNat = x.toNat / 2 ^ k * 2 ^ k := by
  have hpow : (0 : Int) < 2 ^ k := by positivity
  have hlt : (2 : Int) ^ k < 2 ^ 63 := pow_lt_pow_right₀ (by decide) hk
  have hsub : (n - 1).toInt = 2 ^ k - 1 := by
    rw [toInt_sub_of_bounds] <;> rw [hn, show (1 : Int64).toInt = 1 from rfl] <;> omega
  have hmask : (n - 1).toUInt64.toNat = 2 ^ k - 1 := by
    rw [toNat_toUInt64 (by omega), hsub]
    have : ((2 ^ k : Nat) : Int) = 2 ^ k := by push_cast; rfl
    omega
  rw [UInt64.toNat_and, UInt64.toNat_not, hmask]
  exact and_not_mask x.toNat_lt (by omega)

end SsaIr
