import Mathlib.Tactic.Ring
import SsaIr.Number.Binary

/-!
# Integers as floating-point numbers

Rounding an integer that is a floating-point number changes nothing: its leading bit gives the
exponent, and the bits below the last place are zero. Read `FloatClass.Denotes` first;
`FloatFormat.ofInt_denotes` is the result.
-/

namespace SsaIr

/-- The pattern is that of an integer: `n = ± significand * 2 ^ exponent`. -/
def FloatClass.Denotes : FloatClass → Int → Prop
  | .finite negative significand exponent, n =>
    n * 2 ^ (-exponent).toNat =
      (if negative then -significand else significand : Int) * 2 ^ exponent.toNat
  | _, _ => False

instance (x : FloatClass) (n : Int) : Decidable (x.Denotes n) := by
  cases x <;> unfold FloatClass.Denotes <;> infer_instance

theorem FloatClass.Denotes.unique {x : FloatClass} {n k : Int} (hn : x.Denotes n)
    (hk : x.Denotes k) : n = k := by
  cases x with
  | finite => exact mul_right_cancel₀ (pow_ne_zero _ two_ne_zero) (Eq.trans hn (Eq.symm hk))
  | nan | infinite => exact hn.elim

def Short (a : Nat) : Prop := ∃ q k, a = q * 2 ^ k ∧ q < 2 ^ 53

namespace FloatFormat

theorem significand_lt {bits significand : Nat} {negative : Bool} {exponent : Int}
    (h : binary64.classify bits = .finite negative significand exponent) :
    significand < 2 ^ 53 := by
  have hfraction : bits % Nat.pow 2 binary64.fractionBits < 2 ^ 52 := Nat.mod_lt _ (by decide)
  unfold classify at h
  dsimp only at h
  split_ifs at h
  · injection h
    omega
  · injection h with _ h
    have : Nat.pow 2 binary64.fractionBits = 2 ^ 52 := rfl
    omega

theorem short_of_denotes {bits : Nat} {n : Int} (h : (binary64.classify bits).Denotes n) :
    Short n.natAbs := by
  cases hclass : binary64.classify bits with
  | nan | infinite =>
    rw [hclass] at h
    exact h.elim
  | finite negative significand exponent =>
    have hlt := significand_lt hclass
    rw [hclass] at h
    have habs : n.natAbs * 2 ^ (-exponent).toNat = significand * 2 ^ exponent.toNat := by
      have := congrArg Int.natAbs h
      cases negative <;> simpa [Int.natAbs_mul, Int.natAbs_pow] using this
    rcases le_total 0 exponent with hexp | hexp
    · refine ⟨significand, exponent.toNat, ?_, hlt⟩
      rwa [Int.toNat_of_nonpos (by omega), pow_zero, Nat.mul_one] at habs
    · refine ⟨n.natAbs, 0, (Nat.mul_one _).symm, ?_⟩
      rw [Int.toNat_of_nonpos hexp, pow_zero, Nat.mul_one] at habs
      exact (Nat.le_mul_of_pos_right _ (Nat.two_pow_pos _)).trans_lt (habs ▸ hlt)

theorem divideNearest_of_dvd {a d : Nat} (hd : 0 < d) (h : d ∣ a) : divideNearest a d = a / d := by
  unfold divideNearest
  rw [Nat.mod_eq_zero_of_dvd h]
  exact if_pos hd

theorem ratioExponent_one {a : Nat} (ha : a ≠ 0) : ratioExponent a 1 = a.log2 := by
  have hlog : ((a.log2 : Int) - Nat.log2 1) = a.log2 := Int.sub_zero _
  unfold ratioExponent
  dsimp only
  rw [hlog, if_pos]
  simpa using Nat.log2_self_le ha

theorem roundRatio_short {a : Nat} (ha : a ≠ 0) (hlt : a < 2 ^ 64) (hshort : Short a) :
    ∃ s, 2 ^ 52 ≤ s ∧ s < 2 ^ 53 ∧ a * 2 ^ (52 - a.log2) = s * 2 ^ (a.log2 - 52) ∧
      binary64.roundRatio a 1 = (a.log2 + 1022) * 2 ^ 52 + s := by
  have hlow := Nat.log2_self_le ha
  have hhigh : a < 2 ^ (a.log2 + 1) := Nat.lt_log2_self
  have hlog : a.log2 < 64 := (Nat.log2_lt ha).mpr hlt
  have hdvd : 2 ^ (a.log2 - 52) ∣ a * 2 ^ (52 - a.log2) := by
    obtain ⟨q, k, hq, hlt⟩ := hshort
    have hk : a.log2 < 53 + k := by
      refine (Nat.log2_lt ha).mpr ?_
      rw [Nat.pow_add, hq]
      exact Nat.mul_lt_mul_of_pos_right hlt (Nat.two_pow_pos k)
    have hle : a.log2 - 52 ≤ k := by omega
    rw [hq]
    exact ((Nat.pow_dvd_pow 2 (hq ▸ hle)).mul_left q).mul_right _
  have hpowers : 2 ^ 52 * 2 ^ (a.log2 - 52) = 2 ^ a.log2 * 2 ^ (52 - a.log2) := by
    rw [← Nat.pow_add, ← Nat.pow_add]
    congr 1
    omega
  have hge : 2 ^ 52 ≤ a * 2 ^ (52 - a.log2) / 2 ^ (a.log2 - 52) := by
    rw [Nat.le_div_iff_mul_le (Nat.two_pow_pos _), hpowers]
    exact Nat.mul_le_mul_right _ hlow
  have hsig : a * 2 ^ (52 - a.log2) / 2 ^ (a.log2 - 52) < 2 ^ 53 := by
    rw [Nat.div_lt_iff_lt_mul (Nat.two_pow_pos _)]
    calc a * 2 ^ (52 - a.log2)
      _ < 2 ^ (a.log2 + 1) * 2 ^ (52 - a.log2) :=
        Nat.mul_lt_mul_of_pos_right hhigh (Nat.two_pow_pos _)
      _ = 2 * (2 ^ 52 * 2 ^ (a.log2 - 52)) := by rw [hpowers, Nat.pow_succ]; ring
      _ = 2 ^ 53 * 2 ^ (a.log2 - 52) := by ring
  refine ⟨_, hge, hsig, (Nat.div_mul_cancel hdvd).symm, ?_⟩
  have hunit : max ((a.log2 : Int) - binary64.fractionBits) binary64.minExponent = a.log2 - 52 :=
    max_eq_left (show (-1074 : Int) ≤ a.log2 - 52 by omega)
  have hfield : ((a.log2 : Int) - 52 - binary64.minExponent).toNat = a.log2 + 1022 := by
    show ((a.log2 : Int) - 52 - (-1074)).toNat = _
    omega
  have hnearest :
    (if 0 ≤ (a.log2 : Int) - 52 then divideNearest a (1 * Nat.pow 2 ((a.log2 : Int) - 52).toNat)
      else divideNearest (a * Nat.pow 2 (-((a.log2 : Int) - 52)).toNat) 1) =
      a * 2 ^ (52 - a.log2) / 2 ^ (a.log2 - 52) := by
    have hdown : ((a.log2 : Int) - 52).toNat = a.log2 - 52 := by omega
    have hup : (-((a.log2 : Int) - 52)).toNat = 52 - a.log2 := by omega
    rw [hdown, hup, Nat.one_mul]
    split
    · next h =>
      have hzero : 52 - a.log2 = 0 := by omega
      rw [hzero, pow_zero, Nat.mul_one] at hdvd ⊢
      exact divideNearest_of_dvd (Nat.two_pow_pos _) hdvd
    · next h =>
      have hzero : a.log2 - 52 = 0 := by omega
      rw [hzero]
      exact divideNearest_of_dvd Nat.one_pos (Nat.one_dvd _)
  unfold roundRatio
  rw [if_neg ha, ratioExponent_one ha]
  dsimp only
  rw [hunit, hfield, hnearest]
  refine min_eq_left ?_
  show (a.log2 + 1022) * 2 ^ 52 + _ ≤ 2047 * 2 ^ 52
  omega

theorem classify_normal {k s : Nat} (hk : k < 1024) (hge : 2 ^ 52 ≤ s) (hlt : s < 2 ^ 53)
    (negative : Bool) :
    binary64.classify (binary64.withSign negative ((k + 1022) * 2 ^ 52 + s)) =
    .finite negative s (k - 52) ∧
      binary64.withSign negative ((k + 1022) * 2 ^ 52 + s) < 2 ^ 64 := by
  have hbits : binary64.withSign negative ((k + 1022) * 2 ^ 52 + s) =
      (k + 1022) * 2 ^ 52 + s + if negative then 2 ^ 63 else 0 := by
    cases negative <;> simp [withSign, signBit, binary64]
  rw [hbits]
  generalize hx : (k + 1022) * 2 ^ 52 + s + (if negative then 2 ^ 63 else 0) = bits
  have hsign : (bits / binary64.signBit % 2 == 1) = negative := by
    show (bits / 2 ^ 63 % 2 == 1) = negative
    cases negative <;> simp at hx ⊢ <;> omega
  have hfield :
      bits / Nat.pow 2 binary64.fractionBits % Nat.pow 2 binary64.exponentBits = k + 1023 := by
    show bits / 2 ^ 52 % 2 ^ 11 = _
    cases negative <;> simp at hx <;> omega
  have hfraction : bits % Nat.pow 2 binary64.fractionBits = s - 2 ^ 52 := by
    show bits % 2 ^ 52 = _
    cases negative <;> simp at hx <;> omega
  have hfinite : k + 1023 ≠ Nat.pow 2 binary64.exponentBits - 1 := by
    show k + 1023 ≠ 2047
    omega
  have hsignificand : Nat.pow 2 binary64.fractionBits + (s - 2 ^ 52) = s := Nat.add_sub_cancel' hge
  have hexponent : binary64.minExponent + (k + 1023 - 1 : Nat) = (k : Int) - 52 := by
    show (-1074 : Int) + (k + 1023 - 1 : Nat) = k - 52
    omega
  constructor
  · unfold classify
    dsimp only
    rw [hsign, hfield, hfraction, if_neg hfinite, if_neg (Nat.succ_ne_zero _), hsignificand,
      hexponent]
  · cases negative <;> simp at hx <;> omega

theorem ofInt_denotes {n : Int} (hlt : n.natAbs < 2 ^ 64) (hshort : Short n.natAbs) :
    (binary64.classify (binary64.ofInt n).toUInt64.toNat).Denotes n := by
  rcases eq_or_ne n 0 with rfl | hn
  · have hclass :
        binary64.classify (binary64.ofInt 0).toUInt64.toNat = .finite false 0 (-1074) := by decide
    rw [hclass]
    exact (Int.zero_mul _).trans (Int.zero_mul _).symm
  · obtain ⟨s, hge, hsig, hvalue, hround⟩ := roundRatio_short (Int.natAbs_ne_zero.mpr hn) hlt hshort
    have hlog : n.natAbs.log2 < 64 := (Nat.log2_lt (Int.natAbs_ne_zero.mpr hn)).mpr hlt
    obtain ⟨hclass, hbits⟩ := classify_normal (hlog.trans (by decide)) hge hsig (decide (n < 0))
    rw [ofInt, hround, Nat.toUInt64_eq, UInt64.toNat_ofNat_of_lt' hbits, hclass]
    have hdown : ((n.natAbs.log2 : Int) - 52).toNat = n.natAbs.log2 - 52 := by omega
    have hup : (-((n.natAbs.log2 : Int) - 52)).toNat = 52 - n.natAbs.log2 := by omega
    have hcast : (n.natAbs : Int) * 2 ^ (52 - n.natAbs.log2) = s * 2 ^ (n.natAbs.log2 - 52) := by
      exact_mod_cast hvalue
    show n * 2 ^ _ = _
    rw [hdown, hup]
    rcases lt_or_gt_of_ne hn with hneg | hpos
    · rw [Int.ofNat_natAbs_of_nonpos hneg.le] at hcast
      simp only [hneg, decide_true, if_true, Int.neg_mul] at hcast ⊢
      omega
    · rw [Int.natAbs_of_nonneg hpos.le] at hcast
      simp only [hpos.not_gt, decide_false, Bool.false_eq_true, if_false]
      exact hcast

end FloatFormat

end SsaIr
