import Mathlib
import SsaIr.Proofs.Machine.Values

/-!
# Integers as words

An integer of some width is a bit vector of that width: `RuntimeValue.word` reads it off the bits of
a value, and `RuntimeValue.ofWord` is the value that carries it. The machine computes on 64-bit
images of its operands, sign extended or zero extended, and narrows the result; the first lemmas say
that nothing is lost by that at any width. Read `IntOp.onWords` first, then `integers_are_words`.
-/

namespace SsaIr

open IntWidth

/-! ## Narrowing what images give -/

section Narrowing

variable {n : Nat} {x y : BitVec n}

variable (hn : n ≤ 64)
include hn

theorem setWidth_eq_ofInt (z : BitVec 64) : z.setWidth n = BitVec.ofInt n z.toInt :=
  (z.signExtend_eq_setWidth_of_le hn).symm

theorem narrow_signExtend : (x.signExtend 64).setWidth n = x := by
  rw [setWidth_eq_ofInt hn, BitVec.toInt_signExtend_of_le hn, BitVec.ofInt_toInt]

theorem narrow_zeroExtend : (x.setWidth 64).setWidth n = x := by
  rw [BitVec.setWidth_setWidth_of_le x hn, BitVec.setWidth_eq]

theorem narrow_sub : (x.signExtend 64 - y.signExtend 64).setWidth n = x - y := by
  rw [BitVec.sub_eq_add_neg, BitVec.setWidth_add _ _ hn, BitVec.setWidth_neg_of_le hn,
    narrow_signExtend hn, narrow_signExtend hn, BitVec.sub_eq_add_neg]

theorem narrow_sdiv : ((x.signExtend 64).sdiv (y.signExtend 64)).setWidth n = x.sdiv y := by
  apply BitVec.eq_of_toInt_eq
  rw [setWidth_eq_ofInt hn, BitVec.toInt_ofInt, BitVec.toInt_sdiv, BitVec.toInt_sdiv,
    BitVec.toInt_signExtend_of_le hn, BitVec.toInt_signExtend_of_le hn,
    Int.bmod_bmod_of_dvd (Nat.pow_dvd_pow 2 hn)]

theorem narrow_srem : ((x.signExtend 64).srem (y.signExtend 64)).setWidth n = x.srem y := by
  rw [setWidth_eq_ofInt hn, BitVec.toInt_srem, BitVec.toInt_signExtend_of_le hn,
    BitVec.toInt_signExtend_of_le hn, ← BitVec.toInt_srem, BitVec.ofInt_toInt]

theorem narrow_udiv : (x.setWidth 64 / y.setWidth 64).setWidth n = x / y := by
  apply BitVec.eq_of_toNat_eq
  rw [BitVec.toNat_setWidth, BitVec.toNat_udiv, BitVec.toNat_setWidth_of_le hn,
    BitVec.toNat_setWidth_of_le hn, ← BitVec.toNat_udiv, BitVec.toNat_mod_cancel]

theorem narrow_umod : (x.setWidth 64 % y.setWidth 64).setWidth n = x % y := by
  apply BitVec.eq_of_toNat_eq
  rw [BitVec.toNat_setWidth, BitVec.toNat_umod, BitVec.toNat_setWidth_of_le hn,
    BitVec.toNat_setWidth_of_le hn, ← BitVec.toNat_umod, BitVec.toNat_mod_cancel]

theorem narrow_ushiftRight (k : Nat) : (x.setWidth 64 >>> k).setWidth n = x >>> k := by
  rw [← BitVec.setWidth_ushiftRight hn, narrow_zeroExtend hn]

theorem narrow_sshiftRight (k : Nat) :
    ((x.signExtend 64).sshiftRight k).setWidth n = x.sshiftRight k := by
  rw [setWidth_eq_ofInt hn, BitVec.toInt_sshiftRight, BitVec.toInt_signExtend_of_le hn,
    ← BitVec.toInt_sshiftRight, BitVec.ofInt_toInt]

end Narrowing

/-! ## The shifts of the machine -/

namespace Arithmetic

theorem toBitVec_shiftLeft (x k : UInt64) : (shiftLeft x k).toBitVec = x.toBitVec <<< k.toNat := by
  unfold shiftLeft
  split
  · next hk =>
      have hmod : k.toBitVec.toNat % 64 = k.toNat := Nat.mod_eq_of_lt (UInt64.lt_iff_toNat_lt.mp hk)
      rw [UInt64.toBitVec_shiftLeft, BitVec.shiftLeft_eq', BitVec.toNat_umod]
      exact congrArg _ hmod
  · next hk =>
      exact (BitVec.shiftLeft_eq_zero (not_lt.mp (mt UInt64.lt_iff_toNat_lt.mpr hk))).symm

theorem toBitVec_shiftRight (x k : UInt64) :
    (shiftRight x k).toBitVec = x.toBitVec >>> k.toNat := by
  unfold shiftRight
  split
  · next hk =>
      have hmod : k.toBitVec.toNat % 64 = k.toNat := Nat.mod_eq_of_lt (UInt64.lt_iff_toNat_lt.mp hk)
      rw [UInt64.toBitVec_shiftRight, BitVec.ushiftRight_eq', BitVec.toNat_umod]
      exact congrArg _ hmod
  · next hk =>
      exact (BitVec.ushiftRight_eq_zero (not_lt.mp (mt UInt64.lt_iff_toNat_lt.mpr hk))).symm

theorem toBitVec_shiftRightSigned (x : Int64) (k : UInt64) :
    (shiftRightSigned x k).toBitVec = x.toBitVec.sshiftRight k.toNat := by
  unfold shiftRightSigned
  split
  · next hk =>
      have hlt : k.toBitVec.toNat < 64 := UInt64.lt_iff_toNat_lt.mp hk
      have hmsb : k.toBitVec.msb = false := BitVec.msb_eq_false_iff_two_mul_lt.mpr (by omega)
      have hmod : k.toBitVec.smod 64 = k.toBitVec % 64 := by
        rw [BitVec.smod_eq, hmsb]
        rfl
      rw [Int64.toBitVec_shiftRight, UInt64.toBitVec_toInt64, hmod, BitVec.sshiftRight_eq',
        BitVec.toNat_umod]
      exact congrArg _ (Nat.mod_eq_of_lt hlt)
  · next hk =>
      have hle : 64 ≤ k.toNat := UInt64.le_iff_toNat_le.mp (UInt64.not_lt.mp hk)
      have hpow : (2 : Int) ^ 63 ≤ 2 ^ k.toNat := pow_le_pow_right₀ (by decide) (by omega)
      have hlow := x.le_toInt
      have hhigh := x.toInt_lt
      apply BitVec.eq_of_toInt_eq
      rw [BitVec.toInt_sshiftRight, Int.shiftRight_eq_div_pow]
      split
      · next hneg =>
          have hneg : x.toInt < 0 := Int64.lt_iff_toInt_lt.mp hneg
          exact (Int.ediv_eq_neg_one_of_neg_of_le hneg (by push_cast; omega)).symm
      · next hneg =>
          have hnonneg : 0 ≤ x.toInt := Int64.le_iff_toInt_le.mp (Int64.not_lt.mp hneg)
          exact (Int.ediv_eq_zero_of_lt hnonneg (by push_cast; omega)).symm
end Arithmetic

/-! ## Words -/

namespace RuntimeValue

/-- The lowest bits of a value, as many as the width has. -/
def word (w : IntWidth) (v : RuntimeValue) : BitVec w.bits := v.bits.toBitVec.setWidth w.bits

/-- The value is an integer of the width, or nothing, which reads as zero. -/
def Carries (v : RuntimeValue) (w : IntWidth) : Prop := v = .undef ∨ v.kind = .int w

/-- The integer that carries a word: sign extended, except that a single bit is 0 or 1. -/
def ofWord (w : IntWidth) (x : BitVec w.bits) : RuntimeValue :=
  .int w (.ofBitVec (if w = .w1 then x.setWidth 64 else x.signExtend 64))

end RuntimeValue

namespace IntWidth

theorem bits_le (w : IntWidth) : w.bits ≤ 64 := by cases w <;> decide

theorem unsigned_toBitVec (w : IntWidth) (v : Int64) :
    (w.unsigned v).toBitVec = (v.toBitVec.setWidth w.bits).setWidth 64 := by
  apply BitVec.eq_of_toNat_eq
  rw [BitVec.toNat_setWidth_of_le w.bits_le, BitVec.toNat_setWidth]
  cases w with
  | w1 => exact Nat.and_two_pow_sub_one_eq_mod v.toBitVec.toNat 1
  | w8 => exact Nat.and_two_pow_sub_one_eq_mod v.toBitVec.toNat 8
  | w16 => exact Nat.and_two_pow_sub_one_eq_mod v.toBitVec.toNat 16
  | w32 => exact Nat.and_two_pow_sub_one_eq_mod v.toBitVec.toNat 32
  | w64 => exact (Nat.mod_eq_of_lt v.toBitVec.isLt).symm

theorem signed_toBitVec (w : IntWidth) (v : Int64) :
    (w.signed v).toBitVec = (v.toBitVec.setWidth w.bits).signExtend 64 := by
  cases w with
  | w1 =>
    have hbit := unsigned_toBitVec .w1 v
    show -(v.toBitVec &&& 1#64) = (v.toBitVec.setWidth 1).signExtend 64
    rw [show v.toBitVec &&& 1#64 = (v.toBitVec.setWidth 1).setWidth 64 from hbit]
    generalize v.toBitVec.setWidth 1 = b
    revert b
    decide
  | w8 | w16 | w32 => simp [signed, truncate, bits, BitVec.signExtend_eq_setWidth_of_le]
  | w64 => simp [signed, truncate, bits]

end IntWidth

namespace RuntimeValue

variable {w : IntWidth} {a b : RuntimeValue}

theorem ofInt_eq_ofWord (w : IntWidth) (v : Int64) :
    ofInt w v = ofWord w (v.toBitVec.setWidth w.bits) := by
  have hcarried : (w.truncate v).toBitVec =
      if w = .w1 then (v.toBitVec.setWidth w.bits).setWidth 64
      else (v.toBitVec.setWidth w.bits).signExtend 64 := by
    cases w with
    | w1 => exact unsigned_toBitVec .w1 v
    | w8 => exact signed_toBitVec .w8 v
    | w16 => exact signed_toBitVec .w16 v
    | w32 => exact signed_toBitVec .w32 v
    | w64 => exact signed_toBitVec .w64 v
  exact congrArg (RuntimeValue.int w) (Int64.toBitVec_inj.mp hcarried)

theorem Carries.toInt_toBitVec (ha : a.Carries w) :
    a.toInt.toBitVec = (a.word w).signExtend 64 := by
  rcases ha with rfl | ha
  · cases w <;> rfl
  · rw [toInt, ha]
    exact signed_toBitVec w a.bits.toInt64

theorem Carries.toUInt_toBitVec (ha : a.Carries w) :
    a.toUInt.toBitVec = (a.word w).setWidth 64 := by
  rcases ha with rfl | ha
  · cases w <;> rfl
  · rw [toUInt, ha]
    exact unsigned_toBitVec w a.bits.toInt64

end RuntimeValue

/-! ## Operations on words -/

/-- The operation on bit vectors. Signed division truncates, and shifts by the width or more leave
nothing but the sign. -/
def IntOp.onWords {n : Nat} (op : IntOp) (x y : BitVec n) : BitVec n :=
  match op with
  | .add => x + y
  | .sub => x - y
  | .mul => x * y
  | .udiv => x / y
  | .sdiv => x.sdiv y
  | .urem => x % y
  | .srem => x.srem y
  | .shl => x <<< y
  | .lshr => x >>> y
  | .ashr => x.sshiftRight' y
  | .and => x &&& y
  | .or => x ||| y
  | .xor => x ^^^ y

/-- The operation is a division or takes the rest of one. -/
def IntOp.divides : IntOp → Bool
  | .udiv | .sdiv | .urem | .srem => true
  | _ => false

/-- The comparison of bit vectors, as unsigned or signed numbers. -/
def IntPredicate.onWords {n : Nat} (p : IntPredicate) (x y : BitVec n) : Bool :=
  match p with
  | .eq => x = y
  | .ne => x ≠ y
  | .ugt => y.ult x
  | .uge => y.ule x
  | .ult => x.ult y
  | .ule => x.ule y
  | .sgt => y.slt x
  | .sge => y.sle x
  | .slt => x.slt y
  | .sle => x.sle y

namespace Arithmetic

open RuntimeValue

variable {w : IntWidth} {a b : RuntimeValue}

theorem toUInt_eq_zero_iff (hb : b.Carries w) : b.toUInt = 0 ↔ b.word w = 0 := by
  rw [← UInt64.toBitVec_inj, hb.toUInt_toBitVec]
  refine ⟨fun h => ?_, fun h => by rw [h]; exact BitVec.setWidth_zero _ _⟩
  rw [← narrow_zeroExtend (x := b.word w) w.bits_le, h]
  exact BitVec.setWidth_zero _ _

theorem toInt_eq_zero_iff (hb : b.Carries w) : b.toInt = 0 ↔ b.word w = 0 := by
  rw [← Int64.toBitVec_inj, hb.toInt_toBitVec]
  refine ⟨fun h => ?_, fun h => by rw [h]; simp [BitVec.signExtend]⟩
  rw [← narrow_signExtend (x := b.word w) w.bits_le, h]
  exact BitVec.setWidth_zero _ _

theorem intBinary_eq (op : IntOp) (ha : a.Carries w) (hb : b.Carries w) :
    intBinary op w a b = if op.divides = true ∧ b.word w = 0 then .error (.integerDivision op)
      else .ok (ofWord w (op.onWords (a.word w) (b.word w))) := by
  have hn := w.bits_le
  have hx := ha.toInt_toBitVec
  have hy := hb.toInt_toBitVec
  have hux := ha.toUInt_toBitVec
  have huy := hb.toUInt_toBitVec
  have hamount : b.toUInt.toNat = (b.word w).toNat := by
    rw [← UInt64.toNat_toBitVec, huy, BitVec.toNat_setWidth_of_le hn]
  -- It is enough that the narrowed result is the word.
  have hdone {r : Int64} {z : BitVec w.bits} (hr : r.toBitVec.setWidth w.bits = z) :
      (Except.ok (ofInt w r) : Except FaultCause RuntimeValue) = .ok (ofWord w z) := by
    rw [ofInt_eq_ofWord, hr]
  have hdivide {p : Prop} [Decidable p] {r : Int64} {z : BitVec w.bits} (hp : p ↔ b.word w = 0)
      (hr : r.toBitVec.setWidth w.bits = z) :
      ((if p then .error (.integerDivision op) else .ok r : Except FaultCause Int64) >>=
          fun r => pure (ofInt w r)) =
        if true = true ∧ b.word w = 0 then .error (.integerDivision op) else .ok (ofWord w z) := by
    simp only [hp, true_and]
    split
    · rfl
    · exact hdone hr
  cases op with
  | add =>
    refine hdone ?_
    rw [Int64.toBitVec_add, hx, hy, BitVec.setWidth_add _ _ hn, narrow_signExtend hn,
      narrow_signExtend hn]
    rfl
  | sub =>
    refine hdone ?_
    rw [Int64.toBitVec_sub, hx, hy, narrow_sub hn]
    rfl
  | mul =>
    refine hdone ?_
    rw [Int64.toBitVec_mul, hx, hy, BitVec.setWidth_mul _ _ hn, narrow_signExtend hn,
      narrow_signExtend hn]
    rfl
  | udiv =>
    refine hdivide (toUInt_eq_zero_iff hb) ?_
    rw [UInt64.toBitVec_toInt64, UInt64.toBitVec_div, hux, huy, narrow_udiv hn]
    rfl
  | urem =>
    refine hdivide (toUInt_eq_zero_iff hb) ?_
    rw [UInt64.toBitVec_toInt64, UInt64.toBitVec_mod, hux, huy, narrow_umod hn]
    rfl
  | sdiv =>
    refine hdivide (toInt_eq_zero_iff hb) ?_
    rw [Int64.toBitVec_div, hx, hy, narrow_sdiv hn]
    rfl
  | srem =>
    refine hdivide (toInt_eq_zero_iff hb) ?_
    rw [Int64.toBitVec_mod, hx, hy, narrow_srem hn]
    rfl
  | shl =>
    refine hdone ?_
    rw [UInt64.toBitVec_toInt64, toBitVec_shiftLeft, hux, hamount,
      BitVec.setWidth_shiftLeft_of_le hn,
      narrow_zeroExtend hn]
    rfl
  | lshr =>
    refine hdone ?_
    rw [UInt64.toBitVec_toInt64, toBitVec_shiftRight, hux, hamount, narrow_ushiftRight hn]
    rfl
  | ashr =>
    refine hdone ?_
    rw [toBitVec_shiftRightSigned, hx, hamount, narrow_sshiftRight hn]
    rfl
  | and =>
    refine hdone ?_
    rw [Int64.toBitVec_and, hx, hy, BitVec.setWidth_and, narrow_signExtend hn, narrow_signExtend hn]
    rfl
  | or =>
    refine hdone ?_
    rw [Int64.toBitVec_or, hx, hy, BitVec.setWidth_or, narrow_signExtend hn, narrow_signExtend hn]
    rfl
  | xor =>
    refine hdone ?_
    rw [Int64.toBitVec_xor, hx, hy, BitVec.setWidth_xor, narrow_signExtend hn, narrow_signExtend hn]
    rfl

theorem icmp_eq (p : IntPredicate) (ha : a.Carries w) (hb : b.Carries w) :
    icmp p a b = p.onWords (a.word w) (b.word w) := by
  have hn := w.bits_le
  have hsigned {v : RuntimeValue} (hv : v.Carries w) : v.toInt.toInt = (v.word w).toInt := by
    rw [← Int64.toInt_toBitVec, hv.toInt_toBitVec, BitVec.toInt_signExtend_of_le hn]
  have hunsigned {v : RuntimeValue} (hv : v.Carries w) : v.toUInt.toNat = (v.word w).toNat := by
    rw [← UInt64.toNat_toBitVec, hv.toUInt_toBitVec, BitVec.toNat_setWidth_of_le hn]
  cases p <;> simp only [icmp, IntPredicate.onWords, BitVec.ult, BitVec.ule, BitVec.slt, BitVec.sle,
    ← UInt64.toNat_inj, UInt64.lt_iff_toNat_lt, UInt64.le_iff_toNat_le, Int64.lt_iff_toInt_lt,
    Int64.le_iff_toInt_le, hsigned ha, hsigned hb, hunsigned ha, hunsigned hb,
      BitVec.toNat_inj, ne_eq]

/-- Arithmetic, comparisons and conversions of integers are those of bit vectors of their width. -/
theorem integers_are_words (w : IntWidth) {a b : RuntimeValue} (ha : a.Carries w)
    (hb : b.Carries w) :
    (∀ op, intBinary op w a b =
        if op.divides = true ∧ b.word w = 0 then .error (.integerDivision op)
        else .ok (ofWord w (op.onWords (a.word w) (b.word w)))) ∧
      (∀ op, (FaultCause.integerDivision op).fault = .intDivByZero) ∧
      (∀ p, icmp p a b = p.onWords (a.word w) (b.word w)) ∧
      (∀ u : IntWidth, u.bits < w.bits →
        cast .trunc a (some (.int w)) (.int u) = .ok (ofWord u ((a.word w).setWidth u.bits))) ∧
      (∀ u : IntWidth, w.bits < u.bits →
        cast .zext a (some (.int w)) (.int u) = .ok (ofWord u ((a.word w).setWidth u.bits)) ∧
        cast .sext a (some (.int w)) (.int u) = .ok (ofWord u ((a.word w).signExtend u.bits))) ∧
      ∀ f : FloatWidth, f.bits = w.bits →
        (∃ r, cast .bitcast a (some (.int w)) (.float f) = .ok r ∧ r.kind = .float f ∧
          r.word w = a.word w) ∧
        ∀ r : RuntimeValue, r.Suits (.float f) →
          cast .bitcast r (some (.float f)) (.int w) = .ok (ofWord w (r.word w)) := by
  refine ⟨fun op => intBinary_eq op ha hb, fun _ => rfl, fun p => icmp_eq p ha hb, fun u hu => ?_,
    fun u hu => ⟨?_, ?_⟩, fun f hf => ⟨?_, fun r hr => ?_⟩⟩
  · show Except.ok (ofInt u a.toInt) = _
    rw [ofInt_eq_ofWord, ha.toInt_toBitVec, ← BitVec.setWidth_setWidth_of_le _ hu.le,
      narrow_signExtend w.bits_le]
  · show Except.ok (ofInt u a.toUInt.toInt64) = _
    rw [ofInt_eq_ofWord, UInt64.toBitVec_toInt64, ha.toUInt_toBitVec,
      BitVec.setWidth_setWidth_of_le _ u.bits_le]
  · show Except.ok (ofInt u a.toInt) = _
    rw [ofInt_eq_ofWord, ha.toInt_toBitVec, setWidth_eq_ofInt u.bits_le,
      BitVec.toInt_signExtend_of_le w.bits_le]
    rfl
  · have hbits : (castBits (.int w) a).toBitVec = (a.word w).setWidth 64 := by
      rw [castBits, IntWidth.unsigned_toBitVec, ha.toInt_toBitVec, narrow_signExtend w.bits_le]
    cases f with
    | f32 =>
      refine ⟨_, rfl, rfl, ?_⟩
      obtain rfl : w = .w32 := by cases w <;> cases hf; rfl
      show ((castBits (.int .w32) a).toBitVec.setWidth 32 |>.setWidth 64).setWidth 32 = _
      rw [hbits]
      exact (narrow_zeroExtend (by decide)).trans (narrow_zeroExtend (by decide))
    | f64 =>
      refine ⟨_, rfl, rfl, ?_⟩
      show (castBits (.int w) a).toBitVec.setWidth w.bits = _
      rw [hbits, narrow_zeroExtend w.bits_le]
  · show Except.ok (ofInt w r.bits.toInt64) = _
    rw [ofInt_eq_ofWord]
    rfl

/-- The least 8-bit integer divided by -1 is itself, and a one-bit 1 is -1 when it is extended. -/
theorem integers_are_words_wrapping :
    intBinary .sdiv .w8 (.int .w8 (-128)) (.int .w8 (-1)) = .ok (.int .w8 (-128)) ∧
      intBinary .shl .w8 (.int .w8 (-128)) (.int .w8 (-1)) = .ok (.int .w8 0) ∧
      intBinary .srem .w8 (.int .w8 (-128)) .undef = .error (.integerDivision .srem) ∧
      cast .sext (.int .w1 1) (some (.int .w1)) (.int .w16) = .ok (.int .w16 (-1)) := by
  have hleast : (RuntimeValue.int .w8 (-128)).Carries .w8 := .inr rfl
  obtain ⟨hbinary, -⟩ := integers_are_words .w8 hleast (b := .int .w8 (-1)) (.inr rfl)
  obtain ⟨hundef, -⟩ := integers_are_words .w8 hleast (.inl rfl)
  obtain ⟨-, -, -, -, hextend, -⟩ :=
    integers_are_words .w1 (a := .int .w1 1) (.inr rfl) (.inl rfl)
  exact ⟨(hbinary .sdiv).trans (by rfl), (hbinary .shl).trans (by rfl),
    (hundef .srem).trans (by rfl),
    (hextend .w16 (by decide)).2.trans (by rfl)⟩

end Arithmetic

end SsaIr
