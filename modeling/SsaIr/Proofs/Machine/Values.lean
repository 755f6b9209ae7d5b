import Mathlib.Data.Int.Notation
import SsaIr.Graph.Typing
import SsaIr.Machine.Arithmetic
import SsaIr.Machine.Store
import SsaIr.Proofs.Computation

/-!
# Runtime values of static types

What the values of a type look like at run time: `Suits` is about their kind, `Canonical` about
their bits. Constants, arithmetic, conversions and loads give canonical values that suit the types
they are for. Read these two first, then `cast_ok`.
-/

namespace SsaIr

namespace RuntimeValue

def Suits (v : RuntimeValue) (t : Ty) : Prop := v.kind = .undef ∨ v.kind = .ofType t

/-- The bits of the value are in the form that its kind keeps them in: integers are sign extended
from their width, a one-bit one is 0 or 1, single precision takes 32 bits, and nothing is zero. -/
def Canonical (v : RuntimeValue) : Prop :=
  match v.kind with
  | .undef => v.bits = 0
  | .int .w1 => v.bits = 0 ∨ v.bits = 1
  | .int w => -2 ^ (w.bits - 1) ≤ v.bits.toInt64.toInt ∧ v.bits.toInt64.toInt < 2 ^ (w.bits - 1)
  | .float .f32 => v.bits.toNat < 2 ^ 32
  | .float .f64 | .ptr => True

theorem suits_undef (t : Ty) : undef.Suits t := .inl rfl

theorem isUndef_iff {v : RuntimeValue} : v.isUndef = true ↔ v.kind = .undef := decide_eq_true_iff

theorem suits_of_kind {v : RuntimeValue} {t : Ty}
    (h : ¬ (!v.isUndef && decide (v.kind ≠ .ofType t)) = true) : v.Suits t := by
  by_cases hundef : v.kind = .undef
  · exact .inl hundef
  · refine .inr ?_
    rw [← isUndef_iff, Bool.not_eq_true] at hundef
    simpa [hundef] using h

theorem canonical_undef : undef.Canonical := rfl

theorem canonical_ofInt (w : IntWidth) (v : Int64) : (ofInt w v).Canonical := by
  cases w with
  | w1 =>
    show (v &&& 1).toUInt64 = 0 ∨ (v &&& 1).toUInt64 = 1
    have hbit : (v &&& 1).toUInt64.toNat = v.toUInt64.toNat % 2 := by
      rw [Int64.toUInt64_and, UInt64.toNat_and]
      exact Nat.and_one_is_mod _
    rcases Nat.mod_two_eq_zero_or_one v.toUInt64.toNat with h | h
    · exact .inl (UInt64.toNat_inj.mp (hbit.trans h))
    · exact .inr (UInt64.toNat_inj.mp (hbit.trans h))
  | w8 =>
    show -2 ^ 7 ≤ v.toInt8.toInt64.toUInt64.toInt64.toInt ∧
      v.toInt8.toInt64.toUInt64.toInt64.toInt < 2 ^ 7
    rw [Int64.toInt64_toUInt64, Int8.toInt_toInt64]
    exact ⟨Int8.le_toInt _, Int8.toInt_lt _⟩
  | w16 =>
    show -2 ^ 15 ≤ v.toInt16.toInt64.toUInt64.toInt64.toInt ∧
      v.toInt16.toInt64.toUInt64.toInt64.toInt < 2 ^ 15
    rw [Int64.toInt64_toUInt64, Int16.toInt_toInt64]
    exact ⟨Int16.le_toInt _, Int16.toInt_lt _⟩
  | w32 =>
    show -2 ^ 31 ≤ v.toInt32.toInt64.toUInt64.toInt64.toInt ∧
      v.toInt32.toInt64.toUInt64.toInt64.toInt < 2 ^ 31
    rw [Int64.toInt64_toUInt64, Int32.toInt_toInt64]
    exact ⟨Int32.le_toInt _, Int32.toInt_lt _⟩
  | w64 =>
    show -2 ^ 63 ≤ v.toUInt64.toInt64.toInt ∧ v.toUInt64.toInt64.toInt < 2 ^ 63
    exact ⟨Int64.le_toInt _, Int64.toInt_lt _⟩

theorem canonical_f32 (bits : UInt32) : (f32 bits).Canonical := by
  show bits.toUInt64.toNat < 2 ^ 32
  rw [UInt32.toNat_toUInt64]
  exact bits.toNat_lt

theorem canonical_ofBool (b : Bool) : (ofBool b).Canonical := by
  cases b
  · exact .inl rfl
  · exact .inr rfl

theorem canonical_ofFloat (w : FloatWidth) (bits : UInt64) : (ofFloat w bits).Canonical := by
  cases w with
  | f32 => exact canonical_f32 _
  | f64 => trivial

theorem kind_ofFloat (w : FloatWidth) (bits : UInt64) : (ofFloat w bits).kind = .float w := by
  cases w <;> rfl

theorem ofConst_ok (k : Const) : (ofConst k).Suits k.type ∧ (ofConst k).Canonical := by
  cases k with
  | int w v => exact ⟨.inr rfl, canonical_ofInt w v⟩
  | float w b => exact ⟨.inr (kind_ofFloat w b), canonical_ofFloat w b⟩
  | undef t => exact ⟨suits_undef t, canonical_undef⟩
  | null t => exact ⟨.inr rfl, trivial⟩

end RuntimeValue

namespace RuntimeKind

variable {k : RuntimeKind} {raw : UInt64}

theorem kind_decode (k : RuntimeKind) (raw : UInt64) : (k.decode raw).kind = k := by
  cases k <;> rfl

theorem canonical_decode (hk : k ≠ .undef) (hraw : k = .float .f32 → raw.toNat < 2 ^ 32) :
    (k.decode raw).Canonical := by
  cases k with
  | undef => exact absurd rfl hk
  | int w => exact RuntimeValue.canonical_ofInt w _
  | float w =>
    cases w with
    | f32 => exact hraw rfl
    | f64 => trivial
  | ptr => trivial

end RuntimeKind

namespace Arithmetic

open RuntimeValue

theorem intBinary_ok {op : IntOp} {w : IntWidth} {a b r : RuntimeValue}
    (h : intBinary op w a b = .ok r) : r.kind = .int w ∧ r.Canonical := by
  obtain ⟨v, _, hr⟩ := Except.bind_eq_ok_iff.mp h
  cases hr
  exact ⟨rfl, canonical_ofInt w v⟩

theorem floatBinary_ok {op : FloatOp} {w : FloatWidth} {a b r : RuntimeValue}
    (h : floatBinary op w a b = .ok r) : r.kind = .float w ∧ r.Canonical := by
  have hfloat : ∀ bits, r = .ofFloat w bits → r.kind = .float w ∧ r.Canonical := by
    rintro bits rfl
    exact ⟨kind_ofFloat w bits, canonical_ofFloat w bits⟩
  cases op with
  | fdiv =>
    simp only [floatBinary] at h
    split at h
    · cases h
    · cases h
      exact hfloat _ rfl
  | _ =>
    cases h
    exact hfloat _ rfl

theorem exists_int {t : Ty} (h : t.isInteger = true) : ∃ w, t = .int w := by
  cases t <;> simp_all [Ty.isInteger]

theorem exists_float {t : Ty} (h : t.isFloat = true) : ∃ w, t = .float w := by
  cases t <;> simp_all [Ty.isFloat]

theorem exists_pointer {t : Ty} (h : t.isPointer = true) : ∃ u, t = .pointer u := by
  cases t <;> simp_all [Ty.isPointer]

def gives : CastOp → Ty → Bool
  | .trunc, t | .zext, t | .sext, t | .fptoui, t | .fptosi, t | .ptrtoint, t => t.isInteger
  | .fptrunc, t | .fpext, t | .uitofp, t | .sitofp, t => t.isFloat
  | .inttoptr, t => t.isPointer
  | .bitcast, t => t.isPointer || t.isInteger || t.isFloat

theorem gives_of_checkCast {op : CastOp} {s t : Ty}
    (h : checkCast (.cast op) (some s) (some t) = .ok ()) : gives op t = true := by
  cases op <;> by_contra hnot <;> simp_all [checkCast, gives]

theorem cast_ok {op : CastOp} {s t : Ty} (h : checkCast (.cast op) (some s) (some t) = .ok ())
    (v : RuntimeValue) (source : Option Ty) :
    ∃ r, cast op v source t = .ok r ∧ r.kind = .ofType t ∧ r.Canonical := by
  have ht := gives_of_checkCast h
  have hfloat : ∀ (w : FloatWidth) (n : Int),
      (ofInteger w n).kind = .float w ∧ (ofInteger w n).Canonical := by
    intro w n
    cases w with
    | f32 => exact ⟨rfl, canonical_f32 _⟩
    | f64 => exact ⟨rfl, trivial⟩
  cases op with
  | trunc | zext | sext | fptoui | fptosi | ptrtoint =>
    obtain ⟨w, rfl⟩ := exists_int ht
    exact ⟨_, rfl, rfl, canonical_ofInt w _⟩
  | fptrunc | fpext =>
    obtain ⟨w, rfl⟩ := exists_float ht
    exact ⟨_, rfl, kind_ofFloat w _, canonical_ofFloat w _⟩
  | uitofp | sitofp =>
    obtain ⟨w, rfl⟩ := exists_float ht
    exact ⟨_, rfl, hfloat w _⟩
  | inttoptr =>
    obtain ⟨u, rfl⟩ := exists_pointer ht
    exact ⟨_, rfl, rfl, trivial⟩
  | bitcast =>
    simp only [gives, Bool.or_eq_true] at ht
    rcases ht with (ht | ht) | ht
    · obtain ⟨u, rfl⟩ := exists_pointer ht
      exact ⟨_, rfl, rfl, trivial⟩
    · obtain ⟨w, rfl⟩ := exists_int ht
      exact ⟨_, rfl, rfl, canonical_ofInt w _⟩
    · obtain ⟨w, rfl⟩ := exists_float ht
      cases w with
      | f32 => exact ⟨_, rfl, rfl, canonical_f32 _⟩
      | f64 => exact ⟨_, rfl, rfl, trivial⟩

end Arithmetic

end SsaIr
