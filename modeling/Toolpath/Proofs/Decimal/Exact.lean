import Mathlib.Algebra.Field.Rat
import Mathlib.Algebra.Order.Ring.Rat
import Toolpath.Decimal.Binary
import Toolpath.Proofs.Scalar.Rounded

/-!
The exact values of binary numbers. The bits of a number are taken apart into the sign, mantissa and
exponent of the format, and a finite number is the mantissa under the exponent.
-/
namespace Toolpath
open Float.Model UnpackedFloat

namespace Binary

/-- The exact value of a number that is finite. -/
def exact (x : Float) : ℚ := units x / 2 ^ 1074

theorem exact_le_exact {x y : Float} (h : x ≤ y) : exact x ≤ exact y := by
  obtain ⟨a, ha, b, hb, hab⟩ := le_iff_exists.mp h
  rw [exact, exact, units_eq ha, units_eq hb]
  exact div_le_div_of_nonneg_right (Int.cast_le.mpr hab) (by positivity)

theorem magnitude_div (m : ℕ) {e : ℤ} (he : -1074 ≤ e) :
    (magnitude m e : ℚ) / 2 ^ 1074 = m * 2 ^ e := by
  have hexponent : ((e + 1074).toNat : ℤ) = e + (1074 : ℕ) := Int.toNat_of_nonneg (by omega)
  have hpow : (2 : ℚ) ^ (e + 1074).toNat = 2 ^ e * 2 ^ 1074 := by
    rw [← zpow_natCast, hexponent, zpow_add₀ two_ne_zero, zpow_natCast]
  rw [magnitude, Nat.cast_mul, Nat.cast_pow, Nat.cast_ofNat, hpow, ← mul_assoc]
  exact mul_div_cancel_right₀ _ (pow_ne_zero _ two_ne_zero)

section Fields
variable (b : BitVec 64)

theorem toNat_unpackSign : (@unpackSign .binary64 b).toNat = b.toNat / 2 ^ 63 % 2 := by
  change (BitVec.extractLsb' 63 1 b).toNat = _
  rw [BitVec.extractLsb'_toNat, Nat.shiftRight_eq_div_pow]

theorem toNat_unpackExponent :
    (@unpackExponent .binary64 b).toNat = b.toNat / 2 ^ 52 % 2 ^ 11 := by
  change (BitVec.extractLsb' 52 11 b).toNat = _
  rw [BitVec.extractLsb'_toNat, Nat.shiftRight_eq_div_pow]

theorem toNat_unpackMantissa : (@unpackMantissa .binary64 b).toNat = b.toNat % 2 ^ 52 := by
  change (BitVec.extractLsb' 0 52 b).toNat = _
  rw [BitVec.extractLsb'_toNat, Nat.shiftRight_zero]

end Fields

end Binary

namespace Decimal.Binary
open Toolpath.Binary

def isNegative : Sign → Bool
  | .negative => true
  | .positive => false

/-- An unpacked value as a sign with a significand under an exponent. -/
def ofUnpacked : UnpackedFloat → Binary
  | .notANumber => .nan
  | .infinity s => .infinite (isNegative s)
  | .zero s => .finite (isNegative s) 0 (-1074)
  | .finite s m e _ => .finite (isNegative s) m e

theorem isNegative_unpackSign (b : BitVec 64) :
    (b.toNat / 2 ^ 63 % 2 == 1) = isNegative (Sign.ofBitVec (@unpackSign .binary64 b)) := by
  rw [← toNat_unpackSign]
  generalize (@unpackSign .binary64 b : BitVec 1) = s
  revert s
  decide

/-- The bits that are taken apart are the fields of the format. -/
theorem ofBits_toNat (b : BitVec 64) :
    ofBits b.toNat = ofUnpacked (UnpackedFloat.unpack .binary64 b) := by
  have hsign : (b.toNat / 0x8000000000000000 % 2 == 1) = _ := isNegative_unpackSign b
  have hexponent : _ = b.toNat / 0x10000000000000 % 2048 := toNat_unpackExponent b
  have hmantissa : _ = b.toNat % 0x10000000000000 := toNat_unpackMantissa b
  have hlargest : (@unpackExponent .binary64 b).toNat = 2047 ↔
      @unpackExponent .binary64 b = -1#11 := @BitVec.toNat_inj 11 _ (-1#11)
  have hleast : (@unpackExponent .binary64 b).toNat = 0 ↔ @unpackExponent .binary64 b = 0#11 :=
    @BitVec.toNat_inj 11 _ 0#11
  have hnothing : (@unpackMantissa .binary64 b).toNat = 0 ↔ @unpackMantissa .binary64 b = 0#52 :=
    @BitVec.toNat_inj 52 _ 0#52
  unfold ofBits
  dsimp only
  rw [hsign, ← hexponent, ← hmantissa]
  by_cases hinf : @unpackExponent .binary64 b = -1#11
  · rw [if_pos (hlargest.mpr hinf)]
    by_cases hzero : @unpackMantissa .binary64 b = 0#52
    · have hunpack : UnpackedFloat.unpack .binary64 b =
          .infinity (.ofBitVec (@unpackSign .binary64 b)) := (if_pos hinf).trans (if_pos hzero)
      rw [hunpack, if_pos (hnothing.mpr hzero)]
      rfl
    · have hunpack : UnpackedFloat.unpack .binary64 b = .notANumber :=
        (if_pos hinf).trans (if_neg hzero)
      rw [hunpack, if_neg (hnothing.not.mpr hzero)]
      rfl
  rw [if_neg (hlargest.not.mpr hinf)]
  by_cases hsub : @unpackExponent .binary64 b = 0#11
  · rw [if_pos (hleast.mpr hsub)]
    by_cases hzero : @unpackMantissa .binary64 b = 0#52
    · rw [unpack_of_zero hinf hsub hzero, hnothing.mpr hzero]
      rfl
    · have hpos := Nat.pos_of_ne_zero (hnothing.not.mpr hzero)
      rw [unpack_of_subnormal rfl rfl rfl hinf hsub hzero hpos, hsub]
      rfl
  · have hpos : 0 < (1#1 ++ @unpackMantissa .binary64 b).toNat := by
      rw [toNat_implicit]
      omega
    rw [if_neg (hleast.not.mpr hsub), unpack_of_normal rfl rfl rfl hinf hsub hpos]
    exact congrArg (Binary.finite _ · _) (toNat_implicit _).symm

theorem ofFloat_eq (x : Float) : ofFloat x = ofUnpacked x.toModel.unpack :=
  ofBits_toNat x.toModel.toBits.toBitVec

/-- A finite number is a significand under an exponent, with a sign. -/
theorem exists_ofFloat_eq_finite {x : Float} (h : Scalar.isFinite x = true) :
    ∃ negative m q, ofFloat x = .finite negative m q ∧
      exact x = if negative then -(m * 2 ^ q : ℚ) else m * 2 ^ q := by
  obtain ⟨z, hz, hrange⟩ := isFinite_iff.mp h
  have hformat : InFormat x.toModel.unpack := inFormat_unpack _
  rw [ofFloat_eq, exact, units_eq hz]
  change unpackedUnits? x.toModel.unpack = some z at hz
  cases hx : x.toModel.unpack with
  | notANumber =>
    rw [hx] at hz
    cases hz
  | infinity s =>
    rw [hx] at hz
    obtain rfl := Option.some.inj hz
    cases s with
    | negative => exact absurd hrange.1 (lt_irrefl _)
    | positive => exact absurd hrange.2 (lt_irrefl _)
  | zero s =>
    rw [hx] at hz
    obtain rfl := Option.some.inj hz
    exact ⟨isNegative s, 0, -1074, rfl, by simp⟩
  | finite s m e hm =>
    rw [hx] at hz hformat
    obtain rfl := Option.some.inj hz
    have hvalue := magnitude_div m hformat.1.exponent_ge
    refine ⟨isNegative s, m, e, rfl, ?_⟩
    cases s with
    | negative =>
      simp only [Sign.apply, isNegative, Int.cast_neg, Int.cast_natCast, neg_div, hvalue, if_true]
    | positive => exact hvalue

end Decimal.Binary
end Toolpath
