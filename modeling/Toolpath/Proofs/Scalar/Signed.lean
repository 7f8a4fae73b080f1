import Toolpath.Proofs.Scalar.Ordered
import Toolpath.Proofs.Scalar.Rounded

/-! Numbers by signed values on a line. They compare as their values do, and a number and its
negative have opposite values. -/
namespace Toolpath
open Scalar

/-- What is a number has a real value, which settles how it compares. The values need not be the
numbers themselves: the unit is any positive one. -/
class Signed (α : Type) [Scalar α] where
  value : α → ℝ
  lt_iff {a b : α} : isNaN a = false → isNaN b = false → (a < b ↔ value a < value b)
  le_iff {a b : α} : isNaN a = false → isNaN b = false → (a ≤ b ↔ value a ≤ value b)
  beq_iff {a b : α} : isNaN a = false → isNaN b = false → ((a == b) = true ↔ value a = value b)
  value_neg {a : α} : isNaN a = false → isNaN (-a) = false ∧ value (-a) = -value a
  value_zero : isNaN (0 : α) = false ∧ value 0 = 0
  value_one : isNaN (1 : α) = false ∧ 0 < value 1

noncomputable instance signed_real : Signed ℝ where
  value a := a
  lt_iff _ _ := Iff.rfl
  le_iff _ _ := Iff.rfl
  beq_iff _ _ := decide_eq_true_iff
  value_neg _ := ⟨isNaN_real _, rfl⟩
  value_zero := ⟨isNaN_real _, rfl⟩
  value_one := ⟨isNaN_real _, one_pos⟩

namespace Binary

theorem units_neg {a : Float} {x : ℤ} (h : units? a = some x) : units? (-a) = some (-x) := by
  have hformat : InFormat a.toModel.unpack := inFormat_unpack _
  change unpackedUnits? (Float.Model.pack a.toModel.unpack.neg).unpack = _
  rw [unpack_pack (inFormat_neg hformat)]
  exact units_unpacked_neg h

theorem isNaN_of_units {a : Float} {x : ℤ} (h : units? a = some x) : isNaN a = false := by
  rw [← Bool.not_eq_true, isNaN_iff, h]
  nofun

end Binary

/-- The value of a binary number is its number of units. -/
noncomputable instance signed_float : Signed Float where
  value a := Binary.units a
  lt_iff ha hb := by
    obtain ⟨x, hx⟩ := Binary.exists_units ha
    obtain ⟨y, hy⟩ := Binary.exists_units hb
    rw [Binary.lt_iff hx hy, Binary.units_eq hx, Binary.units_eq hy, Int.cast_lt]
  le_iff ha hb := by
    obtain ⟨x, hx⟩ := Binary.exists_units ha
    obtain ⟨y, hy⟩ := Binary.exists_units hb
    rw [Binary.le_iff hx hy, Binary.units_eq hx, Binary.units_eq hy, Int.cast_le]
  beq_iff ha hb := by
    obtain ⟨x, hx⟩ := Binary.exists_units ha
    obtain ⟨y, hy⟩ := Binary.exists_units hb
    rw [Binary.beq_iff_exists, Binary.units_eq hx, Binary.units_eq hy, Int.cast_inj]
    simp [hx, hy, eq_comm]
  value_neg ha := by
    obtain ⟨x, hx⟩ := Binary.exists_units ha
    have hneg := Binary.units_neg hx
    rw [Binary.units_eq hx, Binary.units_eq hneg, Int.cast_neg]
    exact ⟨Binary.isNaN_of_units hneg, rfl⟩
  value_zero := by
    rw [Binary.units_eq Binary.units?_zero, Int.cast_zero]
    exact ⟨Binary.isNaN_of_units Binary.units?_zero, rfl⟩
  value_one := by
    have hpos : (0 : Float) < 1 := by decide
    obtain ⟨x, hx, y, hy, hlt⟩ := Binary.lt_iff_exists.mp hpos
    obtain rfl := Option.some.inj (Binary.units?_zero.symm.trans hx)
    have hone : isNaN (1 : Float) = false := Binary.isNaN_of_units hy
    have hvalue : (0 : ℝ) < Binary.units 1 := by
      rw [Binary.units_eq hy]
      exact Int.cast_pos.mpr hlt
    exact ⟨hone, hvalue⟩

end Toolpath
