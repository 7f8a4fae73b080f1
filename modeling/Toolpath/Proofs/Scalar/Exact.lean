import Mathlib.Analysis.SpecialFunctions.Trigonometric.Basic
import Mathlib.Algebra.Order.Floor.Semiring
import Toolpath.Scalar

/-! Coordinates that are exact real numbers. -/
namespace Toolpath
noncomputable section

instance scalar_real : Scalar ℝ where
  beq a b := decide (a = b)
  decidableLT := inferInstance
  decidableLE := inferInstance
  ofRatio n d := n / d
  pi := Real.pi
  sqrt := Real.sqrt
  sin := Real.sin
  cos := Real.cos
  tan := Real.tan
  round x := if x < 0 then -⌊-x + 1 / 2⌋ else ⌊x + 1 / 2⌋
  truncate x := if x < 0 then ⌈x⌉ else ⌊x⌋
  ceiling x := ⌈x⌉₊

namespace Scalar

@[simp] theorem beq_real (a b : ℝ) : (a == b) = decide (a = b) := rfl

theorem ofRatio_real (n d : ℤ) : (ofRatio n d : ℝ) = n / d := rfl

theorem ceiling_real (x : ℝ) : ceiling x = ⌈x⌉₊ := rfl

@[simp] theorem isNaN_real (a : ℝ) : isNaN a = false := by
  simp [isNaN]

@[simp] theorem isFinite_real (a : ℝ) : isFinite a = true := by
  simp [isFinite]

theorem greater_real (a b : ℝ) : greater a b = max a b := by
  unfold greater
  rw [isNaN_real]
  split_ifs with h
  · exact (max_eq_left h.le).symm
  · contradiction
  · exact (max_eq_right (not_lt.mp h)).symm

theorem lesser_real (a b : ℝ) : lesser a b = min a b := by
  unfold lesser
  rw [isNaN_real]
  split_ifs with h
  · exact (min_eq_left h.le).symm
  · contradiction
  · exact (min_eq_right (not_lt.mp h)).symm

theorem two_real : (two : ℝ) = 2 := by
  unfold two ofInt
  rw [ofRatio_real]
  norm_num

end Scalar
end
end Toolpath
