import Mathlib.Tactic.LinearCombination
import Toolpath.Proofs.Geometry.Exact
import Toolpath.Traversal.Frame

/-! Linear maps that keep the XY plane and the Z axis apart and do not distort the plane. They may
shrink it to nothing. -/
namespace Toolpath
open Scalar

namespace Linear

/-- A multiple of a rotation or a reflection of the XY plane, beside a factor along Z. -/
structure IsLevel (m : Linear ℝ) : Prop where
  xz : m.x.z = 0
  yz : m.y.z = 0
  zx : m.z.x = 0
  zy : m.z.y = 0
  orthogonal : m.x.x * m.x.y + m.y.x * m.y.y = 0
  conformal : m.x.x ^ 2 + m.y.x ^ 2 = m.x.y ^ 2 + m.y.y ^ 2

namespace IsLevel
variable {m n : Linear ℝ}

theorem mul (hm : m.IsLevel) (hn : n.IsLevel) : (m.mul n).IsLevel where
  xz := by simp [Linear.mul, Vec.dot, columnZ, hm.xz, hn.xz, hn.yz]
  yz := by simp [Linear.mul, Vec.dot, columnZ, hm.yz, hn.xz, hn.yz]
  zx := by simp [Linear.mul, Vec.dot, columnX, hm.zx, hm.zy, hn.zx]
  zy := by simp [Linear.mul, Vec.dot, columnY, hm.zx, hm.zy, hn.zy]
  orthogonal := by
    simp only [Linear.mul, Vec.dot, columnX, columnY, hm.xz, hm.yz, zero_mul, add_zero]
    linear_combination (n.x.x * n.y.y + n.x.y * n.y.x) * hm.orthogonal +
      (m.x.x ^ 2 + m.y.x ^ 2) * hn.orthogonal - n.y.x * n.y.y * hm.conformal
  conformal := by
    simp only [Linear.mul, Vec.dot, columnX, columnY, hm.xz, hm.yz, zero_mul, add_zero]
    linear_combination (m.x.x ^ 2 + m.y.x ^ 2) * hn.conformal -
      (n.y.x ^ 2 - n.y.y ^ 2) * hm.conformal +
      2 * (n.x.x * n.y.x - n.x.y * n.y.y) * hm.orthogonal

theorem planar_scale (angle k : ℝ) : ((planar angle).scale k).IsLevel where
  xz := by simp [planar, scale]
  yz := by simp [planar, scale]
  zx := by simp [planar, scale]
  zy := by simp [planar, scale]
  orthogonal := by
    simp only [planar, scale, Vec.scale]
    ring
  conformal := by
    simp only [planar, scale, Vec.scale]
    ring

theorem identity : (Linear.identity : Linear ℝ).IsLevel := by
  have h := planar_scale 0 1
  rwa [scale_one, planar_zero] at h

theorem scale (hm : m.IsLevel) (k : ℝ) : (m.scale k).IsLevel := by
  have hmul : m.mul ((planar 0).scale k) = m.scale k := by
    rw [planar_zero, mul_scale, mul_identity]
  exact hmul ▸ hm.mul (planar_scale 0 k)

/-- The columns of the plane are equally long. -/
theorem norm_columnX (hm : m.IsLevel) : m.columnX.norm = √(m.x.y ^ 2 + m.y.y ^ 2) := by
  have hsq : m.x.x * m.x.x + m.y.x * m.y.x + m.z.x * m.z.x = m.x.y ^ 2 + m.y.y ^ 2 := by
    rw [← hm.conformal, hm.zx]
    ring
  rw [Vec.norm_real]
  exact congrArg Real.sqrt hsq

theorem abs_columnY_le (hm : m.IsLevel) :
    |m.x.y| ≤ m.columnX.norm ∧ |m.y.y| ≤ m.columnX.norm := by
  rw [hm.norm_columnX]
  constructor
  · exact Real.abs_le_sqrt (by linarith [sq_nonneg m.y.y])
  · exact Real.abs_le_sqrt (by linarith [sq_nonneg m.x.y])

end IsLevel
end Linear

theorem Position.isLevel (p : Position ℝ) : p.toPlacement.linear.IsLevel := by
  rw [p.toPlacement_eq]
  exact .planar_scale _ _

namespace Frame
variable {f : Frame ℝ}

/-- A point along the Y axis stays at the height of the center, and is placed no farther from it on
either axis than its distance. -/
theorem place_along_y (hf : f.placement.linear.IsLevel) (r : ℝ) :
    |(f.place ⟨0, r, 0⟩).x - (f.place .zero).x| ≤ |r| * f.placement.lengthScale ∧
      |(f.place ⟨0, r, 0⟩).y - (f.place .zero).y| ≤ |r| * f.placement.lengthScale ∧
      (f.place ⟨0, r, 0⟩).z = (f.place .zero).z := by
  obtain ⟨hx, hy⟩ := hf.abs_columnY_le
  have hdifference : f.place ⟨0, r, 0⟩ - f.place .zero =
      ⟨f.placement.linear.x.y * r, f.placement.linear.y.y * r, 0⟩ := by
    unfold place
    rw [Placement.apply_sub]
    ext <;> simp [Linear.apply, Vec.dot, Vec.zero, hf.zy]
  refine ⟨?_, ?_, ?_⟩
  · rw [← Vec.sub_x, hdifference, abs_mul, mul_comm, Placement.lengthScale_eq]
    exact mul_le_mul_of_nonneg_left hx (abs_nonneg r)
  · rw [← Vec.sub_y, hdifference, abs_mul, mul_comm, Placement.lengthScale_eq]
    exact mul_le_mul_of_nonneg_left hy (abs_nonneg r)
  · exact sub_eq_zero.mp (congrArg Vec.z hdifference)

end Frame
end Toolpath
