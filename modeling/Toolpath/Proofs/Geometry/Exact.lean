import Mathlib.Tactic.Ring
import Toolpath.Geometry.Pose
import Toolpath.Proofs.Scalar.Exact

/-! Vectors, placements and poses over exact coordinates. -/
namespace Toolpath
open Scalar

attribute [ext] Vec Linear Placement

namespace Vec
variable (a b : Vec ℝ) (j k : ℝ)

@[simp] theorem add_x : (a + b).x = a.x + b.x := rfl

@[simp] theorem add_y : (a + b).y = a.y + b.y := rfl

@[simp] theorem add_z : (a + b).z = a.z + b.z := rfl

@[simp] theorem sub_x : (a - b).x = a.x - b.x := rfl

@[simp] theorem sub_y : (a - b).y = a.y - b.y := rfl

@[simp] theorem sub_z : (a - b).z = a.z - b.z := rfl

@[simp] theorem scale_x : (a.scale k).x = a.x * k := rfl

@[simp] theorem scale_y : (a.scale k).y = a.y * k := rfl

@[simp] theorem scale_z : (a.scale k).z = a.z * k := rfl

@[simp] theorem zero_scale : (zero : Vec ℝ).scale k = zero := by
  ext <;> simp [zero]

@[simp] theorem scale_one : a.scale 1 = a := by
  ext <;> simp

theorem add_sub_self : a + b - a = b := by
  ext <;> simp

theorem dot_sub_comm (v : Vec ℝ) : v.dot (a - b) = -v.dot (b - a) := by
  simp only [dot, sub_x, sub_y, sub_z]
  ring

theorem norm_real : a.norm = √(a.x * a.x + a.y * a.y + a.z * a.z) := rfl

theorem normXY_real : a.normXY = √(a.x * a.x + a.y * a.y) := rfl

theorem norm_eq_zero {a : Vec ℝ} : a.norm = 0 ↔ a = .zero := by
  have hx := mul_self_nonneg a.x
  have hy := mul_self_nonneg a.y
  have hz := mul_self_nonneg a.z
  rw [norm_real, Real.sqrt_eq_zero (add_nonneg (add_nonneg hx hy) hz),
    add_eq_zero_iff_of_nonneg (add_nonneg hx hy) hz, add_eq_zero_iff_of_nonneg hx hy,
    mul_self_eq_zero, mul_self_eq_zero, mul_self_eq_zero, and_assoc, Vec.ext_iff]
  rfl

theorem norm_sub_comm : (a - b).norm = (b - a).norm := by
  rw [norm_real, norm_real]
  congr 1
  simp only [sub_x, sub_y, sub_z]
  ring

theorem norm_scale (hk : 0 ≤ k) : (a.scale k).norm = a.norm * k := by
  have hsq : a.x * k * (a.x * k) + a.y * k * (a.y * k) + a.z * k * (a.z * k) =
      (a.x * a.x + a.y * a.y + a.z * a.z) * (k * k) := by ring
  rw [norm_real, norm_real, scale_x, scale_y, scale_z, hsq, Real.sqrt_mul', Real.sqrt_mul_self hk]
  exact mul_self_nonneg k

end Vec

namespace Linear
variable (a b c : Linear ℝ) (v : Vec ℝ) (k : ℝ)

theorem mul_assoc : (a.mul b).mul c = a.mul (b.mul c) := by
  ext <;> simp only [mul, Vec.dot, columnX, columnY, columnZ] <;> ring

@[simp] theorem identity_mul : identity.mul a = a := by
  ext <;> simp only [mul, identity, Vec.dot, columnX, columnY, columnZ] <;> ring

@[simp] theorem mul_identity : a.mul identity = a := by
  ext <;> simp only [mul, identity, Vec.dot, columnX, columnY, columnZ] <;> ring

theorem mul_scale : a.mul (b.scale k) = (a.mul b).scale k := by
  ext <;> simp only [mul, scale, Vec.scale, Vec.dot, columnX, columnY, columnZ] <;> ring

theorem scale_mul : (a.scale k).mul b = (a.mul b).scale k := by
  ext <;> simp only [mul, scale, Vec.scale, Vec.dot, columnX, columnY, columnZ] <;> ring

theorem scale_scale (j : ℝ) : (a.scale j).scale k = a.scale (j * k) := by
  ext <;> simp only [scale, Vec.scale] <;> ring

@[simp] theorem scale_one : a.scale 1 = a := by
  ext <;> simp [scale]

theorem apply_mul : (a.mul b).apply v = a.apply (b.apply v) := by
  ext <;> simp only [apply, mul, Vec.dot, columnX, columnY, columnZ] <;> ring

@[simp] theorem identity_apply : identity.apply v = v := by
  ext <;> simp only [apply, identity, Vec.dot] <;> ring

theorem scale_apply : (a.scale k).apply v = (a.apply v).scale k := by
  ext <;> simp only [apply, scale, Vec.scale, Vec.dot] <;> ring

theorem apply_add (w : Vec ℝ) : a.apply (v + w) = a.apply v + a.apply w := by
  ext <;> simp only [apply, Vec.dot, Vec.add_x, Vec.add_y, Vec.add_z] <;> ring

theorem apply_sub (w : Vec ℝ) : a.apply (v - w) = a.apply v - a.apply w := by
  ext <;> simp only [apply, Vec.dot, Vec.sub_x, Vec.sub_y, Vec.sub_z] <;> ring

theorem determinant_scale : (a.scale k).determinant = a.determinant * k ^ 3 := by
  simp only [determinant, scale, Vec.scale]
  ring

/-- The counter-clockwise rotation in the XY plane. -/
noncomputable def planar (angle : ℝ) : Linear ℝ :=
  ⟨⟨Real.cos angle, -Real.sin angle, 0⟩, ⟨Real.sin angle, Real.cos angle, 0⟩, ⟨0, 0, 1⟩⟩

theorem planar_zero : planar 0 = identity := by
  ext <;> simp [planar, identity]

theorem rotation_unitZ (angle : ℝ) : rotation .unitZ angle = planar angle := by
  unfold rotation
  rw [beq_real]
  by_cases h : angle = 0
  · rw [if_pos (decide_eq_true h), h, planar_zero]
  · rw [if_neg (by simpa using h)]
    ext <;> simp [planar, Vec.unitZ] <;> rfl

end Linear

namespace Placement
variable (a b c : Placement ℝ) (p : Vec ℝ) (j k : ℝ)

@[simp] theorem mul_linear : (a * b).linear = a.linear.mul b.linear := rfl

@[simp] theorem mul_offset : (a * b).offset = a.linear.apply b.offset + a.offset := rfl

theorem mul_assoc : a * b * c = a * (b * c) := by
  have hoffset : (a * b * c).offset = (a * (b * c)).offset := by
    ext <;> simp [Linear.apply_mul, Linear.apply_add] <;> ring
  have hlinear := a.linear.mul_assoc b.linear c.linear
  exact Placement.ext hlinear hoffset

theorem apply_mul : (a * b).apply p = a.apply (b.apply p) := by
  unfold apply
  ext <;> simp [Linear.apply_mul, Linear.apply_add] <;> ring

theorem apply_sub (q : Vec ℝ) : a.apply p - a.apply q = a.linear.apply (p - q) := by
  rw [Linear.apply_sub]
  unfold apply
  ext <;> simp

@[simp] theorem scale_apply : (scale k).apply p = p.scale k := by
  unfold apply scale
  rw [Linear.scale_apply, Linear.identity_apply]
  ext <;> simp [Vec.zero]

@[simp] theorem mul_scale_linear : (a * scale k).linear = a.linear.scale k := by
  simp [scale, Linear.mul_scale]

@[simp] theorem mul_scale_offset : (a * scale k).offset = a.offset := by
  ext <;> simp [scale, Linear.apply, Vec.dot, Vec.zero]

@[simp] theorem scale_mul_linear : (scale k * a).linear = a.linear.scale k := by
  rw [mul_linear, scale, Linear.scale_mul, Linear.identity_mul]

@[simp] theorem scale_mul_offset : (scale k * a).offset = a.offset.scale k := by
  rw [mul_offset, scale, Linear.scale_apply, Linear.identity_apply]
  ext <;> simp [Vec.zero]

theorem scale_mul_scale : scale j * scale k = scale (j * k) := by
  refine Placement.ext ?_ (mul_scale_offset _ _)
  rw [mul_scale_linear]
  exact Linear.scale_scale _ _ _

/-- A placement that leaves the origin in place is as good before a scale as after it. -/
theorem mul_scale_comm (h : a.offset = .zero) : a * scale k = scale k * a := by
  refine Placement.ext ?_ ?_
  · rw [mul_scale_linear, scale_mul_linear]
  · rw [mul_scale_offset, scale_mul_offset, h, Vec.zero_scale]

theorem lengthScale_eq : a.lengthScale = a.linear.columnX.norm := by
  have hcolumn : a.applyVector .unitX = a.linear.columnX := by
    ext <;> simp [applyVector, Linear.apply, Vec.dot, Vec.unitX, Linear.columnX]
  rw [lengthScale, hcolumn]

theorem depthScale_eq : a.depthScale = a.linear.columnZ.norm := by
  have hcolumn : a.applyVector .unitZ = a.linear.columnZ := by
    ext <;> simp [applyVector, Linear.apply, Vec.dot, Vec.unitZ, Linear.columnZ]
  rw [depthScale, hcolumn]

@[simp] theorem identity_apply : identity.apply p = p := by
  unfold apply identity
  rw [Linear.identity_apply]
  ext <;> simp [Vec.zero]

@[simp] theorem lengthScale_identity : (identity : Placement ℝ).lengthScale = 1 := by
  rw [lengthScale_eq, Vec.norm_real]
  simp [identity, Linear.identity, Linear.columnX]

@[simp] theorem depthScale_identity : (identity : Placement ℝ).depthScale = 1 := by
  rw [depthScale_eq, Vec.norm_real]
  simp [identity, Linear.identity, Linear.columnZ]

end Placement

/-- The Z axis is long enough to turn about. -/
theorem Placement.rotationZ_eq (angle : ℝ) : rotationZ angle = ⟨.planar angle, .zero⟩ := by
  have hnormSq : (Vec.unitZ : Vec ℝ).normSq = 1 := by
    simp [Vec.normSq, Vec.dot, Vec.unitZ]
  have hnorm : (Vec.unitZ : Vec ℝ).norm = 1 := by
    unfold Vec.norm
    rw [hnormSq]
    exact Real.sqrt_one
  have hunit : (Vec.unitZ : Vec ℝ).divide Vec.unitZ.norm = .unitZ := by
    rw [hnorm]
    ext <;> simp [Vec.divide]
  have hlong : (ofRatio 1 0x10000000000000 : ℝ) * ofRatio 1 0x10000000000000 <
      (Vec.unitZ : Vec ℝ).normSq := by
    rw [hnormSq, ofRatio_real]
    norm_num
  unfold rotationZ rotation
  rw [if_pos hlong, hunit, Linear.rotation_unitZ]

theorem Placement.turned_eq (d : ℝ) :
    (if d == 0 then Placement.identity else .rotationZ (ofDegrees d)) =
      ⟨Linear.planar (ofDegrees d), .zero⟩ := by
  rw [beq_real, rotationZ_eq]
  split_ifs with h
  · rw [of_decide_eq_true h, ofDegrees, zero_mul, Linear.planar_zero]
    rfl
  · rfl

theorem Placement.scaled_eq (k : ℝ) :
    (if k == 1 then Placement.identity else .scale k) = .scale k := by
  rw [beq_real]
  split_ifs with h
  · rw [of_decide_eq_true h, scale, Linear.scale_one]
    rfl
  · rfl

/-- A position scales, rotates in the plane and moves. What it does not give is left as it is. -/
theorem Position.toPlacement_eq (p : Position ℝ) : p.toPlacement =
    ⟨(Linear.planar (ofDegrees (p.rotation.getD 0))).scale (p.scale.getD 1),
      ⟨p.x, p.y, p.z.getD 0⟩⟩ := by
  have hrotation : (match p.rotation with
      | some d => if d == 0 then Placement.identity else .rotationZ (ofDegrees d)
      | none => Placement.identity) = ⟨Linear.planar (ofDegrees (p.rotation.getD 0)), .zero⟩ := by
    cases p.rotation with
    | none => exact (if_pos (decide_eq_true rfl)).symm.trans (Placement.turned_eq 0)
    | some d => exact Placement.turned_eq d
  have hscale : (match p.scale with
      | some k => if k == 1 then Placement.identity else .scale k
      | none => Placement.identity) = .scale (p.scale.getD 1) := by
    cases p.scale with
    | none => exact (if_pos (decide_eq_true rfl)).symm.trans (Placement.scaled_eq 1)
    | some k => exact Placement.scaled_eq k
  have hparts : p.toPlacement = .shift ⟨p.x, p.y, p.z.getD 0⟩ *
      ⟨Linear.planar (ofDegrees (p.rotation.getD 0)), .zero⟩ * .scale (p.scale.getD 1) := by
    rw [← hrotation, ← hscale]
    unfold toPlacement
    cases p.rotation <;> cases p.scale <;> rfl
  rw [hparts]
  refine Placement.ext ?_ ?_
  · rw [Placement.mul_scale_linear, Placement.mul_linear]
    simp [Placement.shift]
  · rw [Placement.mul_scale_offset]
    ext <;> simp [Placement.shift, Vec.zero, Linear.apply, Vec.dot, Linear.identity]

end Toolpath
