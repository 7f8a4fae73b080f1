import Mathlib.Tactic.LinearCombination
import Mathlib.Tactic.Positivity
import Toolpath.Proofs.Geometry.Level
import Toolpath.Proofs.Measure.Exact
import Toolpath.Proofs.Traversal.Route

/-! Placements that keep the XY plane and the Z axis apart, and do not distort the plane. Positions
and changes of units never lead out of them. -/
namespace Toolpath
open Scalar

/-- Positive where the second vector is to the left of the first one, seen from above. -/
def Vec.crossXY (a b : Vec ℝ) : ℝ := a.x * b.y - a.y * b.x

namespace Linear

/-- A similarity of the XY plane beside a factor along Z. -/
structure PlaneSimilarity (m : Linear ℝ) (height : ℝ) : Prop where
  xz : m.x.z = 0
  yz : m.y.z = 0
  zx : m.z.x = 0
  zy : m.z.y = 0
  zz : m.z.z = height
  orthogonal : m.x.x * m.x.y + m.y.x * m.y.y = 0
  conformal : m.x.x ^ 2 + m.y.x ^ 2 = m.x.y ^ 2 + m.y.y ^ 2
  regular : 0 < m.x.x ^ 2 + m.y.x ^ 2

/-- The determinant of the part in the XY plane. -/
def planeDet (m : Linear ℝ) : ℝ := m.x.x * m.y.y - m.x.y * m.y.x

variable {m n : Linear ℝ} {h k : ℝ}

namespace PlaneSimilarity

theorem isLevel (hm : m.PlaneSimilarity h) : m.IsLevel :=
  ⟨hm.xz, hm.yz, hm.zx, hm.zy, hm.orthogonal, hm.conformal⟩

theorem determinant_eq (hm : m.PlaneSimilarity h) : m.determinant = m.planeDet * h := by
  simp only [determinant, planeDet, hm.xz, hm.yz, hm.zx, hm.zy, hm.zz]
  ring

theorem planeDet_ne_zero (hm : m.PlaneSimilarity h) : m.planeDet ≠ 0 := by
  have hsq : m.planeDet ^ 2 = (m.x.x ^ 2 + m.y.x ^ 2) ^ 2 := by
    calc m.planeDet ^ 2
        = (m.x.x ^ 2 + m.y.x ^ 2) * (m.x.y ^ 2 + m.y.y ^ 2) -
            (m.x.x * m.x.y + m.y.x * m.y.y) ^ 2 := by
          simp only [planeDet]
          ring
      _ = (m.x.x ^ 2 + m.y.x ^ 2) ^ 2 := by
          rw [hm.orthogonal, ← hm.conformal]
          ring
  intro hzero
  rw [hzero] at hsq
  have hpos := pow_pos hm.regular 2
  linarith

theorem crossXY_apply (hm : m.PlaneSimilarity h) (v w : Vec ℝ) :
    (m.apply v).crossXY (m.apply w) = m.planeDet * v.crossXY w := by
  simp only [Vec.crossXY, apply, Vec.dot, hm.xz, hm.yz, planeDet]
  ring

theorem mul (hm : m.PlaneSimilarity h) (hn : n.PlaneSimilarity k) :
    (m.mul n).PlaneSimilarity (h * k) where
  xz := (hm.isLevel.mul hn.isLevel).xz
  yz := (hm.isLevel.mul hn.isLevel).yz
  zx := (hm.isLevel.mul hn.isLevel).zx
  zy := (hm.isLevel.mul hn.isLevel).zy
  zz := by simp [Linear.mul, Vec.dot, columnZ, hm.zx, hm.zy, hm.zz, hn.zz]
  orthogonal := (hm.isLevel.mul hn.isLevel).orthogonal
  conformal := (hm.isLevel.mul hn.isLevel).conformal
  regular := by
    have hcolumn : (m.mul n).x.x ^ 2 + (m.mul n).y.x ^ 2 =
        (m.x.x ^ 2 + m.y.x ^ 2) * (n.x.x ^ 2 + n.y.x ^ 2) := by
      simp only [Linear.mul, Vec.dot, columnX, hm.xz, hm.yz, zero_mul, add_zero]
      linear_combination 2 * n.x.x * n.y.x * hm.orthogonal - n.y.x ^ 2 * hm.conformal
    rw [hcolumn]
    exact mul_pos hm.regular hn.regular

theorem planar_scale (angle : ℝ) (hk : k ≠ 0) : ((planar angle).scale k).PlaneSimilarity k where
  xz := (IsLevel.planar_scale angle k).xz
  yz := (IsLevel.planar_scale angle k).yz
  zx := (IsLevel.planar_scale angle k).zx
  zy := (IsLevel.planar_scale angle k).zy
  zz := by simp [planar, scale]
  orthogonal := (IsLevel.planar_scale angle k).orthogonal
  conformal := (IsLevel.planar_scale angle k).conformal
  regular := by
    have hsq : (Real.cos angle * k) ^ 2 + (Real.sin angle * k) ^ 2 = k ^ 2 := by
      rw [mul_pow, mul_pow, ← add_mul, Real.cos_sq_add_sin_sq, one_mul]
    have hpos : 0 < k ^ 2 := by positivity
    exact hsq ▸ hpos

theorem identity_scale (hk : k ≠ 0) : (identity.scale k).PlaneSimilarity k :=
  planar_zero ▸ planar_scale 0 hk

theorem scale (hm : m.PlaneSimilarity h) (hk : k ≠ 0) : (m.scale k).PlaneSimilarity (h * k) := by
  have hmul : m.mul (identity.scale k) = m.scale k := by rw [mul_scale, mul_identity]
  exact hmul ▸ hm.mul (identity_scale hk)

end PlaneSimilarity
end Linear

/-- A leg by a position, not shrunk to nothing, into a unit that is not nothing. -/
structure Leg.IsPlain (job : Job ℝ) (leg : Leg ℝ) : Prop where
  pose : ∃ p : Position ℝ, leg.pose = .position p ∧ p.scale ≠ some 0
  unit : ∀ a unit, leg.unit = some a → job.decode a = .ok unit → (unit.toScalar : ℝ) ≠ 0

namespace Frame
variable {f g : Frame ℝ} {h : ℝ}

/-- The frame is placed by a similarity of the plane with a factor along Z, and knows its unit. -/
structure IsPlain (f : Frame ℝ) : Prop where
  placement : ∃ h, h ≠ 0 ∧ f.placement.linear.PlaneSimilarity h
  unit : (f.unitScale.toScalar : ℝ) ≠ 0

theorem isPlain_root (job : Job ℝ) : (root job).IsPlain where
  placement := by
    have hidentity := Linear.PlaneSimilarity.identity_scale (one_ne_zero : (1 : ℝ) ≠ 0)
    rw [Linear.scale_one] at hidentity
    exact ⟨1, one_ne_zero, hidentity⟩
  unit := by
    change ((1 : Ratio).toScalar : ℝ) ≠ 0
    rw [Ratio.toScalar_one]
    exact one_ne_zero

theorem planeSimilarity_position {p : Position ℝ} (hp : p.scale ≠ some 0) :
    ∃ k, k ≠ 0 ∧ p.toPlacement.linear.PlaneSimilarity k := by
  have hk : p.scale.getD 1 ≠ 0 := by
    cases hs : p.scale with
    | none => exact one_ne_zero
    | some k =>
      intro hzero
      exact hp (hs.trans (congrArg some hzero))
  rw [p.toPlacement_eq]
  exact ⟨_, hk, .planar_scale _ hk⟩

theorem IsPlain.leads {leg : Leg ℝ} (hf : f.IsPlain) (hleg : leg.IsPlain f.job)
    (hg : f.Leads leg g) : g.IsPlain := by
  obtain ⟨h, hh, hsim⟩ := hf.placement
  obtain ⟨p, hpose, hp⟩ := hleg.pose
  obtain ⟨k, hk, hposition⟩ := planeSimilarity_position hp
  cases hg with
  | plain room =>
    obtain rfl : _ = Pose.position p := hpose
    exact ⟨⟨h * k, mul_ne_zero hh hk, hsim.mul hposition⟩, hf.unit⟩
  | @inUnit a pose unit ratio room decoded divided =>
    obtain rfl : pose = .position p := hpose
    have hunit := hleg.unit a unit rfl decoded
    have hratio : (ratio.toScalar : ℝ) ≠ 0 := by
      rw [Ratio.of_div divided]
      exact div_ne_zero hunit hf.unit
    have hscaled : (f.placement * .scale ratio.toScalar).linear.PlaneSimilarity
        (h * ratio.toScalar) := Placement.mul_scale_linear _ _ ▸ hsim.scale hratio
    exact ⟨⟨_, mul_ne_zero (mul_ne_zero hh hratio) hk, hscaled.mul hposition⟩, hunit⟩

theorem job_of_leads {α : Type} [Scalar α] {f g : Frame α} {leg : Leg α} (hg : f.Leads leg g) :
    g.job = f.job := by
  cases hg <;> rfl

theorem IsPlain.along {route : List (Leg ℝ)} (hf : f.IsPlain)
    (hroute : ∀ leg ∈ route, leg.IsPlain f.job) (hg : f.along route = .ok g) : g.IsPlain := by
  have hkept : g.IsPlain ∧ g.job = f.job := by
    refine of_along (P := fun h => h.IsPlain ∧ h.job = f.job) ?_ ⟨hf, rfl⟩ hroute hg
    rintro h leg child ⟨hplain, hjob⟩ hleg hchild
    exact ⟨hplain.leads (hjob ▸ hleg) hchild, (job_of_leads hchild).trans hjob⟩
  exact hkept.1

end Frame
end Toolpath
