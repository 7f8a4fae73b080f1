import Toolpath.Proofs.Outline.Pen

/-! Turns in the plane. Both ends of the arc are as far from its center as the radius, the cursor
leaves it along the tangent, and a turn back by the same angle repeats the way of the turn. -/
namespace Toolpath
open Scalar

namespace Vec
variable (v w : Vec ℝ) (angle : ℝ)

theorem norm_turned : (v.turned angle).norm = v.norm := by
  have hsq := v.turned_sq angle
  have hz : (v.turned angle).z = v.z := rfl
  rw [norm_real, norm_real, hz]
  congr 1
  linear_combination hsq

theorem dot_turned : (v.turned angle).dot (w.turned angle) = v.dot w := by
  have hunit := unitAt_sq angle
  unfold turned dot
  dsimp only
  linear_combination (v.x * w.x + v.y * w.y) * hunit

theorem turned_zero : v.turned 0 = v := by
  unfold turned
  rw [unitAt_eq, snapped_zero, Real.cos_zero, Real.sin_zero]
  ext <;> simp

theorem turned_sub : (v - w).turned angle = v.turned angle - w.turned angle := by
  unfold turned
  ext <;> simp <;> ring

theorem turned_turned_neg : (v.turned angle).turned (-angle) = v := by
  have hunit := unitAt_sq angle
  unfold turned
  rw [unitAt_neg]
  ext
  · dsimp only
    linear_combination v.x * hunit
  · dsimp only
    linear_combination v.y * hunit
  · rfl

theorem scale_turned (k : ℝ) : (v.turned angle).scale k = (v.scale k).turned angle := by
  unfold turned
  ext <;> simp <;> ring

theorem norm_aside : (v.aside angle).norm = v.norm := by
  rw [aside_eq, norm_turned]

variable {v}

theorem dot_aside (h : v.z = 0) (k : ℝ) : v.dot ((v.scale k).aside angle) = 0 := by
  unfold dot aside
  split_ifs
  · simp only [scale_x, scale_y, scale_z, h]
    ring
  · simp only [scale_x, scale_y, scale_z, h]
    ring

theorem aside_turned_neg (h : v.z = 0) {angle : ℝ} (hangle : angle ≠ 0) :
    (v.turned angle).aside (-angle) = zero - (v.aside angle).turned angle := by
  unfold aside turned
  rcases hangle.lt_or_gt with hneg | hpos
  · rw [if_pos (neg_pos.mpr hneg), if_neg hneg.not_gt]
    ext <;> simp [h, zero] <;> ring
  · rw [if_neg (neg_neg_of_pos hpos).not_gt, if_pos hpos]
    ext <;> simp [h, zero]
    ring

end Vec

namespace Pen
variable (p : Pen) (angle radius : ℝ)

theorem center_sub : p.center angle radius - p.position = (p.heading.scale radius).aside angle := by
  rw [center, Vec.add_sub_self]

theorem center_sub_finish : p.center angle radius - p.finish angle radius =
    ((p.heading.scale radius).aside angle).turned angle := by
  ext <;> simp [finish]

theorem finish_sub : p.finish angle radius - p.position =
    (p.heading.scale radius).aside angle -
      ((p.heading.scale radius).aside angle).turned angle := by
  ext <;> simp [finish, center] <;> ring

/-- The ends of a turn are as far from its center as the radius. -/
theorem norm_center_sub (hunit : p.heading.norm = 1) {radius : ℝ} (hradius : 0 ≤ radius) :
    (p.center angle radius - p.position).norm = radius ∧
      (p.center angle radius - p.finish angle radius).norm = radius := by
  have hreach : ((p.heading.scale radius).aside angle).norm = radius := by
    rw [Vec.norm_aside, Vec.norm_scale _ _ hradius, hunit, one_mul]
  rw [center_sub, center_sub_finish, Vec.norm_turned]
  exact ⟨hreach, hreach⟩

/-- A turn ends along the tangent. -/
theorem tangent (hlevel : p.heading.z = 0) :
    (p.heading.turned angle).dot (p.center angle radius - p.finish angle radius) = 0 := by
  rw [center_sub_finish, Vec.dot_turned, Vec.dot_aside angle hlevel]

/-- A turn back goes as far again, in the same direction. -/
theorem finish_turn_back (h : p.heading.z = 0) (corner : Corner) :
    (p.turn angle radius corner).finish (-angle) radius - p.finish angle radius =
      p.finish angle radius - p.position := by
  have hsecond := (p.turn angle radius corner).finish_sub (-angle) radius
  have hfirst := p.finish_sub angle radius
  have hheading : (p.turn angle radius corner).heading.scale radius =
      (p.heading.scale radius).turned angle := Vec.scale_turned p.heading angle radius
  rw [hheading] at hsecond
  refine hsecond.trans (Eq.trans ?_ hfirst.symm)
  by_cases hangle : angle = 0
  · rw [hangle, neg_zero, Vec.turned_zero, Vec.turned_zero]
  · have hlevel : (p.heading.scale radius).z = 0 := by
      rw [Vec.scale_z, h, zero_mul]
    have hturned := Vec.turned_turned_neg ((p.heading.scale radius).aside angle) angle
    rw [Vec.aside_turned_neg hlevel hangle, Vec.turned_sub, hturned]
    ext <;> simp [Vec.turned, Vec.zero] <;> ring

end Pen

namespace Cursor
variable {b : Cursor ℝ} {radius : ℝ}

/-- From a heading of length one in the plane, the ends of a rounded turn are as far from its center
as the radius. The heading turns by the angle, and is along the tangent. A turn back restores the
heading, and moves the cursor as far again. -/
theorem turn_back (h : b.Sound) (hlevel : b.heading.z = 0) (hunit : b.heading.norm = 1)
    (hradius : 0 < radius) (angle : ℝ) (corner corner' : Corner) :
    (∃ center, (b.turn angle radius .round).path.edges = b.path.edges ++
        [.arc b.position (b.turn angle radius .round).position center (.ofAngle angle)] ∧
      (b.position - center).norm = radius ∧
      ((b.turn angle radius .round).position - center).norm = radius ∧
      (b.turn angle radius .round).heading.dot
        ((b.turn angle radius .round).position - center) = 0) ∧
    (b.turn angle radius corner).heading = (Linear.planar (snapped angle)).apply b.heading ∧
    ((b.turn angle radius corner).turn (-angle) radius corner').heading = b.heading ∧
    ((b.turn angle radius corner).turn (-angle) radius corner').position -
        (b.turn angle radius corner).position =
      (b.turn angle radius corner).position - b.position := by
  have hposition (corner : Corner) : (b.turn angle radius corner).position =
      b.pen.finish angle radius := congrArg Pen.position (pen_turn h angle radius corner)
  obtain ⟨hstart, hfinish⟩ := b.pen.norm_center_sub angle hunit hradius.le
  refine ⟨⟨b.pen.center angle radius, ?_, ?_, ?_, ?_⟩, ?_, ?_, ?_⟩
  · have hedges := congrArg Pen.edges (pen_turn h angle radius .round)
    rw [Pen.turn, if_neg hradius.ne'] at hedges
    rw [hposition]
    exact hedges
  · rw [Vec.norm_sub_comm]
    exact hstart
  · rw [hposition, Vec.norm_sub_comm]
    exact hfinish
  · rw [hposition, Vec.dot_sub_comm, neg_eq_zero]
    exact b.pen.tangent angle radius hlevel
  · exact b.heading.turned_eq angle
  · exact b.heading.turned_turned_neg angle
  · have hback := congrArg Pen.position
      (pen_turn (h.turn angle radius corner) (-angle) radius corner')
    change _ = (b.turn angle radius corner).pen.finish (-angle) radius at hback
    rw [pen_turn h] at hback
    change ((b.turn angle radius corner).turn (-angle) radius corner').position = _ at hback
    rw [hback, hposition]
    exact b.pen.finish_turn_back angle radius hlevel corner

/-- A rounded turn to the right by a radian, and back with a chamfer. -/
theorem turn_back_radian :
    let b := Cursor.new (.zero : Vec ℝ)
    b.heading.z = 0 ∧ b.heading.norm = 1 ∧ (0 : ℝ) < 2 ∧
    ((b.turn (-1) 2 .round).turn (- -1) 2 .chamfer).heading = .unitX ∧
    ((b.turn (-1) 2 .round).turn (- -1) 2 .chamfer).position - (b.turn (-1) 2 .round).position =
      (b.turn (-1) 2 .round).position - .zero := by
  intro b
  have hunit : b.heading.norm = 1 := by
    change (Vec.unitX : Vec ℝ).norm = 1
    simp [Vec.norm_real, Vec.unitX]
  obtain ⟨-, -, hheading, hfar⟩ :=
    turn_back (sound_new .zero) rfl hunit two_pos (-1) .round .chamfer
  exact ⟨rfl, hunit, two_pos, hheading, hfar⟩

end Cursor
end Toolpath
