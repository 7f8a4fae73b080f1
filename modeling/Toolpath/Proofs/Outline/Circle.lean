import Toolpath.Proofs.Geometry.Exact
import Toolpath.Outline.Shapes
import Toolpath.Proofs.Outline.Snapped

/-! The outline of a circle over exact coordinates. -/
namespace Toolpath
open Scalar

theorem unitAt_quarterTurn : unitAt (quarterTurn : ℝ) = (0, 1) := by
  rw [unitAt_eq, snapped_quarterTurn, quarterTurn_real, Real.cos_pi_div_two, Real.sin_pi_div_two]

theorem unitAt_fullTurn : unitAt (fullTurn : ℝ) = (1, 0) := by
  have hsnapped : snapped fullTurn = fullTurn := by
    simpa [fullTurn_eq] using snapped_mul_quarterTurn 4
  rw [unitAt_eq, hsnapped, fullTurn_real, Real.cos_two_pi, Real.sin_two_pi]

namespace Vec
variable (a b : Vec ℝ)

theorem turned_quarterTurn : a.turned quarterTurn = ⟨-a.y, a.x, a.z⟩ := by
  unfold turned
  rw [unitAt_quarterTurn]
  ext <;> simp

theorem turned_neg_quarterTurn : a.turned (-quarterTurn) = ⟨a.y, -a.x, a.z⟩ := by
  unfold turned
  rw [unitAt_neg, unitAt_quarterTurn]
  ext <;> simp

theorem turned_fullTurn : a.turned fullTurn = a := by
  unfold turned
  rw [unitAt_fullTurn]
  ext <;> simp

theorem alike_eq_true : a.alike b = true ↔ a = b := by
  simp [alike, Scalar.alike, Vec.ext_iff, and_assoc]

theorem beq_eq_true : (a == b) = true ↔ a = b := by
  simp [BEq.beq, Vec.ext_iff, and_assoc]

end Vec

/-- A turn of a full circle adds the center, and comes back to where it starts. -/
theorem Cursor.turn_fullTurn {start : Vec ℝ} {radius : ℝ} (h : radius ≠ 0) :
    (Cursor.new start).turn fullTurn radius .round =
      ⟨start, [start + ⟨0, radius, 0⟩], [(start, 0), (start + ⟨0, radius, 0⟩, 1)],
        [.arc 0 0 1 .counterClockwise], 0, .unitX⟩ := by
  have hradius : ¬ (radius == (0 : ℝ)) = true := by simpa using h
  have hturned : (Vec.unitX.scale radius).turned quarterTurn = ⟨0, radius, 0⟩ := by
    rw [Vec.turned_quarterTurn]
    ext <;> simp [Vec.unitX]
  have hback : start + ⟨0, radius, 0⟩ - ⟨0, radius, 0⟩ = start := by
    ext <;> simp
  have hcenter : start.alike (start + ⟨0, radius, 0⟩) = false := by
    rw [Bool.eq_false_iff, ne_eq, Vec.alike_eq_true]
    intro heq
    exact h (left_eq_add.mp (congrArg Vec.y heq))
  have hstart : start.alike start = true := (Vec.alike_eq_true _ _).mpr rfl
  have hadded : (Cursor.new start).vertex (start + ⟨0, radius, 0⟩) =
      (1, ⟨start, [start + ⟨0, radius, 0⟩], [(start, 0), (start + ⟨0, radius, 0⟩, 1)], [], 0,
        .unitX⟩) := by
    simp [Cursor.vertex, Cursor.place?, Cursor.vertices, Cursor.new, hcenter]
  have hfound : Cursor.vertex ⟨start, [start + ⟨0, radius, 0⟩],
        [(start, 0), (start + ⟨0, radius, 0⟩, 1)], [], 0, .unitX⟩ start =
      (0, ⟨start, [start + ⟨0, radius, 0⟩], [(start, 0), (start + ⟨0, radius, 0⟩, 1)], [], 0,
        .unitX⟩) := by
    simp [Cursor.vertex, Cursor.place?, hstart]
  have hposition : (Cursor.new start).position = start := rfl
  have hheading : (Cursor.new start).heading = .unitX := rfl
  have hsense : Sense.ofAngle (fullTurn : ℝ) = .counterClockwise := if_neg fullTurn_pos.not_gt
  unfold Cursor.turn
  simp only [if_neg hradius, if_pos fullTurn_pos, hposition, hheading, hturned, hback, hadded,
    hfound, hsense, Vec.turned_fullTurn]
  rfl

theorem Cursor.close_of_current {b : Cursor ℝ} (h : b.current = 0) : b.close = b := by
  have hthere : (b.first == b.position) = true := by
    rw [Cursor.position, h]
    simp [BEq.beq, Cursor.vertices]
  unfold Cursor.close Cursor.lineTo
  rw [if_pos hthere]

/-- A circle with a radius is one arc about the origin, from its lowest point to there again. -/
theorem Path.circle_eq {radius : ℝ} (h : radius ≠ 0) :
    Path.circle radius = ⟨[⟨0, -radius, 0⟩, .zero], [.arc 0 0 1 .counterClockwise]⟩ := by
  have hcenter : (⟨0, -radius, 0⟩ : Vec ℝ) + ⟨0, radius, 0⟩ = .zero := by
    ext <;> simp [Vec.zero]
  unfold Path.circle
  rw [Cursor.turn_fullTurn h, Cursor.close_of_current rfl, hcenter]
  rfl

theorem Path.circle_zero : Path.circle (0 : ℝ) = ⟨[.zero], []⟩ := by
  have hzero : ((0 : ℝ) == 0) = true := decide_eq_true rfl
  have hturn : (Cursor.new (⟨0, -0, 0⟩ : Vec ℝ)).turn fullTurn 0 .round = .new ⟨0, -0, 0⟩ := by
    unfold Cursor.turn
    simp only [if_pos hzero, Vec.turned_fullTurn]
  unfold Path.circle
  rw [hturn, Cursor.close_of_current rfl, neg_zero]
  rfl

end Toolpath
