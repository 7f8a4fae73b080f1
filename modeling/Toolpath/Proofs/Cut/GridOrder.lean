import Mathlib.Tactic.Linarith
import Toolpath.Proofs.Cut.Grid
import Toolpath.Proofs.Scalar.Signed

/-! Neighbours in the order of the positions of a grid. The axis that the positions run along is
chosen by the spacings as they are given, with their signs and before a zero is replaced. So it need
not be the one with the smaller distances. -/
namespace Toolpath
open Scalar

section
variable {x y one : ℝ}

theorem abs_le_abs_iff_of_lt (h : x < y) : |x| ≤ |y| ↔ -x ≤ y := by
  constructor
  · intro hle
    by_contra hneg
    have hless : |y| < -x := abs_lt.mpr ⟨by linarith, not_le.mp hneg⟩
    exact (hle.trans_lt hless).not_ge (neg_le_abs x)
  · intro hsum
    exact (abs_le.mpr ⟨by linarith, h.le⟩).trans (le_abs_self y)

/-- Two values are in the order of their distances from zero. -/
theorem abs_order_iff :
    (x < y → |x| ≤ |y|) ∧ (¬ x < y → |y| ≤ |x|) ↔ x = y ∨ -x ≤ y := by
  rcases lt_trichotomy x y with h | rfl | h
  · simp [abs_le_abs_iff_of_lt h, h, h.ne]
  · simp
  · simp [abs_le_abs_iff_of_lt h, h.ne', h.not_gt, neg_le]

/-- The same of zero and another value, where zero is as far away as a third one. -/
theorem abs_order_zero_iff (hone : 0 < one) :
    (0 < y → one ≤ |y|) ∧ (y < 0 → |y| ≤ one) ↔ one ≤ y ∨ -one ≤ y ∧ y ≤ 0 := by
  rcases lt_trichotomy 0 y with h | rfl | h
  · simp [h, h.not_gt, h.not_ge, abs_of_pos h]
  · simp [hone.le]
  · have hnot : ¬ one ≤ y := (h.trans hone).not_ge
    simp [h, h.not_gt, h.le, hnot, abs_of_neg h, neg_le]

/-- The same of two values in whose place the third one is taken if they are zero. -/
theorem abs_order_replaced_iff (hone : 0 < one) :
    (x < y → |if x = 0 then one else x| ≤ |if y = 0 then one else y|) ∧
      (¬ x < y → |if y = 0 then one else y| ≤ |if x = 0 then one else x|) ↔
    if x = 0 then one ≤ y ∨ -one ≤ y ∧ y ≤ 0
    else if y = 0 then one ≤ x ∨ -one ≤ x ∧ x ≤ 0
    else x = y ∨ -x ≤ y := by
  by_cases hx : x = 0
  · by_cases hy : y = 0
    · simp [hx, hy, hone.le]
    · have hnot : ¬ 0 < y ↔ y < 0 := not_lt.trans (le_iff_lt_or_eq.trans (or_iff_left hy))
      simp only [hx, hy, if_true, if_false, abs_of_pos hone, hnot]
      exact abs_order_zero_iff hone
  · by_cases hy : y = 0
    · have hnot : ¬ x < 0 ↔ 0 < x := not_lt.trans (le_iff_lt_or_eq.trans (or_iff_left (Ne.symm hx)))
      simp only [hx, hy, if_true, if_false, abs_of_pos hone, hnot]
      exact and_comm.trans (abs_order_zero_iff hone)
    · simp only [hx, hy, if_false]
      exact abs_order_iff

end

namespace Signed
variable {α : Type} [Scalar α] [Signed α] {a : α}

theorem value_abs (ha : isNaN a = false) :
    isNaN (Scalar.abs a) = false ∧ value (Scalar.abs a) = |value a| := by
  obtain ⟨hneg, hvalue⟩ := value_neg ha
  have hlt := lt_iff ha value_zero.1
  rw [value_zero.2] at hlt
  unfold Scalar.abs
  split_ifs with h
  · exact ⟨hneg, hvalue.trans (abs_of_neg (hlt.mp h)).symm⟩
  · exact ⟨ha, (abs_of_nonneg (not_lt.mp (hlt.not.mp h))).symm⟩

theorem beq_zero_iff (ha : isNaN a = false) : (a == 0) = true ↔ value a = 0 := by
  rw [beq_iff ha value_zero.1, value_zero.2]

theorem value_spacing (ha : isNaN a = false) :
    isNaN (Grid.spacing a) = false ∧
      value (Grid.spacing a) = if value a = 0 then value (1 : α) else value a := by
  unfold Grid.spacing
  simp only [beq_zero_iff ha]
  split_ifs
  · exact ⟨value_one.1, rfl⟩
  · exact ⟨ha, rfl⟩

end Signed

namespace Grid
variable {α : Type} [Scalar α] (g : Grid α)

/-- How far neighbours along an axis are from each other. -/
def distance : Axis → α
  | .x => Scalar.abs (spacing g.dx)
  | .y => Scalar.abs (spacing g.dy)

/-- The spacings as they are given are in the order of the distances. Two that are not zero are, if
they are equal or their sum is not negative. Beside a zero, which stands for one, the other one has
to be at least one, or from minus one to zero. -/
def InOrder : Prop :=
  if g.dx == 0 then 1 ≤ g.dy ∨ -1 ≤ g.dy ∧ g.dy ≤ 0
  else if g.dy == 0 then 1 ≤ g.dx ∨ -1 ≤ g.dx ∧ g.dx ≤ 0
  else g.dx == g.dy ∨ -g.dx ≤ g.dy

open Signed in
theorem inOrder_iff [Signed α] (hx : isNaN g.dx = false) (hy : isNaN g.dy = false) :
    g.InOrder ↔ (g.dx < g.dy → g.distance .x ≤ g.distance .y) ∧
      (¬ g.dx < g.dy → g.distance .y ≤ g.distance .x) := by
  obtain ⟨hdx, hdistx⟩ := value_abs (value_spacing hx).1
  obtain ⟨hdy, hdisty⟩ := value_abs (value_spacing hy).1
  rw [(value_spacing hx).2] at hdistx
  rw [(value_spacing hy).2] at hdisty
  obtain ⟨hone, hpos⟩ := value_one (α := α)
  obtain ⟨hminus, hneg⟩ := value_neg hone
  obtain ⟨hnegx, hvaluex⟩ := value_neg hx
  obtain ⟨hzero, hvalue⟩ := value_zero (α := α)
  unfold InOrder distance
  simp only [beq_zero_iff hx, beq_zero_iff hy, lt_iff hx hy, le_iff hdx hdy, le_iff hdy hdx,
    le_iff hone hx, le_iff hone hy, le_iff hminus hx, le_iff hminus hy, le_iff hx hzero,
    le_iff hy hzero, beq_iff hx hy, le_iff hnegx hy, hdistx, hdisty, hneg, hvaluex, hvalue]
  exact (abs_order_replaced_iff hpos).symm

/-- The positions of a grid of several columns and rows run along one axis. It is one on which
neighbours are no farther from each other than on the other axis if and only if the spacings are in
the order of the distances. -/
theorem runsAlong_nearer_iff [Signed α] (g : Grid α) (hx : isNaN g.dx = false)
    (hy : isNaN g.dy = false) (hcolumns : 2 ≤ g.columns) (hrows : 2 ≤ g.rows) :
    ∃ a, g.RunsAlong a ∧ (g.positions.Nodup → ∀ b, g.RunsAlong b → b = a) ∧
      (g.distance a ≤ g.distance a.other ↔ g.InOrder) := by
  refine ⟨_, g.runsAlong, fun hnodup b hb => ?_, ?_⟩
  · exact hb.unique g.runsAlong hnodup hcolumns hrows
  · rw [g.inOrder_iff hx hy]
    split_ifs with h <;> simp [h, Axis.other]

/-- Columns that go to the left, with rows that are nearer to each other. -/
theorem runsAlong_nearer_iff_left :
    let g : Grid Float := ⟨0, 0, -5, 1, 2, 2⟩
    isNaN g.dx = false ∧ isNaN g.dy = false ∧ 2 ≤ g.columns ∧ 2 ≤ g.rows ∧
      ∃ a, g.RunsAlong a ∧ ¬ g.distance a ≤ g.distance a.other := by
  intro g
  have hx : isNaN g.dx = false := by decide
  have hy : isNaN g.dy = false := by decide
  obtain ⟨a, ha, -, hnearer⟩ := runsAlong_nearer_iff g hx hy le_rfl le_rfl
  refine ⟨hx, hy, le_rfl, le_rfl, a, ha, fun h => ?_⟩
  have horder : ¬ g.InOrder := by
    have hdx : ¬ (-5 : Float) == 0 := by decide
    have hdy : ¬ (1 : Float) == 0 := by decide
    have hne : ¬ ((-5 : Float) == 1 ∨ -(-5 : Float) ≤ 1) := by decide
    unfold InOrder
    rwa [if_neg hdx, if_neg hdy]
  exact horder (hnearer.mp h)

end Grid
end Toolpath
