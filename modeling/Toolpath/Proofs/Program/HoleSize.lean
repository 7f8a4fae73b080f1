import Toolpath.Proofs.Program.Arcs

/-!
Round holes over exact coordinates. A hole is milled by full circles about its center on which the
edge of the bit meets the wall, or drilled where the bit is as wide as the hole.
-/
namespace Toolpath
open Scalar

/-- A bit that can cut has a tip, which may be a point. -/
theorem Bit.tipWidth_nonneg {b : Bit ℝ} (h : b.isUsable = true) : 0 ≤ b.tipWidth := by
  obtain ⟨name, profile⟩ := b
  cases profile with
  | flat diameter =>
    have hpos : 0 < diameter := of_decide_eq_true (Bool.and_eq_true_iff.mp h).2
    exact hpos.le
  | vee angle tip =>
    have htip : 0 ≤ tip := of_decide_eq_true (Bool.and_eq_true_iff.mp h).2
    have hdepth : greater (0 : ℝ) 0 = 0 := by rw [greater_real, max_self]
    have hwidth : (⟨name, .vee angle tip⟩ : Bit ℝ).tipWidth = tip := by
      simp [tipWidth, widthAt, hdepth]
    rwa [hwidth]

/-- The point that a circle is followed from. -/
def Path.circleEntry (radius : ℝ) : Vec ℝ := ⟨0, -radius, 0⟩

/-- What a level map stretches the plane by is the length of its first column. -/
theorem Linear.IsLevel.lengthScale_eq {t : Placement ℝ} (ht : t.linear.IsLevel) {k : ℝ}
    (hk : ∀ v, (t.applyVector v).normXY = v.normXY * k) : t.lengthScale = k := by
  have hunit : (Vec.unitX : Vec ℝ).normXY = 1 := by
    simp [Vec.normXY_real, Vec.unitX]
  have hstretched := ht.normXY_apply Vec.unitX
  have hcolumn : √((Vec.unitX : Vec ℝ).x ^ 2 + (Vec.unitX : Vec ℝ).y ^ 2) = 1 := by
    simp [Vec.unitX]
  rw [hcolumn, one_mul] at hstretched
  rw [Placement.lengthScale_eq, ← hstretched, ← one_mul k, ← hunit]
  exact hk _

/-- A position stretches the plane by its scale, whichever way that turns it. -/
theorem Position.normXY_applyVector (p : Position ℝ) (v : Vec ℝ) :
    (p.toPlacement.applyVector v).normXY = v.normXY * |p.scale.getD 1| := by
  have hcolumn : p.toPlacement.linear.columnX.norm = |p.scale.getD 1| := by
    rw [p.isLevel.norm_columnX, p.toPlacement_eq, ← Real.sqrt_sq_eq_abs]
    refine congrArg Real.sqrt ?_
    simp only [Linear.planar, Linear.scale, Vec.scale]
    linear_combination (p.scale.getD 1) ^ 2 * Real.cos_sq_add_sin_sq (ofDegrees (p.rotation.getD 0))
  have hnorm : √(v.x ^ 2 + v.y ^ 2) = v.normXY := by rw [Vec.normXY_real, sq, sq]
  rw [← hcolumn, ← hnorm]
  exact p.isLevel.normXY_apply v

namespace Carve
open Machine
variable {o : Options ℝ} {f : Frame ℝ} {s : Style ℝ}

/-- Circles at some heights, all of them from one place and back there. -/
def circles {α : Type} (left : Bool) (start center : Vec α) (number : Nat) (heights : List α) :
    List (Command α) :=
  (heights.zipIdx number).flatMap fun x =>
    stepDown x.1 .forward x.2 ++ [.arc left start center]

theorem circles_cons {α : Type} (left : Bool) (start center : Vec α) (number : Nat) (z : α)
    (rest : List α) : circles left start center number (z :: rest) =
      stepDown z .forward number ++ [.arc left start center] ++
        circles left start center (number + 1) rest := by
  unfold circles
  rw [List.zipIdx_cons, List.flatMap_cons]

/-- The place that a milled hole is circled from. -/
noncomputable def circleStart (f : Frame ℝ) (diameter : ℝ) : Vec ℝ :=
  f.place (Path.circleEntry (millRadius f diameter))

/-- The heights that a milled hole is circled at. -/
noncomputable def circleHeights (o : Options ℝ) (f : Frame ℝ) (diameter : ℝ) : List ℝ :=
  (descent o f (Path.circleEntry (millRadius f diameter))).passes

/-- Passes around a circle are circles, all of them forward. -/
theorem contour_circle {radius : ℝ} (h : radius ≠ 0) (heights : List ℝ) (number : Nat) :
    contour f (.circle radius) number (heights.map fun z => (z, .forward)) =
      circles (turnsLeft f .counterClockwise .forward) (f.place (Path.circleEntry radius))
        (f.place .zero) number heights := by
  induction heights generalizing number with
  | nil => rfl
  | cons z rest ih =>
    rw [List.map_cons, contour_cons, circles_cons, ih]
    rw [Path.circle_eq h]
    rfl

theorem path_circle {radius : ℝ} (h : radius ≠ 0)
    (hd : (descent o f (Path.circleEntry radius)).passes ≠ []) : path o f (.circle radius) =
      .issue (approach o (f.place (Path.circleEntry radius)) ++
        circles (turnsLeft f .counterClockwise .forward) (f.place (Path.circleEntry radius))
          (f.place .zero) 0 (descent o f (Path.circleEntry radius)).passes ++ toSafeHeight o) := by
  have hstart : (Path.circle radius).start? = some (Path.circleEntry radius) := by
    rw [Path.circle_eq h]
    rfl
  have hfinish : (Path.circle radius).finish? = some (Path.circleEntry radius) := by
    rw [Path.circle_eq h]
    rfl
  have hsame : (f.place (Path.circleEntry radius)).sameXY (f.place (Path.circleEntry radius)) := by
    simp [Vec.sameXY]
  have hheadings : (descent o f (Path.circleEntry radius)).passes.zip
      (headings (f.place (Path.circleEntry radius)) (f.place (Path.circleEntry radius))
        (descent o f (Path.circleEntry radius)).passes .forward
        (f.place (Path.circleEntry radius))) =
      (descent o f (Path.circleEntry radius)).passes.zipIdx.map fun x => (x.1, .forward) :=
    zip_headings_of_same (fun z _ => isNaN_real z) hsame 0
  have hforward :
      (descent o f (Path.circleEntry radius)).passes.zipIdx.map (fun x => (x.1, .forward)) =
        (descent o f (Path.circleEntry radius)).passes.map fun z => (z, Direction.forward) := by
    have hfst := (descent o f (Path.circleEntry radius)).passes.zipIdx_map_fst 0
    exact (List.map_map (l := (descent o f (Path.circleEntry radius)).passes.zipIdx)).symm.trans
      (congrArg (List.map fun z => (z, Direction.forward)) hfst)
  rw [path_eq (Path.check_circle radius) hstart hfinish hd, hheadings, hforward, contour_circle h]

/-- Each circle starts below the place that all of them end at. -/
theorem sweeps_circles (left : Bool) (start center : Vec ℝ) (number : Nat) (heights : List ℝ)
    {m : Machine ℝ} (hm : m.position.movedOver start = m.position) :
    m.sweeps s (circles left start center number heights) =
      heights.map fun z => ⟨{ start with z }, start, center⟩ := by
  induction heights generalizing number m with
  | nil => rfl
  | cons z rest ih =>
    have hx : m.position.x = start.x := by rw [← hm]; rfl
    have hy : m.position.y = start.y := by rw [← hm]; rfl
    have hcircle : m.sweeps s (stepDown z .forward number ++ [.arc left start center]) =
        [⟨{ start with z }, start, center⟩] := by
      change [(⟨⟨m.position.x, m.position.y, z⟩, start, center⟩ : Sweep ℝ)] = _
      rw [hx, hy]
    rw [circles_cons, sweeps_append, List.map_cons, hcircle, ih (number + 1) rfl]
    rfl

theorem hole_eq_circles (hk : f.placement.lengthScale ≠ 0) {diameter : ℝ}
    (h : f.job.bit.tipWidth < diameter * f.placement.lengthScale) :
    hole o f diameter = (do
      Block.issue [.remark (.circled (f.length diameter) f.job.native.name)]
      if circleHeights o f diameter = [] then pure ()
      else Block.issue (approach o (circleStart f diameter) ++
        circles (turnsLeft f .counterClockwise .forward) (circleStart f diameter)
          (f.place .zero) 0 (circleHeights o f diameter) ++ toSafeHeight o)) := by
  have hwide : ¬ f.length diameter - f.job.bit.tipWidth ≤ 0 := not_le.mpr (sub_pos.mpr h)
  have hradius : millRadius f diameter ≠ 0 := by
    have htwo : (two : ℝ) ≠ 0 := by rw [two_real]; norm_num
    exact div_ne_zero (div_ne_zero (sub_pos.mpr h).ne' htwo) hk
  rw [hole_of_wide hwide]
  by_cases hd : circleHeights o f diameter = []
  · have hstart : (Path.circle (millRadius f diameter)).start? =
        some (Path.circleEntry (millRadius f diameter)) := by
      rw [Path.circle_eq hradius]
      rfl
    rw [path_of_no_pass hstart hd, if_pos hd]
  · rw [path_circle hradius hd, if_neg hd]
    rfl

/-- The circle that is followed lies inside the wall of the hole by half of the tip. -/
theorem normXY_circleStart (hf : f.placement.linear.IsLevel) (hk : f.placement.lengthScale ≠ 0)
    {diameter : ℝ} (h : f.job.bit.tipWidth ≤ diameter * f.placement.lengthScale) :
    (circleStart f diameter - f.place .zero).normXY =
      (diameter * f.placement.lengthScale - f.job.bit.tipWidth) / 2 := by
  have hscale : 0 < f.placement.lengthScale := lt_of_le_of_ne (Real.sqrt_nonneg _) hk.symm
  have hradius : 0 ≤ millRadius f diameter := by
    unfold millRadius
    rw [two_real]
    exact div_nonneg (div_nonneg (sub_nonneg.mpr h) zero_le_two) hscale.le
  have hreach : √((Path.circleEntry (millRadius f diameter)).reachSq .zero) =
      millRadius f diameter := by
    simp [Path.circleEntry, Vec.reachSq, Vec.zero, Real.sqrt_sq hradius]
  rw [circleStart, Frame.normXY_place_sub hf, hreach, millRadius, div_mul_cancel₀ _ hk, two_real]
  rfl

theorem sweeps_hole_of_wide (hk : f.placement.lengthScale ≠ 0) {diameter : ℝ}
    (h : f.job.bit.tipWidth < diameter * f.placement.lengthScale) (m : Machine ℝ) :
    m.sweeps s (hole o f diameter).commands = (circleHeights o f diameter).map fun z =>
      ⟨{ circleStart f diameter with z }, circleStart f diameter, f.place .zero⟩ := by
  rw [hole_eq_circles hk h, Block.issue_bind]
  by_cases hd : circleHeights o f diameter = []
  · rw [if_pos hd, hd]
    rfl
  · have hcircles := sweeps_circles (s := s) (turnsLeft f .counterClockwise .forward)
      (circleStart f diameter) (f.place .zero) 0 (circleHeights o f diameter)
      (position_approach s m o (circleStart f diameter))
    rw [if_neg hd, ← hcircles]
    change m.sweeps s (approach o _ ++ circles _ _ _ _ _ ++ toSafeHeight o) = _
    rw [sweeps_append, sweeps_append, sweeps_approach, sweeps_toSafeHeight, List.append_nil,
      List.nil_append]

theorem sweeps_hole_of_narrow {diameter : ℝ}
    (h : f.length diameter - f.job.bit.tipWidth ≤ 0) (m : Machine ℝ) :
    m.sweeps s (hole o f diameter).commands = [] := by
  rw [hole_of_narrow h, Block.issue_bind]
  exact sweeps_peck f m

/-- A cut through the stock, placed at twice its size and turned half around. -/
noncomputable def doubled : Frame ℝ :=
  .sink (.root .quarterInch (Position.toPlacement { x := 1, y := 1, scale := some (-two) }))
    .through

end Carve
end Toolpath
