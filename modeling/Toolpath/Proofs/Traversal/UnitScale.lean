import Toolpath.Proofs.Program.UnitChange
import Toolpath.Proofs.Traversal.Checked
import Toolpath.Proofs.Traversal.Plain

/-! What frames below positions measure with. It is the innermost unit on the way to them, times the
scales of all positions; outer units, rotations and shifts do not matter. -/
namespace Toolpath
open Scalar

namespace Linear

theorem planar_mul_planar (a b : ℝ) : (planar a).mul (planar b) = planar (a + b) := by
  ext <;> simp [planar, mul, Vec.dot, columnX, columnY, columnZ, Real.cos_add, Real.sin_add] <;>
    ring

theorem norm_columnX_planar_scale (angle k : ℝ) : ((planar angle).scale k).columnX.norm = |k| := by
  have hsq : Real.cos angle * k * (Real.cos angle * k) +
      Real.sin angle * k * (Real.sin angle * k) + 0 * k * (0 * k) = k ^ 2 := by
    linear_combination k ^ 2 * Real.cos_sq_add_sin_sq angle
  rw [Vec.norm_real, ← Real.sqrt_sq_eq_abs, ← hsq]
  rfl

theorem norm_columnZ_planar_scale (angle k : ℝ) : ((planar angle).scale k).columnZ.norm = |k| := by
  have hsq : 0 * k * (0 * k) + 0 * k * (0 * k) + 1 * k * (1 * k) = k ^ 2 := by ring
  rw [Vec.norm_real, ← Real.sqrt_sq_eq_abs, ← hsq]
  rfl

/-- Positions on a route rotate in the plane, and their scales are multiplied. -/
theorem posed_positions {route : List (Leg ℝ)} {positions : List (Position ℝ)}
    (h : route.map Leg.pose = positions.map .position) (angle k : ℝ) :
    ∃ angle', ((planar angle).scale k).posed route =
      (planar angle').scale (k * (positions.map (·.scale.getD 1)).prod) := by
  induction route generalizing positions angle k with
  | nil =>
    obtain rfl : positions = [] := List.map_eq_nil_iff.mp h.symm
    exact ⟨angle, by simp [posed]⟩
  | cons leg rest ih =>
    obtain ⟨p, positions, rfl, hpose, hrest⟩ := List.map_eq_cons_iff.mp h.symm
    -- The rotation and the scale of a position add to those before it.
    obtain ⟨angle', hangle⟩ :=
      ih hrest.symm (angle + ofDegrees (p.rotation.getD 0)) (k * p.scale.getD 1)
    have hstep : ((planar angle).scale k).mul leg.pose.toPlacement.linear =
        (planar (angle + ofDegrees (p.rotation.getD 0))).scale (k * p.scale.getD 1) := by
      rw [← hpose, Pose.toPlacement, p.toPlacement_eq, mul_scale, scale_mul, planar_mul_planar,
        scale_scale]
    have hfactor : k * ((p :: positions).map (·.scale.getD 1)).prod =
        k * p.scale.getD 1 * (positions.map (·.scale.getD 1)).prod := by
      rw [List.map_cons, List.prod_cons]
      ring
    refine ⟨angle', ?_⟩
    rw [hfactor, ← hangle, ← hstep]
    rfl

end Linear

namespace Frame

/-- The unit of a frame is the value of an amount, or native where there is none, and lengths and
depths are alike multiplied by the unit and a factor, neither with its sign. -/
structure Scales (job : Job ℝ) (unit : Option Amount) (factor : ℝ) (f : Frame ℝ) : Prop where
  unit : match unit with
    | none => f.unitScale = 1
    | some a => job.decode a = .ok f.unitScale
  lengthScale : f.placement.lengthScale = |f.unitScale.toScalar| * |factor|
  depthScale : f.placement.depthScale = |f.unitScale.toScalar| * |factor|
  length : ∀ l, f.length l = l * (|f.unitScale.toScalar| * |factor|)
  depth : ∀ d, f.depth d = d * (|f.unitScale.toScalar| * |factor|)

variable {job : Job ℝ} {unit : Option Amount} {factor : ℝ} {f : Frame ℝ}

theorem Scales.of_linear (angle : ℝ)
    (hunit : match unit with
      | none => f.unitScale = 1
      | some a => job.decode a = .ok f.unitScale)
    (hlinear : f.placement.linear = (Linear.planar angle).scale (f.unitScale.toScalar * factor)) :
    f.Scales job unit factor := by
  have hlength : f.placement.lengthScale = |f.unitScale.toScalar| * |factor| := by
    rw [Placement.lengthScale_eq, hlinear, Linear.norm_columnX_planar_scale, abs_mul]
  have hdepth : f.placement.depthScale = |f.unitScale.toScalar| * |factor| := by
    rw [Placement.depthScale_eq, hlinear, Linear.norm_columnZ_planar_scale, abs_mul]
  exact ⟨hunit, hlength, hdepth, fun l => congrArg (l * ·) hlength,
    fun d => congrArg (d * ·) hdepth⟩

theorem scales_along {route : List (Leg ℝ)} {positions : List (Position ℝ)}
    (hpositions : route.map Leg.pose = positions.map .position)
    (hf : (root job).along route = .ok f) (depth : Depth ℝ) :
    f.Scales job (route.filterMap Leg.unit).getLast? (positions.map (·.scale.getD 1)).prod ∧
      (f.sink depth).Scales job (route.filterMap Leg.unit).getLast?
        (positions.map (·.scale.getD 1)).prod := by
  have hunit := unitScale_along hf
  have hroot : (root job).placement.linear.scale 1 =
      ((Linear.planar 0).scale 1).scale (root job).unitScale.toScalar := by
    simp [Linear.planar_zero, root, Placement.identity]
  have hlinear := linear_along one_ne_zero hroot hf
  obtain ⟨angle, hangle⟩ := Linear.posed_positions hpositions 0 1
  rw [hangle, one_mul, Linear.scale_one, Linear.scale_scale, mul_comm] at hlinear
  refine ⟨.of_linear angle hunit hlinear, .of_linear angle ?_ ?_⟩
  · rw [f.unitScale_sink depth]
    exact hunit
  · rw [f.placement_sink depth, f.unitScale_sink depth]
    exact hlinear

/-- A frame below positions measures with the innermost unit on its route and with the scales of all
positions, and no cut changes that by its depth. All frames that a traversal from outside all groups
hands to a backend are such frames, where positions are all that lead to them. -/
theorem scales_of_positions (job : Job ℝ) :
    (∀ (route : List (Leg ℝ)) (positions : List (Position ℝ)) f,
      route.map Leg.pose = positions.map .position → (root job).along route = .ok f → ∀ depth,
        f.Scales job (route.filterMap Leg.unit).getLast? (positions.map (·.scale.getD 1)).prod ∧
        (f.sink depth).Scales job (route.filterMap Leg.unit).getLast?
          (positions.map (·.scale.getD 1)).prod) ∧
    ∀ (σ ε : Type) (b : Backend ℝ σ ε) cuts s, ∀ c ∈ b.calls (root job) cuts s,
      ∃ route, c.EndsRoute (root job) cuts route ∧
        ∀ positions : List (Position ℝ), route.map Leg.pose = positions.map .position →
          c.frame.Scales job (route.filterMap Leg.unit).getLast?
            (positions.map (·.scale.getD 1)).prod := by
  refine ⟨fun route positions f => scales_along, fun σ ε b cuts s c hc => ?_⟩
  have hcall := (b.prefix_itinerary (root job) cuts s).subset hc
  obtain ⟨route, hroute⟩ := Cut.endsRoute_of_mem_calls hcall
  refine ⟨route, hroute, fun positions hpositions => ?_⟩
  obtain ⟨f, hf, hframe | ⟨depth, hframe⟩⟩ := hroute.frame
  · exact hframe ▸ (scales_along hpositions hf .through).1
  · exact hframe ▸ (scales_along hpositions hf depth).2

/-- Four inches, halved by two positions, below a group in millimeters. -/
theorem scales_of_positions_inch :
    ∃ f, (root (Job.quarterInch : Job ℝ)).along
        [⟨some (.single .millimeter 1), .position ⟨0, 0, none, some 90, some (-2)⟩⟩,
          ⟨some (.single .inch 1), .position ⟨1, 0, none, none, some (1 / 4)⟩⟩] = .ok f ∧
      f.unitScale = 1 ∧ f.length 4 = 2 ∧ f.depth 4 = 2 := by
  let outer : Position ℝ := ⟨0, 0, none, some 90, some (-2)⟩
  let inner : Position ℝ := ⟨1, 0, none, none, some (1 / 4)⟩
  have hmillimeter : (Job.quarterInch : Job ℝ).decode (.single .millimeter 1) = .ok ⟨5, 127⟩ := rfl
  have hinch : (Job.quarterInch : Job ℝ).decode (.single .inch 1) = .ok 1 := rfl
  have hdown : Ratio.div ⟨5, 127⟩ 1 = .ok ⟨5, 127⟩ := rfl
  have hup : Ratio.div 1 ⟨5, 127⟩ = .ok ⟨127, 5⟩ := rfl
  have hroom : ∀ n < 2, n < nestingLimit := by decide
  obtain ⟨f, hf⟩ : ∃ f, (root (Job.quarterInch : Job ℝ)).along
      [⟨some (.single .millimeter 1), .position outer⟩,
        ⟨some (.single .inch 1), .position inner⟩] = .ok f :=
    ⟨_, along_cons_eq_ok.mpr ⟨_, .inUnit (hroom 0 two_pos) hmillimeter hdown,
      along_cons_eq_ok.mpr ⟨_, .inUnit (hroom 1 one_lt_two) hinch hup, rfl⟩⟩⟩
  have hscales := ((scales_of_positions .quarterInch).1 _ [outer, inner] f rfl hf .through).1
  have hunit : f.unitScale = 1 := (Except.ok.inj hscales.unit).symm
  have hfactor : |(f.unitScale.toScalar : ℝ)| *
      |([outer, inner].map (·.scale.getD 1)).prod| = 1 / 2 := by
    rw [hunit, Ratio.toScalar_one]
    norm_num [outer, inner, abs_div]
  refine ⟨f, hf, hunit, ?_, ?_⟩
  · rw [hscales.length, hfactor]
    norm_num
  · rw [hscales.depth, hfactor]
    norm_num

end Frame
end Toolpath
