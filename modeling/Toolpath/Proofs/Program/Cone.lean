import Mathlib.Analysis.Normed.Group.AddTorsor
import Mathlib.LinearAlgebra.AffineSpace.Ordered
import Toolpath.Proofs.Program.Pocket

/-! The cone that a pocket draws, and the heights that its rings are carved at. -/
namespace Toolpath
open Scalar

/-- A cone by the radius and the depth of its two ends. -/
structure Cone where
  rim : ℝ
  base : ℝ
  edge : ℝ
  bottom : ℝ

namespace Cone
variable {c : Cone} {most r : ℝ}

/-- The depth at a radius: on the line from the edge to the bottom, and that of the bottom where
both are at one radius. -/
noncomputable def depth (c : Cone) (r : ℝ) : ℝ :=
  if c.rim = c.base then c.bottom
  else AffineMap.lineMap c.edge c.bottom ((c.rim - r) / (c.rim - c.base))

/-- The cone with neither its edge nor its bottom below a depth. -/
noncomputable def held (c : Cone) (most : ℝ) : Cone :=
  { c with edge := min c.edge most, bottom := min c.bottom most }

/-- The wall passes a depth on its way between the two ends. -/
def Passes (c : Cone) (most : ℝ) : Prop :=
  min c.edge c.bottom < most ∧ most < max c.edge c.bottom

/-- Inside a line that passes a depth, holding the two ends there gives less than holding the line
itself. -/
theorem lineMap_lt_min {a b t : ℝ} (h0 : 0 < t) (h1 : t < 1) (hab : min a b < most)
    (hba : most < max a b) :
    AffineMap.lineMap (min a most) (min b most) t < min (AffineMap.lineMap a b t) most := by
  rcases min_lt_iff.mp hab with ha | hb
  · have hb : most < b := (lt_max_iff.mp hba).resolve_left ha.not_gt
    rw [min_eq_left ha.le, min_eq_right hb.le]
    exact lt_min (lineMap_strict_mono_right hb h0) ((lineMap_lt_right_iff_lt h1).mpr ha)
  · have ha : most < a := (lt_max_iff.mp hba).resolve_right hb.not_gt
    rw [min_eq_right ha.le, min_eq_left hb.le]
    exact lt_min (lineMap_strict_mono_left ha h1) ((lineMap_lt_left_iff_lt h0).mpr hb)

/-- Holding both ends of a line is holding the line itself exactly at the ends, and all along a line
that does not pass. -/
theorem lineMap_min_eq_iff {a b t : ℝ} (h0 : 0 ≤ t) (h1 : t ≤ 1) :
    AffineMap.lineMap (min a most) (min b most) t = min (AffineMap.lineMap a b t) most ↔
      t = 0 ∨ t = 1 ∨ ¬ (min a b < most ∧ most < max a b) := by
  constructor
  · intro h
    by_contra hne
    obtain ⟨hzero, hone, hpass⟩ := by simpa only [not_or, not_not] using hne
    have hlt := lineMap_lt_min (h0.lt_of_ne' hzero) (h1.lt_of_ne hone) hpass.1 hpass.2
    exact hlt.ne h
  · rintro (rfl | rfl | hpass)
    · rw [AffineMap.lineMap_apply_zero, AffineMap.lineMap_apply_zero]
    · rw [AffineMap.lineMap_apply_one, AffineMap.lineMap_apply_one]
    · rcases not_and_or.mp hpass with hdeep | hshallow
      · obtain ⟨ha, hb⟩ := le_min_iff.mp (not_lt.mp hdeep)
        have hline := lineMap_mono_endpoints ha hb h0 h1
        rw [AffineMap.lineMap_same_apply] at hline
        rw [min_eq_right ha, min_eq_right hb, min_eq_right hline, AffineMap.lineMap_same_apply]
      · obtain ⟨ha, hb⟩ := max_le_iff.mp (not_lt.mp hshallow)
        have hline := lineMap_mono_endpoints ha hb h0 h1
        rw [AffineMap.lineMap_same_apply] at hline
        rw [min_eq_left ha, min_eq_left hb, min_eq_left hline]

/-- Where the wall of a held cone is that of the cone itself. -/
theorem held_depth_eq_iff (hin : c.base ≤ r) (hout : r ≤ c.rim) :
    (c.held most).depth r = min (c.depth r) most ↔
      r = c.rim ∨ r = c.base ∨ ¬ c.Passes most := by
  by_cases hcylinder : c.rim = c.base
  · have hr : r = c.rim := hout.antisymm (hcylinder ▸ hin)
    unfold depth held
    dsimp only
    rw [if_pos hcylinder, if_pos hcylinder]
    exact ⟨fun _ => .inl hr, fun _ => rfl⟩
  · have hspan : 0 < c.rim - c.base := sub_pos.mpr ((hin.trans hout).lt_of_ne' hcylinder)
    have hzero : (c.rim - r) / (c.rim - c.base) = 0 ↔ r = c.rim := by
      rw [div_eq_zero_iff, or_iff_left hspan.ne', sub_eq_zero, eq_comm]
    have hone : (c.rim - r) / (c.rim - c.base) = 1 ↔ r = c.base := by
      rw [div_eq_one_iff_eq hspan.ne', sub_right_inj]
    rw [← hzero, ← hone]
    unfold depth held
    dsimp only
    rw [if_neg hcylinder, if_neg hcylinder]
    have h0 : 0 ≤ (c.rim - r) / (c.rim - c.base) := div_nonneg (by linarith) hspan.le
    have h1 : (c.rim - r) / (c.rim - c.base) ≤ 1 := (div_le_one hspan).mpr (by linarith)
    exact lineMap_min_eq_iff h0 h1

end Cone

/-- The wall of a plan is that of the cone between its ends. -/
theorem PocketPlan.Sound.wallDepth_eq {p : PocketPlan ℝ} (hp : p.Sound) (r : ℝ) : p.wallDepth r =
    Cone.depth ⟨p.topRadius, p.bottomRadius, p.edgeDepth, p.bottomDepth⟩ r := by
  unfold Cone.depth
  rcases hp.rim.eq_or_lt with hcylinder | hspan
  · rw [if_pos hcylinder.symm, PocketPlan.wallDepth_of_le hcylinder.ge]
  · rw [if_neg hspan.ne', PocketPlan.wallDepth_of_lt hspan]
    rfl

namespace Carve
open Machine
variable {f : Frame ℝ} {p : Pocket ℝ} {plan : PocketPlan ℝ} {bottom : ℝ}

/-- The cone that a pocket draws, in the machine's lengths. -/
noncomputable def cone (f : Frame ℝ) (p : Pocket ℝ) (bottom : ℝ) : Cone :=
  ⟨f.length p.diameter / two, f.length p.bottomDiameter / two, f.depth p.edgeDepth, f.depth bottom⟩

/-- Rings follow the cone between ends that are held inside the stock. -/
theorem depth_eq_held_of_mem_rings (hdepth : p.bottomDepth = .down bottom)
    (hplan : pocketPlan f p = .ok plan) {r : Ring ℝ} (hr : r ∈ plan.rings) :
    (cone f p bottom).base ≤ r.radius ∧ r.radius ≤ (cone f p bottom).rim ∧
      r.depth = ((cone f p bottom).held (stockBelow f)).depth r.radius := by
  obtain ⟨hnew, hsound⟩ := PocketPlan.sound_of_new hplan
  obtain ⟨hin, hout, hwall⟩ := PocketPlan.of_mem_rings hsound hr
  have hends : (⟨plan.topRadius, plan.bottomRadius, plan.edgeDepth, plan.bottomDepth⟩ : Cone) =
      (cone f p bottom).held (stockBelow f) := by
    rw [hnew, hdepth, pocketDepth, lesser_real, lesser_real]
    rfl
  rw [← hends, ← hsound.wallDepth_eq]
  have hrim : (cone f p bottom).rim = plan.topRadius := (congrArg Cone.rim hends).symm
  have hbase : (cone f p bottom).base = plan.bottomRadius := (congrArg Cone.base hends).symm
  exact ⟨hbase.trans_le hin, hout.trans_eq hrim.symm, hwall⟩

/-- A pocket is carved in full circles, each at one height. That height is the height of the drawn
cone, held above the bottom face, exactly for the circles at the rim and at the base and for cones
that do not leave the stock between these. -/
theorem pocket_follows_cone (o : Options ℝ) (hopen : p.cutsBottom = false)
    (hdepth : p.bottomDepth = .down bottom) (habove : f.job.floor < (f.place .zero).z)
    (hplan : pocketPlan f p = .ok plan) (s : Style ℝ) (m : Machine ℝ) :
    (pocket o f p).result = .ok () ∧
      (m.sweeps s (pocket o f p).commands).map Sweep.radius = plan.rings.map Ring.radius ∧
      ∀ a ∈ m.sweeps s (pocket o f p).commands, a.finish = a.start ∧
        (a.start.z = max ((f.place .zero).z - (cone f p bottom).depth a.radius) f.job.floor ↔
          a.radius = (cone f p bottom).rim ∨ a.radius = (cone f p bottom).base ∨
            ¬ (cone f p bottom).Passes (stockBelow f)) := by
  have hstock : ¬ stockBelow f ≤ 0 := by
    unfold stockBelow
    linarith
  have hradius (r : Ring ℝ) (hr : r ∈ plan.rings) : (ringSweep f r).radius = r.radius := by
    have hsound := sound_of_pocketPlan hplan
    rw [radius_ringSweep]
    exact abs_of_nonneg (hsound.bottom.trans (PocketPlan.of_mem_rings hsound hr).1)
  have hsweeps : m.sweeps s (pocket o f p).commands = plan.rings.map (ringSweep f) := by
    rw [sweeps_pocket, carvedRings_of_plan hopen hstock hplan]
  refine ⟨pocket_ok hopen hstock hplan o, ?_, ?_⟩
  · rw [hsweeps, List.map_map]
    exact List.map_congr_left hradius
  · rw [hsweeps]
    intro a ha
    obtain ⟨r, hr, rfl⟩ := List.mem_map.mp ha
    obtain ⟨hin, hout, hheld⟩ := depth_eq_held_of_mem_rings hdepth hplan hr
    have hz : (ringSweep f r).start.z = (f.place .zero).z - r.depth := height_ringStart hplan hr
    have hraise : max ((f.place .zero).z - (cone f p bottom).depth r.radius) f.job.floor =
        (f.place .zero).z - min ((cone f p bottom).depth r.radius) (stockBelow f) :=
      (sub_min_sub _ _ _).symm
    refine ⟨rfl, ?_⟩
    rw [hradius r hr, hz, hraise, sub_right_inj, hheld]
    exact Cone.held_depth_eq_iff hin hout

/-- A cone that reaches through stock of a quarter of an inch. -/
def deepPocket {α : Type} [Scalar α] : Pocket α :=
  ⟨ofRatio 1 4, ofInt 0, ofRatio 1 8, .down (ofRatio 2 5), false⟩

theorem deepPocket_real : (deepPocket : Pocket ℝ) = ⟨1 / 4, 0, 1 / 8, .down (2 / 5), false⟩ := by
  norm_num [deepPocket, ofInt, ofRatio_real]

/-- Halfway down, a cone that is deeper than its stock is not carved at its own slope. -/
theorem pocket_follows_cone_deep :
    (deepPocket : Pocket ℝ).cutsBottom = false ∧
      (deepPocket : Pocket ℝ).bottomDepth = .down (2 / 5) ∧
      (Job.quarterInch : Job ℝ).floor < ((Frame.root .quarterInch).place (.zero : Vec ℝ)).z ∧
      (∃ plan, pocketPlan (.root .quarterInch) (deepPocket : Pocket ℝ) = .ok plan) ∧
      ∃ a ∈ Machine.initial.sweeps .silent
          (pocket .standard (.root .quarterInch) deepPocket).commands,
        a.radius = (3 / 32 : ℝ) ∧
          a.start.z ≠ max (((Frame.root .quarterInch).place .zero).z -
            (cone (.root .quarterInch) deepPocket (2 / 5)).depth a.radius)
              (Job.quarterInch : Job ℝ).floor := by
  have hbottom : (deepPocket : Pocket ℝ).bottomDepth = .down (2 / 5) :=
    congrArg Pocket.bottomDepth deepPocket_real
  have hplan : pocketPlan (.root .quarterInch) (deepPocket : Pocket ℝ) =
      .ok ⟨1 / 4 / 2, 1 / 8 / 2, min 0 (1 / 4), min (2 / 5) (1 / 4), 1 / 32⟩ := by
    rw [deepPocket_real]
    exact pocketPlan_quarterInch 0 (2 / 5) (by norm_num) (by norm_num)
  obtain ⟨-, hradii, hheights⟩ :=
    pocket_follows_cone .standard rfl hbottom floor_lt_quarterInch hplan .silent .initial
  have hsecond : (3 / 32 : ℝ) ∈ (PocketPlan.rings ⟨1 / 4 / 2, 1 / 8 / 2, min 0 (1 / 4),
      min (2 / 5) (1 / 4), 1 / 32⟩).map Ring.radius := by
    obtain ⟨rest, hrings⟩ := PocketPlan.exists_rings_eq_cons_cons (p := ⟨1 / 4 / 2, 1 / 8 / 2,
      min 0 (1 / 4), min (2 / 5) (1 / 4), (1 / 32 : ℝ)⟩) (by
        unfold PocketPlan.tolerance
        rw [ofRatio_real]
        norm_num)
    have hinner : PocketPlan.inner ⟨1 / 4 / 2, 1 / 8 / 2, min 0 (1 / 4), min (2 / 5) (1 / 4),
        1 / 32⟩ (1 / 4 / 2 : ℝ) = 3 / 32 := by
      unfold PocketPlan.inner PocketPlan.tolerance
      rw [ofRatio_real]
      norm_num
    rw [hrings, hinner]
    simp
  rw [← hradii] at hsecond
  obtain ⟨a, ha, hradius⟩ := List.mem_map.mp hsecond
  refine ⟨rfl, hbottom, floor_lt_quarterInch, ⟨_, hplan⟩, a, ha, hradius, fun hz => ?_⟩
  rcases (hheights a ha).2.mp hz with hrim | hbase | hpass
  · rw [hradius, cone, Frame.length_root, deepPocket_real, two_real] at hrim
    norm_num at hrim
  · rw [hradius, cone, Frame.length_root, Frame.length_root, deepPocket_real, two_real] at hbase
    norm_num at hbase
  · refine hpass ?_
    rw [cone, Frame.depth_root, Frame.depth_root, stockBelow_quarterInch, deepPocket_real]
    constructor <;> norm_num

end Carve
end Toolpath
