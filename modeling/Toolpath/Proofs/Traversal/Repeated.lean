import Toolpath.Proofs.Cut.Grid
import Toolpath.Proofs.Geometry.Exact
import Toolpath.Proofs.Traversal.Recorded
import Toolpath.Proofs.Traversal.Trail

/-! Cuts repeated at several poses, and at the positions of a grid. Each place of a grid has one
pose, and all leaves of the cuts are called once at each of them. -/
namespace Toolpath
open Scalar

section
variable {α σ ε : Type} [Scalar α] {f : Frame α} {poses : List (Pose α)} {components : List (Cut α)}

theorem Frame.descend_pose (f : Frame α) (pose : Pose α) :
    f.descend ⟨none, pose⟩ = if f.nesting < nestingLimit then .ok (f.inside pose.toPlacement)
      else .error (.nestedTooDeep nestingLimit) :=
  (descend_of_inUnit rfl).trans (f.enter_eq pose.toPlacement)

/-- A group without a unit of its own is its components at one pose after another. -/
theorem Backend.visit_poses (b : Backend α σ ε) (hroom : f.nesting < Frame.nestingLimit)
    (poses : List (Pose α)) (components : List (Cut α)) :
    b.visit f (.group poses components none none) =
      poses.forM fun pose => b.visitAll (f.inside pose.toPlacement) components := by
  have hpose : ∀ pose : Pose α,
      (do b.visitAll (← b.lift (f.enter pose.toPlacement)) components) =
        b.visitAll (f.inside pose.toPlacement) components := by
    intro pose
    rw [f.enter_eq, if_pos hroom]
    rfl
  rw [visit.eq_def]
  change (poses.forM fun pose => do
    b.visitAll (← b.lift (f.enter pose.toPlacement)) components) = _
  simp only [hpose]

/-- A group at whose poses nothing is refused is within the limit. -/
theorem Cut.room_of_mem_poses
    (h : ∀ e, .refusal e ∉ (Cut.group poses components none none).flatten f) {pose : Pose α}
    (hpose : pose ∈ poses) : f.nesting < Frame.nestingLimit := by
  by_contra hdeep
  refine h (.nestedTooDeep Frame.nestingLimit) ?_
  rw [Cut.flatten.eq_def]
  refine List.mem_append_right _ (List.mem_flatMap.mpr ⟨pose, hpose, ?_⟩)
  rw [f.descend_pose, if_neg hdeep]
  exact List.mem_singleton_self _

/-- The leaves of the components are called at one pose after another. -/
theorem Cut.leaves_poses (h : ∀ e, .refusal e ∉ (Cut.group poses components none none).flatten f) :
    (((Cut.group poses components none none).flatten f).filterMap Entry.leaf?).map .ok =
      poses.flatMap fun pose => (f.inside pose.toPlacement).ends (Cut.routesAll components) := by
  rw [Cut.leaves_flatten h, Cut.routes, Frame.ends, List.map_flatMap]
  refine List.flatMap_congr fun pose hpose => Frame.ends_leg ?_ _
  rw [f.descend_pose, if_pos (Cut.room_of_mem_poses h hpose)]

end

namespace Grid

theorem offset_injective {x y x' y' : ℝ} (h : Pose.offset x y = .offset x' y') :
    (x, y) = (x', y') := by
  injection h with h
  injection h with hx hy
  rw [hx, hy]

theorem poses_spec (g : Grid ℝ) : g.poses.length = g.columns * g.rows ∧ g.poses.Nodup ∧
    ∀ pose, pose ∈ g.poses ↔ ∃ i < g.columns, ∃ j < g.rows,
      pose = .offset (g.x0 + spacing g.dx * i) (g.y0 + spacing g.dy * j) := by
  refine ⟨?_, ?_, fun pose => ?_⟩
  · rw [poses, List.length_map, length_positions]
  · refine g.nodup_positions.map ?_
    rintro ⟨x, y⟩ ⟨x', y'⟩ h
    exact offset_injective h
  · simp only [poses, List.mem_map, mem_positions, position_real]
    grind

theorem place_inside_offset (f : Frame ℝ) (x y : ℝ) (p : Vec ℝ) :
    (f.inside (Pose.offset x y).toPlacement).place p = f.place (p + ⟨x, y, 0⟩) := by
  have hshift : (Pose.offset x y).toPlacement.apply p = p + ⟨x, y, 0⟩ := by
    have hoffset : (Pose.offset x y).toPlacement = ⟨.identity, ⟨x, y, 0⟩⟩ := by
      refine (Position.toPlacement_eq _).trans ?_
      simp [ofDegrees, Linear.planar_zero]
    rw [hoffset, Placement.apply, Linear.identity_apply]
  rw [Frame.inside, Frame.place, Placement.apply_mul, hshift]
  rfl

/-- A grid has one pose for each of its places, which shifts by whole numbers of spacings, and no
others. Its cuts are visited at one pose after another, and where nothing fails, all leaves of them
are called once at each. -/
theorem cut_covers (g : Grid ℝ) {σ ε : Type} (b : Backend ℝ σ ε) (f : Frame ℝ)
    (cuts : List (Cut ℝ)) (s : σ) :
    (g.poses.length = g.columns * g.rows ∧ g.poses.Nodup ∧
      ∀ pose, pose ∈ g.poses ↔ ∃ i < g.columns, ∃ j < g.rows,
        pose = .offset (g.x0 + spacing g.dx * i) (g.y0 + spacing g.dy * j)) ∧
    (∀ x y p, (f.inside (Pose.offset x y).toPlacement).place p = f.place (p + ⟨x, y, 0⟩)) ∧
    (f.nesting < Frame.nestingLimit → b.visit f (g.cut cuts) =
      g.poses.forM fun pose => b.visitAll (f.inside pose.toPlacement) cuts) ∧
    ∃ calls result s', (b.recorded.visit f (g.cut cuts)).run.run (s, []) = (result, s', calls) ∧
      (result = .ok () → (calls.filter (!·.isComment)).map .ok =
        g.poses.flatMap fun pose => (f.inside pose.toPlacement).ends (Cut.routesAll cuts)) := by
  obtain ⟨calls, result, s', hcut, -, hlog⟩ := b.exists_cutOff ((g.cut cuts).flatten f) s []
  refine ⟨g.poses_spec, place_inside_offset f, fun hroom => b.visit_poses hroom g.poses cuts,
    calls, result, s', ?_, fun hok => ?_⟩
  · rw [b.recorded.visit_eq_follow, Cut.itinerary_eq_ofEntries, b.recorded.follow_ofEntries]
    exact hlog
  · have entries := hcut.eq_map_of_ok hok
    have hnone : ∀ e, .refusal e ∉ (g.cut cuts).flatten f := by simp [entries]
    have hleaves := Cut.leaves_poses hnone
    rw [← Entry.filterMap_leaf?_calls, ← entries]
    exact hleaves

end Grid
end Toolpath
