import Toolpath.Proofs.Geometry.Exact
import Toolpath.Cut.Basic

/-! Cut trees whose lengths are multiplied by a factor, as they are written in another unit. Where a
group declares a unit of its own, nothing below it changes. -/
namespace Toolpath

section
variable {α : Type} [Scalar α]

def Depth.scaled (k : α) : Depth α → Depth α
  | .through => .through
  | .down d => .down (d * k)

def Position.scaled (k : α) (p : Position α) : Position α :=
  { p with x := p.x * k, y := p.y * k, z := p.z.map (· * k) }

/-- Only the shift is a length. -/
def Pose.scaled (k : α) : Pose α → Pose α
  | .rows x x1 y y1 z z1 => .rows x (x1 * k) y (y1 * k) z (z1 * k)
  | .position p => .position (p.scaled k)

def Path.scaled (k : α) (p : Path α) : Path α :=
  { p with vertices := p.vertices.map (·.scale k) }

def Pocket.scaled (k : α) (p : Pocket α) : Pocket α :=
  { p with
    diameter := p.diameter * k
    edgeDepth := p.edgeDepth * k
    bottomDiameter := p.bottomDiameter * k
    bottomDepth := p.bottomDepth.scaled k }

mutual
def Cut.scaled (k : α) (cut : Cut α) : Cut α :=
  match cut with
  | .group poses components none comment =>
    .group (poses.map (·.scaled k)) (Cut.scaledAll k components) none comment
  | .group poses components (some a) comment => .group poses components (some a) comment
  | .trace path depth side comment => .trace (path.scaled k) (depth.scaled k) side comment
  | .hole diameter depth comment => .hole (diameter * k) (depth.scaled k) comment
  | .pocket p comment => .pocket (p.scaled k) comment
  | .pause comment => .pause comment
termination_by structural cut

def Cut.scaledAll (k : α) (cuts : List (Cut α)) : List (Cut α) :=
  match cuts with
  | [] => []
  | cut :: rest => cut.scaled k :: Cut.scaledAll k rest
termination_by structural cuts
end

theorem Path.check_scaled (k : α) (p : Path α) : (p.scaled k).check = p.check := by
  unfold check scaled
  rw [List.length_map]

end

@[simp] theorem Depth.scaled_one (depth : Depth ℝ) : depth.scaled 1 = depth := by
  cases depth <;> simp [scaled]

@[simp] theorem Pose.scaled_one (pose : Pose ℝ) : pose.scaled 1 = pose := by
  cases pose with
  | rows => simp [scaled]
  | position p => cases p; simp [scaled, Position.scaled]

@[simp] theorem Path.scaled_one (p : Path ℝ) : p.scaled 1 = p := by
  simp [scaled]

@[simp] theorem Pocket.scaled_one (p : Pocket ℝ) : p.scaled 1 = p := by
  simp [scaled]

mutual
@[simp] theorem Cut.scaled_one (cut : Cut ℝ) : cut.scaled 1 = cut := by
  match cut with
  | .group poses components none comment =>
    rw [Cut.scaled.eq_def]
    simp [Cut.scaledAll_one components]
  | .group poses components (some a) comment => rfl
  | .trace path depth side comment => simp [Cut.scaled]
  | .hole diameter depth comment => simp [Cut.scaled]
  | .pocket p comment => simp [Cut.scaled]
  | .pause comment => rfl
termination_by structural cut

@[simp] theorem Cut.scaledAll_one (cuts : List (Cut ℝ)) : Cut.scaledAll 1 cuts = cuts := by
  match cuts with
  | [] => rfl
  | cut :: rest => rw [Cut.scaledAll, Cut.scaled_one cut, Cut.scaledAll_one rest]
termination_by structural cuts
end

/-- A scaled pose takes scaled points to where the pose takes the points, scaled. -/
theorem Pose.toPlacement_scaled_mul (pose : Pose ℝ) (k : ℝ) :
    (pose.scaled k).toPlacement * .scale k = .scale k * pose.toPlacement := by
  have hsides : ∀ a b : Placement ℝ, a.linear = b.linear → a.offset = b.offset.scale k →
      a * .scale k = .scale k * b := by
    intro a b hlinear hoffset
    refine Placement.ext ?_ ?_
    · rw [Placement.mul_scale_linear, Placement.scale_mul_linear, hlinear]
    · rw [Placement.mul_scale_offset, Placement.scale_mul_offset, hoffset]
  cases pose with
  | rows x x1 y y1 z z1 => exact hsides _ _ rfl rfl
  | position p =>
    refine hsides _ _ ?_ ?_
    · simp [Pose.scaled, Pose.toPlacement, Position.toPlacement_eq, Position.scaled]
    · simp only [Pose.scaled, Pose.toPlacement, Position.toPlacement_eq, Position.scaled]
      cases p.z <;> simp [Vec.scale]

end Toolpath
