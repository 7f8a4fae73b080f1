import Toolpath.Geometry.Placement

/-! Placements as they are written in a cut tree. -/
namespace Toolpath
open Scalar

/-- A position with an optional height, rotation in degrees and scale. -/
structure Position (α : Type) where
  x : α
  y : α
  z : Option α := none
  rotation : Option α := none
  scale : Option α := none
  deriving Repr, Inhabited

/-- A placement by its rows, or by a position. -/
inductive Pose (α : Type) where
  | rows (x : Vec α) (x1 : α) (y : Vec α) (y1 : α) (z : Vec α) (z1 : α)
  | position (p : Position α)
  deriving Repr, Inhabited

variable {α : Type} [Scalar α]

/-- Scaled first, then rotated, then moved. -/
def Position.toPlacement (p : Position α) : Placement α :=
  let shift := Placement.shift ⟨p.x, p.y, p.z.getD 0⟩
  let rotation := match p.rotation with
    | some d => if d == 0 then .identity else .rotationZ (ofDegrees d)
    | none => Placement.identity
  let scale := match p.scale with
    | some k => if k == 1 then .identity else .scale k
    | none => Placement.identity
  shift * rotation * scale

namespace Pose

def identity : Pose α := .position { x := 0, y := 0 }

/-- A shift in the XY plane. -/
def offset (x y : α) : Pose α := .position { x, y }

def toPlacement : Pose α → Placement α
  | .rows x x1 y y1 z z1 => ⟨⟨x, y, z⟩, ⟨x1, y1, z1⟩⟩
  | .position p => p.toPlacement

def ofPlacement (t : Placement α) : Pose α :=
  .rows t.linear.x t.offset.x t.linear.y t.offset.y t.linear.z t.offset.z

instance : BEq (Position α) := ⟨fun a b =>
  a.x == b.x && a.y == b.y && a.z == b.z && a.rotation == b.rotation && a.scale == b.scale⟩

instance : BEq (Pose α) where
  beq
    | .rows x x1 y y1 z z1, .rows x' x1' y' y1' z' z1' =>
      x == x' && x1 == x1' && y == y' && y1 == y1' && z == z' && z1 == z1'
    | .position p, .position q => p == q
    | _, _ => false

end Pose
end Toolpath
