import Toolpath.Cut.Basic
import Toolpath.Job.Basic

/-! What is in effect at a node of a cut tree. -/
namespace Toolpath
open Scalar

/-- The placement maps local to machine coordinates, and `unitScale` is the local unit in native
ones. The surface is sunk by `depthOffset`, or through all of the stock. -/
structure Frame (α : Type) where
  job : Job α
  placement : Placement α
  unitScale : Ratio
  depthOffset : α
  through : Bool
  nesting : Nat
  deriving Repr, Inhabited

namespace Frame
variable {α : Type} [Scalar α]

/-- The most groups that a node may lie in. -/
def nestingLimit : Nat := 256

/-- Native units at the surface of the stock. -/
def root (job : Job α) (placement : Placement α := .identity) : Frame α :=
  ⟨job, placement, 1, 0, false, 0⟩

/-- The machine position of a local point on the surface. -/
def place (f : Frame α) (p : Vec α) : Vec α := f.placement.apply p

/-- The machine length of a local length in the XY plane. -/
def length (f : Frame α) (l : α) : α := l * f.placement.lengthScale

/-- The machine depth of a local depth. -/
def depth (f : Frame α) (d : α) : α := d * f.placement.depthScale

/-- A machine height, raised to the bottom face where it is below. -/
def aboveFloor (f : Frame α) (z : α) : α := greater z f.job.floor

/-- The bottom of the cut at a local point, never below the bottom face. -/
def bottom (f : Frame α) (p : Vec α) : α :=
  if f.through then f.job.floor else f.aboveFloor ((f.place p).z + f.depthOffset)

/-- The frame of a group's components at one of its poses. -/
def enter (f : Frame α) (pose : Placement α) : Except (CarveError α) (Frame α) :=
  if nestingLimit < f.nesting + 1 then .error (.nestedTooDeep nestingLimit)
  else .ok { f with placement := f.placement * pose, nesting := f.nesting + 1 }

/-- The frame with another local unit, given in native units. -/
def rebase (f : Frame α) (unit : Ratio) : Except MeasureError (Frame α) := do
  let ratio ← unit.div f.unitScale
  return { f with placement := f.placement * .scale ratio.toScalar, unitScale := unit }

/-- The frame of a group that may declare a unit. -/
def inUnit (f : Frame α) : Option Amount → Except MeasureError (Frame α)
  | none => .ok f
  | some a => do f.rebase (← f.job.decode a)

/-- The frame of a cut that goes down from the surface. -/
def sink (f : Frame α) : Depth α → Frame α
  | .through => { f with through := true }
  | .down d => if d == 0 then f else { f with depthOffset := f.depthOffset - f.depth d }

end Frame
end Toolpath
