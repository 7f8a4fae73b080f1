import Toolpath.Job.Error
import Toolpath.Plan.Unfold

/-! Conic pockets as full circles that go inward from the rim to the bottom. -/
namespace Toolpath
open Scalar

structure Ring (α : Type) where
  radius : α
  /-- Positive downward from the surface. -/
  depth : α
  deriving Repr, Inhabited

structure PocketPlan (α : Type) where
  topRadius : α
  bottomRadius : α
  edgeDepth : α
  bottomDepth : α
  step : α
  deriving Repr, Inhabited

variable {α : Type} [Scalar α]

/-- A sixteenth of the native unit, or half the radius of the bit if that is smaller and not
zero. -/
def ringStep (tip : α) : α :=
  let sixteenth : α := ofRatio 1 16
  let halfRadius := tip / ofInt 4
  if 0 < halfRadius then lesser sixteenth halfRadius else sixteenth

namespace PocketPlan

/-- A plan whose bottom lies within its rim and whose rings get smaller. -/
def new (topRadius bottomRadius edgeDepth bottomDepth step : α) :
    Except (RangeError α) (PocketPlan α) :=
  if bottomRadius < 0 ∨ topRadius < bottomRadius then
    .error (.bottomOutsideRim bottomRadius topRadius)
  else if isNaN step ∨ step ≤ 0 then .error (.notPositive "radial_step" step)
  else .ok ⟨topRadius, bottomRadius, edgeDepth, bottomDepth, step⟩

/-- The depth of the wall at a radius. -/
def wallDepth (p : PocketPlan α) (radius : α) : α :=
  let span := p.topRadius - p.bottomRadius
  if span ≤ 0 then p.bottomDepth
  else p.edgeDepth + (p.bottomDepth - p.edgeDepth) * ((p.topRadius - radius) / span)

/-- A radius this close to that of the bottom is taken to be there. -/
def tolerance : α := ofRatio 1 1000000000

/-- The radius one step inward, held at the bottom. -/
def inner (p : PocketPlan α) (radius : α) : α :=
  if radius - p.step < p.bottomRadius + tolerance then p.bottomRadius
  else radius - p.step

/-- The ring at a radius, and the radius after it unless this is the last. -/
def nextRing? (p : PocketPlan α) : Option α → Option (Ring α × Option α)
  | none => none
  | some radius =>
    some (⟨radius, p.wallDepth radius⟩,
      if radius ≤ p.bottomRadius + tolerance then none else some (p.inner radius))

/-- More rings than there can be where steps are exact, and than there are values of 64 bits. Rings
that are not done by then go on forever. -/
def fuel (p : PocketPlan α) : Nat :=
  8 * ceiling ((p.topRadius - p.bottomRadius) / p.step) + UInt64.size

/-- The rings from the rim inward. -/
def rings (p : PocketPlan α) : List (Ring α) := unfold p.nextRing? p.fuel (some p.topRadius)

end PocketPlan
end Toolpath
