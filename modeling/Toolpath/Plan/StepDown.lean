import Toolpath.Plan.Unfold
import Toolpath.Scalar

/-! The heights of the passes of a deep cut, and the strokes of a hole that is pecked. -/
namespace Toolpath
open Scalar

/-- A way down from a surface to a target. A step that is not positive leads nowhere. -/
structure Descent (α : Type) where
  surface : α
  target : α
  step : α
  deriving Repr, Inhabited

/-- One plunge, and the retreat after it unless it is the last. -/
structure Stroke (α : Type) where
  plunge : α
  retract : Option α
  deriving Repr, Inhabited

namespace Descent
variable {α : Type} [Scalar α]

/-- What is this close to the target is taken to be there. -/
def tolerance : α := ofRatio 1 1000000000

/-- One step below a height, held at the target. -/
def lower (d : Descent α) (z : α) : α :=
  if z - d.step < d.target + tolerance then d.target else z - d.step

/-- The pass below a height that is still above the target. -/
def nextPass? (d : Descent α) (z : α) : Option (α × α) :=
  if d.target < z then some (d.lower z, d.lower z) else none

/-- More steps than the way can take where they are exact, and than there are values of 64 bits. A
descent that is not done by then goes on forever. -/
def fuel (d : Descent α) : Nat := 8 * ceiling ((d.surface - d.target) / d.step) + UInt64.size

/-- The heights of the passes, the last one at the target. -/
def passes (d : Descent α) : List α :=
  if d.step ≤ 0 then [] else unfold d.nextPass? d.fuel d.surface

def retreat (d : Descent α) : α := d.step / two

/-- The stroke from the height that the bit was last retracted to. The last stroke leads to no
further height. -/
def nextStroke? (d : Descent α) : Option α → Option (Stroke α × Option α)
  | none => none
  | some top =>
    if d.target < top then
      let plunge := d.lower top
      if plunge ≤ d.target then some (⟨plunge, none⟩, none)
      else some (⟨plunge, some (plunge + d.retreat)⟩, some (plunge + d.retreat))
    else none

/-- Plunges of one step, each but the last followed by a retreat of half a step. -/
def strokes (d : Descent α) : List (Stroke α) :=
  if d.step ≤ 0 then [] else unfold d.nextStroke? d.fuel (some d.surface)

end Descent
end Toolpath
