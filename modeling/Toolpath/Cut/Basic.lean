import Toolpath.Geometry.Pose
import Toolpath.Measure.Amount
import Toolpath.Outline.Path

/-!
Cut trees: holes, traced outlines, conic pockets, pauses, and groups that repeat their components at
several poses. Lengths are in the unit of the innermost group that declares one.
-/
namespace Toolpath

/-- A depth below the surface, or all the stock that is left. -/
inductive Depth (α : Type) where
  | through
  | down (d : α)
  deriving Repr, DecidableEq, Inhabited

/-- Which side of a traced outline is material. -/
inductive Side where
  | left | right | middle
  deriving Repr, DecidableEq, Inhabited

/-- A cone-shaped recess centered on the local origin. -/
structure Pocket (α : Type) where
  diameter : α
  edgeDepth : α
  bottomDiameter : α
  bottomDepth : Depth α
  cutsBottom : Bool
  deriving Repr, Inhabited

inductive Cut (α : Type) where
  | group (poses : List (Pose α)) (components : List (Cut α)) (unit : Option Amount)
      (comment : Option String)
  | trace (path : Path α) (depth : Depth α) (side : Side) (comment : Option String)
  /-- A round hole centered on the local origin. -/
  | hole (diameter : α) (depth : Depth α) (comment : Option String)
  | pocket (p : Pocket α) (comment : Option String)
  | pause (comment : Option String)
  deriving Repr, Inhabited

namespace Cut
variable {α : Type}

def comment : Cut α → Option String
  | .group _ _ _ c => c
  | .trace _ _ _ c => c
  | .hole _ _ c => c
  | .pocket _ c => c
  | .pause c => c

def withComment (cut : Cut α) (text : String) : Cut α :=
  match cut with
  | .group poses components unit _ => .group poses components unit (some text)
  | .trace path depth side _ => .trace path depth side (some text)
  | .hole diameter depth _ => .hole diameter depth (some text)
  | .pocket p _ => .pocket p (some text)
  | .pause _ => .pause (some text)

/-- The name of the kind of cut. -/
def kind : Cut α → String
  | .group .. => "Compound"
  | .trace .. => "TracePath"
  | .hole .. => "RoundHole"
  | .pocket .. => "ConicPocket"
  | .pause _ => "Pause"

/-- The cuts as the only components of a group, at one pose. -/
def wrap (components : List (Cut α)) (pose : Pose α) (unit : Option Amount := none) : Cut α :=
  .group [pose] components unit none

end Cut

section Equality
variable {α : Type} [Scalar α]

instance : BEq (Depth α) where
  beq
    | .through, .through => true
    | .down a, .down b => a == b
    | _, _ => false

instance : BEq (Pocket α) := ⟨fun a b =>
  a.diameter == b.diameter && a.edgeDepth == b.edgeDepth &&
    a.bottomDiameter == b.bottomDiameter && a.bottomDepth == b.bottomDepth &&
    a.cutsBottom == b.cutsBottom⟩

mutual
/-- Equality part by part, numbers being compared by `==`. -/
def Cut.beq : Cut α → Cut α → Bool
  | .group poses components unit comment, .group poses' components' unit' comment' =>
    poses == poses' && Cut.beqList components components' && unit == unit' && comment == comment'
  | .trace path depth side comment, .trace path' depth' side' comment' =>
    path == path' && depth == depth' && side == side' && comment == comment'
  | .hole diameter depth comment, .hole diameter' depth' comment' =>
    diameter == diameter' && depth == depth' && comment == comment'
  | .pocket p comment, .pocket p' comment' => p == p' && comment == comment'
  | .pause comment, .pause comment' => comment == comment'
  | _, _ => false

def Cut.beqList : List (Cut α) → List (Cut α) → Bool
  | [], [] => true
  | a :: r, b :: s => a.beq b && Cut.beqList r s
  | _, _ => false
end

instance : BEq (Cut α) := ⟨Cut.beq⟩

end Equality
end Toolpath
