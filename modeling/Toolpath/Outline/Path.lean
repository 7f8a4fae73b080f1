import Toolpath.Geometry.Vec
import Toolpath.Job.Error

/-! Paths: vertices, and segments that refer to them by place. -/
namespace Toolpath

/-- The way an arc is swept, seen from above. -/
inductive Sense where
  | clockwise | counterClockwise
  deriving Repr, DecidableEq, Inhabited

namespace Sense

/-- The sense of a turn. -/
def ofAngle {α : Type} [Scalar α] (angle : α) : Sense :=
  if angle < 0 then .clockwise else .counterClockwise

/-- Counter-clockwise is positive. -/
def sign : Sense → Int
  | .clockwise => -1
  | .counterClockwise => 1

def reversed : Sense → Sense
  | .clockwise => .counterClockwise
  | .counterClockwise => .clockwise

end Sense

/-- A piece of a path. An arc also refers to its center. -/
inductive Segment where
  | straight (start finish : Nat)
  | arc (start finish center : Nat) (sense : Sense)
  deriving Repr, DecidableEq, Inhabited

namespace Segment

def start : Segment → Nat
  | .straight s _ => s
  | .arc s _ _ _ => s

def finish : Segment → Nat
  | .straight _ f => f
  | .arc _ f _ _ => f

end Segment

structure Path (α : Type) where
  vertices : List (Vec α)
  segments : List Segment
  deriving Repr, Inhabited

namespace Path
variable {α : Type}

def isEmpty (p : Path α) : Bool := p.segments.isEmpty

/-- Checks the ends of a segment, then its center. -/
def checkSegment (count index : Nat) (s : Segment) : Except (CarveError α) Unit :=
  if count ≤ s.start then .error (.missingVertex index s.start)
  else if count ≤ s.finish then .error (.missingVertex index s.finish)
  else match s with
    | .arc _ _ center _ =>
      if count ≤ center then .error (.missingCenter index center) else .ok ()
    | .straight _ _ => .ok ()

def checkSegments (count : Nat) : (index : Nat) → List Segment → Except (CarveError α) Unit
  | _, [] => .ok ()
  | index, s :: r => do
    checkSegment count index s
    checkSegments count (index + 1) r

/-- Whether every segment refers to vertices of the path; else the first that does not. -/
def check (p : Path α) : Except (CarveError α) Unit :=
  checkSegments p.vertices.length 0 p.segments

/-- Where the first segment starts. -/
def start? (p : Path α) : Option (Vec α) :=
  p.segments.head? >>= fun s => p.vertices[s.start]?

/-- Where the last segment ends. -/
def finish? (p : Path α) : Option (Vec α) :=
  p.segments.getLast? >>= fun s => p.vertices[s.finish]?

/-- Whether the path ends where it starts. -/
def isClosed [Scalar α] (p : Path α) : Bool :=
  match p.start?, p.finish? with
  | some a, some b => a == b
  | _, _ => false

instance [Scalar α] : BEq (Path α) :=
  ⟨fun a b => a.vertices == b.vertices && a.segments == b.segments⟩

end Path
end Toolpath
