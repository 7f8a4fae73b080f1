import Toolpath.Traversal.Basic

/-! The box that the leaves of a cut tree touch. -/
namespace Toolpath
open Scalar

/-- The least and the greatest of some numbers, where there are any. -/
structure Span (α : Type) where
  low : Option α := none
  high : Option α := none
  deriving Repr, Inhabited

structure Bounds (α : Type) where
  x : Span α := {}
  y : Span α := {}
  z : Span α := {}
  deriving Repr, Inhabited

variable {α : Type} [Scalar α]

namespace Span

/-- One end widened to a number; what is no number changes nothing. -/
def widen (choose : α → α → α) (v : α) : Option α → Option α
  | some a => some (choose a v)
  | none => if isNaN v then none else some v

def cover (s : Span α) (v : α) : Span α := ⟨widen lesser v s.low, widen greater v s.high⟩

def isNonempty (s : Span α) : Bool :=
  match s.low, s.high with
  | some a, some b => a ≤ b
  | _, _ => false

/-- An end moved outward. One that is missing can only be moved by a bounded amount or inward. -/
def move (amount : α) (outward : α → α) : Option α → Option α
  | some a => some (outward a)
  | none => if isFinite amount || decide (amount < 0) then none else some (amount - amount)

def pad (s : Span α) (amount : α) : Span α :=
  ⟨move amount (· - amount) s.low, move amount (· + amount) s.high⟩

end Span

namespace Bounds

def cover (b : Bounds α) (p : Vec α) : Bounds α :=
  ⟨b.x.cover p.x, b.y.cover p.y, b.z.cover p.z⟩

def isNonempty (b : Bounds α) : Bool := b.x.isNonempty && b.y.isNonempty && b.z.isNonempty

/-- The box with all its sides moved outward. -/
def pad (b : Bounds α) (amount : α) : Bounds α :=
  ⟨b.x.pad amount, b.y.pad amount, b.z.pad amount⟩

/-- Two corners, at two heights, of the square around a disc. -/
def discPoints (center : Vec α) (radius top bottom : α) : List (Vec α) :=
  [top, bottom].flatMap fun z =>
    [⟨center.x - radius, center.y - radius, z⟩, ⟨center.x + radius, center.y + radius, z⟩]

/-- The ends of a segment at the surface and at the bottom, and the whole circle of an arc. -/
def segmentPoints (f : Frame α) (vertex : Nat → Vec α) (s : Segment) : List (Vec α) :=
  let ends := [s.start, s.finish].flatMap fun i =>
    let placed := f.place (vertex i)
    [placed, { placed with z := f.bottom (vertex i) }]
  match s with
  | .straight _ _ => ends
  | .arc start _ c _ =>
    let center := f.place (vertex c)
    let radius := (f.place (vertex start) - center).normXY
    ends ++ discPoints center radius center.z (f.bottom (vertex c))

def tracePoints (f : Frame α) (p : Path α) : List (Vec α) :=
  p.segments.flatMap (segmentPoints f fun i => p.vertices.getD i .zero)

def holePoints (f : Frame α) (diameter : α) : List (Vec α) :=
  let center := f.place .zero
  discPoints center (f.length diameter / two) center.z (f.bottom .zero)

/-- The bottom of a pocket; one that goes through ends at the bottom face. -/
def pocketBottom (f : Frame α) (surface : α) : Depth α → α
  | .through => f.job.floor
  | .down d => f.aboveFloor (surface - f.depth d)

def pocketPoints (f : Frame α) (p : Pocket α) : List (Vec α) :=
  let center := f.place .zero
  discPoints center (f.length p.diameter / two) (center.z - f.depth p.edgeDepth)
    (pocketBottom f center.z p.bottomDepth)

/-- Takes the points of a leaf into the box. -/
def collect (points : List (Vec α)) : Action (Bounds α) (CarveError α) Unit :=
  modify fun b => points.foldl cover b

def backend : Backend α (Bounds α) (CarveError α) where
  comment _ _ := pure ()
  trace f p := collect (tracePoints f p)
  hole f d := collect (holePoints f d)
  pocket f p := collect (pocketPoints f p)
  pause _ := pure ()
  refuse e := e

/-- The box of the cuts of a job. -/
def ofCuts (job : Job α) (cuts : List (Cut α)) : Except (CarveError α) (Bounds α) :=
  match (backend.visitAll (.root job) cuts).run.run {} with
  | (.ok _, b) => .ok b
  | (.error e, _) => .error e

end Bounds
end Toolpath
