import Toolpath.Outline.Path

/-!
Paths drawn by a cursor: straight runs, turns with rounded or chamfered corners, and the way back to
the start. A point that is already a vertex is not added again.
-/
namespace Toolpath
open Scalar

/-- How a corner with a radius is cut. -/
inductive Corner where
  | round | chamfer
  deriving Repr, DecidableEq, Inhabited

variable {α : Type} [Scalar α]

/-- Cosine and sine of an angle. They are exact where the angle is within `1e-12` quarter turns of a
whole number of them. -/
def unitAt (angle : α) : α × α :=
  let quarters := angle / quarterTurn
  let whole := Scalar.round quarters
  if Scalar.abs (quarters - whole) < ofRatio 1 1000000000000 then
    match truncate whole % 4 with
    | 0 => (1, 0)
    | 1 => (0, 1)
    | 2 => (-1, 0)
    | _ => (0, -1)
  else (cos angle, sin angle)

/-- The vector turned counter-clockwise in the XY plane. -/
def Vec.turned (v : Vec α) (angle : α) : Vec α :=
  let (c, s) := unitAt angle
  ⟨v.x * c - v.y * s, v.x * s + v.y * c, v.z⟩

/-- A path under construction, with the vertex the cursor is at and the way it is heading. The index
has the place of each vertex. -/
structure Cursor (α : Type) where
  first : Vec α
  others : List (Vec α)
  index : List (Vec α × Nat)
  segments : List Segment
  current : Nat
  heading : Vec α
  deriving Repr, Inhabited

namespace Cursor

/-- A cursor heading along X. -/
def new (start : Vec α) : Cursor α := ⟨start, [], [(start, 0)], [], 0, .unitX⟩

def vertices (b : Cursor α) : List (Vec α) := b.first :: b.others

def path (b : Cursor α) : Path α := ⟨b.vertices, b.segments⟩

def position (b : Cursor α) : Vec α := b.vertices.getD b.current b.first

/-- The place of a point in the index, where points that are alike share an entry. -/
def place? (b : Cursor α) (p : Vec α) : Option Nat :=
  (b.index.find? (·.1.alike p)).map Prod.snd

/-- The place of a vertex, which is added if it is new. -/
def vertex (b : Cursor α) (p : Vec α) : Nat × Cursor α :=
  match b.place? p with
  | some i => (i, b)
  | none =>
    let place := b.vertices.length
    (place, { b with others := b.others ++ [p], index := b.index ++ [(p, place)] })

/-- Adds a segment, at whose end the cursor then is. -/
def append (b : Cursor α) (s : Segment) : Cursor α :=
  { b with segments := b.segments ++ [s], current := s.finish }

/-- A straight run, none if the cursor is already there. -/
def lineTo (b : Cursor α) (target : Vec α) : Cursor α :=
  if target == b.position then b
  else
    let (finish, b') := b.vertex target
    let b'' := b'.append (.straight b.current finish)
    { b'' with heading := (b''.position - b.position).normalize }

/-- Turns counter-clockwise by an angle. With a radius the corner is cut as well, between the ends
of the fillet of that radius; a chamfer has the vertices of the fillet it replaces. -/
def turn (b : Cursor α) (angle radius : α) (corner : Corner) : Cursor α :=
  let b' :=
    if radius == 0 then b
    else
      let side := if 0 < angle then quarterTurn else -quarterTurn
      let toCenter := (b.heading.scale radius).turned side
      let center := b.position + toCenter
      let finish := center - toCenter.turned angle
      let (c, b') := b.vertex center
      let (f, b') := b'.vertex finish
      b'.append (match corner with
        | .round => .arc b.current f c (.ofAngle angle)
        | .chamfer => .straight b.current f)
  { b' with heading := b.heading.turned angle }

/-- The length of the straight run that a fillet takes away. A turn back takes all of it. -/
def tangentLength (angle radius run : α) : α :=
  let (c, s) := unitAt (Scalar.abs angle)
  if radius == 0 then 0
  else if 1 + c ≤ 0 then run
  else lesser (Scalar.abs radius * s / (1 + c)) run

/-- A straight run towards a corner, up to where a fillet has to start that ends on the next
edge. -/
def lineToCorner (b : Cursor α) (corner : Vec α) (angle radius : α) : Cursor α :=
  let forward := corner - b.position
  let length := tangentLength angle radius forward.norm
  if length == 0 || forward.norm == 0 then b.lineTo corner
  else b.lineTo (corner - forward.normalize.scale length)

/-- A straight run back to the start. -/
def close (b : Cursor α) : Cursor α := b.lineTo b.first

end Cursor
end Toolpath
