import Toolpath.Outline.Cursor

/-! Outlines of boxes and circles. -/
namespace Toolpath
open Scalar

/-- A box, placed on each axis by its low edge or else by its center. -/
structure BoxShape (α : Type) where
  x0 : Option α := none
  y0 : Option α := none
  cx : Option α := none
  cy : Option α := none
  width : α
  height : α
  radius : α
  corner : Corner := .round
  deriving Repr, Inhabited

variable {α : Type} [Scalar α]

def lowEdge (edge center : Option α) (size : α) (axis : String) : Except (CarveError α) α :=
  match edge, center with
  | some e, _ => .ok e
  | none, some c => .ok (c - size / two)
  | none, none => .error (.edgeMissing axis)

/-- The outline, counter-clockwise from the bottom edge. -/
def BoxShape.path (b : BoxShape α) : Except (CarveError α) (Path α) := do
  let x0 ← lowEdge b.x0 b.cx b.width "x"
  let y0 ← lowEdge b.y0 b.cy b.height "y"
  let corners : List (Vec α) :=
    [⟨x0 + b.width, y0, 0⟩, ⟨x0 + b.width, y0 + b.height, 0⟩, ⟨x0, y0 + b.height, 0⟩, ⟨x0, y0, 0⟩]
  let outline := corners.foldl (fun pb c =>
    (pb.lineToCorner c quarterTurn b.radius).turn quarterTurn b.radius b.corner)
    (Cursor.new ⟨x0 + b.radius, y0, 0⟩)
  return outline.close.path

/-- The full circle about the origin, counter-clockwise from its lowest point. -/
def Path.circle (radius : α) : Path α :=
  ((Cursor.new ⟨0, -radius, 0⟩).turn fullTurn radius .round).close.path

end Toolpath
