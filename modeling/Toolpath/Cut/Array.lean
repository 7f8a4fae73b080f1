import Toolpath.Cut.Basic

/-! Rectangular grids of cuts. -/
namespace Toolpath
open Scalar

/-- A grid of columns and rows. A spacing of zero stands for one. -/
structure Grid (α : Type) where
  x0 : α
  y0 : α
  dx : α
  dy : α
  columns : Nat
  rows : Nat
  deriving Repr, Inhabited

namespace Grid
variable {α : Type} [Scalar α]

def spacing (d : α) : α := if d == 0 then 1 else d

/-- How many positions the grid has. -/
def total (g : Grid α) : Nat := g.columns * g.rows

def position (g : Grid α) (i j : Nat) : α × α :=
  (g.x0 + spacing g.dx * ofInt i, g.y0 + spacing g.dy * ofInt j)

/-- The positions, row by row if `dx` is the smaller spacing and else column by column. -/
def positions (g : Grid α) : List (α × α) :=
  if g.dx < g.dy then
    (List.range g.rows).flatMap fun j => (List.range g.columns).map fun i => g.position i j
  else
    (List.range g.columns).flatMap fun i => (List.range g.rows).map fun j => g.position i j

def poses (g : Grid α) : List (Pose α) := g.positions.map fun (x, y) => .offset x y

/-- The cuts at every position of the grid. -/
def cut (g : Grid α) (components : List (Cut α)) : Cut α := .group g.poses components none none

end Grid
end Toolpath
