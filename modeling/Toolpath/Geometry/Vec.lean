import Toolpath.Scalar

/-! Points and displacements in space. Sums run from the first coordinate to the last. -/
namespace Toolpath
open Scalar

structure Vec (α : Type) where
  x : α
  y : α
  z : α
  deriving Repr, Inhabited

namespace Vec
variable {α : Type} [Scalar α]

instance : BEq (Vec α) := ⟨fun a b => a.x == b.x && a.y == b.y && a.z == b.z⟩

instance : Add (Vec α) := ⟨fun a b => ⟨a.x + b.x, a.y + b.y, a.z + b.z⟩⟩

instance : Sub (Vec α) := ⟨fun a b => ⟨a.x - b.x, a.y - b.y, a.z - b.z⟩⟩

def zero : Vec α := ⟨0, 0, 0⟩

def unitX : Vec α := ⟨1, 0, 0⟩

def unitZ : Vec α := ⟨0, 0, 1⟩

def scale (a : Vec α) (k : α) : Vec α := ⟨a.x * k, a.y * k, a.z * k⟩

def divide (a : Vec α) (k : α) : Vec α := ⟨a.x / k, a.y / k, a.z / k⟩

def dot (a b : Vec α) : α := a.x * b.x + a.y * b.y + a.z * b.z

def normSq (a : Vec α) : α := a.dot a

def norm (a : Vec α) : α := sqrt a.normSq

/-- The length of the part in the XY plane. -/
def normXY (a : Vec α) : α := sqrt (a.x * a.x + a.y * a.y)

/-- The vector of length one in the same direction. One without length stays as it is. -/
def normalize (a : Vec α) : Vec α := if a.norm == 0 then a else a.divide a.norm

/-- Whether two points are the same vertex of a path. -/
def alike (a b : Vec α) : Bool :=
  Scalar.alike a.x b.x && Scalar.alike a.y b.y && Scalar.alike a.z b.z

end Vec
end Toolpath
