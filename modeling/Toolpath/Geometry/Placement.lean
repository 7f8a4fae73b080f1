import Toolpath.Geometry.Vec

/-! Affine maps from local to machine coordinates. -/
namespace Toolpath
open Scalar

/-- A linear map by its three rows. -/
structure Linear (α : Type) where
  x : Vec α
  y : Vec α
  z : Vec α
  deriving Repr, Inhabited

namespace Linear
variable {α : Type} [Scalar α]

instance : BEq (Linear α) := ⟨fun a b => a.x == b.x && a.y == b.y && a.z == b.z⟩

def identity : Linear α := ⟨⟨1, 0, 0⟩, ⟨0, 1, 0⟩, ⟨0, 0, 1⟩⟩

def scale (m : Linear α) (k : α) : Linear α := ⟨m.x.scale k, m.y.scale k, m.z.scale k⟩

def apply (m : Linear α) (v : Vec α) : Vec α := ⟨m.x.dot v, m.y.dot v, m.z.dot v⟩

def columnX (m : Linear α) : Vec α := ⟨m.x.x, m.y.x, m.z.x⟩

def columnY (m : Linear α) : Vec α := ⟨m.x.y, m.y.y, m.z.y⟩

def columnZ (m : Linear α) : Vec α := ⟨m.x.z, m.y.z, m.z.z⟩

/-- The map that applies `b` first. -/
def mul (a b : Linear α) : Linear α :=
  let row (r : Vec α) : Vec α := ⟨r.dot b.columnX, r.dot b.columnY, r.dot b.columnZ⟩
  ⟨row a.x, row a.y, row a.z⟩

def determinant (m : Linear α) : α :=
  m.x.x * (m.y.y * m.z.z - m.z.y * m.y.z) - m.x.y * (m.y.x * m.z.z - m.z.x * m.y.z)
    + m.x.z * (m.y.x * m.z.y - m.z.x * m.y.y)

/-- The right-handed rotation about an axis of length one. -/
def rotation (u : Vec α) (angle : α) : Linear α :=
  if angle == 0 then identity
  else
    let s := sin angle
    let c := cos angle
    let k := 1 - c
    ⟨⟨u.x * u.x + (1 - u.x * u.x) * c, u.x * u.y * k - u.z * s, u.x * u.z * k + u.y * s⟩,
      ⟨u.x * u.y * k + u.z * s, u.y * u.y + (1 - u.y * u.y) * c, u.y * u.z * k - u.x * s⟩,
      ⟨u.x * u.z * k - u.y * s, u.y * u.z * k + u.x * s, u.z * u.z + (1 - u.z * u.z) * c⟩⟩

end Linear

/-- A linear map followed by a shift. -/
structure Placement (α : Type) where
  linear : Linear α
  offset : Vec α
  deriving Repr, Inhabited

namespace Placement
variable {α : Type} [Scalar α]

instance : BEq (Placement α) := ⟨fun a b => a.linear == b.linear && a.offset == b.offset⟩

def identity : Placement α := ⟨.identity, .zero⟩

def shift (v : Vec α) : Placement α := ⟨.identity, v⟩

/-- A uniform scale about the origin. -/
def scale (k : α) : Placement α := ⟨Linear.identity.scale k, .zero⟩

/-- The rotation about any axis. One that is too short to have a direction gives the identity. -/
def rotation (axis : Vec α) (angle : α) : Placement α :=
  let tiny : α := ofRatio 1 0x10000000000000
  if tiny * tiny < axis.normSq then ⟨.rotation (axis.divide axis.norm) angle, .zero⟩
  else identity

/-- A counter-clockwise rotation in the XY plane. -/
def rotationZ (angle : α) : Placement α := rotation .unitZ angle

/-- The placement that applies `b` first. -/
def mul (a b : Placement α) : Placement α :=
  ⟨a.linear.mul b.linear, a.linear.apply b.offset + a.offset⟩

instance : Mul (Placement α) := ⟨mul⟩

def apply (t : Placement α) (p : Vec α) : Vec α := t.linear.apply p + t.offset

/-- A displacement is not shifted. -/
def applyVector (t : Placement α) (v : Vec α) : Vec α := t.linear.apply v

def determinant (t : Placement α) : α := t.linear.determinant

/-- Whether the placement turns right hands into left ones. -/
def isMirroring (t : Placement α) : Bool := t.determinant < 0

/-- The length of a unit displacement along X. -/
def lengthScale (t : Placement α) : α := (t.applyVector .unitX).norm

/-- The length of a unit displacement along Z. -/
def depthScale (t : Placement α) : α := (t.applyVector .unitZ).norm

end Placement
end Toolpath
