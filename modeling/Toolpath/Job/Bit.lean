import Toolpath.Decimal.Layout
import Toolpath.Scalar

/-! Router bits, described by the width of the cut they make at a depth below their tip. -/
namespace Toolpath
open Scalar

inductive BitProfile (α : Type) where
  /-- The same width at every depth. -/
  | flat (diameter : α)
  /-- Edges that enclose an angle in degrees above a flat tip. -/
  | vee (angle tip : α)
  deriving Repr, Inhabited

def BitProfile.toString {α : Type} : BitProfile α → String
  | .flat _ => "Flat End Mill"
  | .vee _ _ => "V-Bit"

structure Bit (α : Type) where
  name : String
  profile : BitProfile α
  deriving Repr, Inhabited

namespace Bit
variable {α : Type} [Scalar α]

/-- The width of the cut at a depth; above the tip it is that at the tip. -/
def widthAt (b : Bit α) (depth : α) : α :=
  let depth := greater depth 0
  match b.profile with
  | .flat diameter => diameter
  | .vee angle tip => tip + two * depth * tan (ofDegrees (angle / two))

def tipWidth (b : Bit α) : α := b.widthAt 0

/-- Whether the bit can cut: a flat one is wider than nothing, and the edges of a tapered one
enclose an angle below a straight one. -/
def isUsable (b : Bit α) : Bool :=
  match b.profile with
  | .flat diameter => isFinite diameter && decide (0 < diameter)
  | .vee angle tip => decide (0 < angle) && decide (angle < ofInt 180) && isFinite tip &&
      decide (0 ≤ tip)

/-- A flat bit named for its diameter. -/
def flat (diameter : Float) : Bit Float :=
  ⟨Decimal.Layout.plain.write diameter ++ " flat end mill", .flat diameter⟩

/-- A tapered bit named for its angle and, if it is not pointed, its tip. -/
def vee (angle tip : Float) : Bit Float :=
  let degrees := Decimal.Layout.plain.write angle ++ "-degree carving bit"
  ⟨if 0 < tip then Decimal.Layout.plain.write tip ++ "-tip " ++ degrees else degrees,
    .vee angle tip⟩

end Bit
end Toolpath
