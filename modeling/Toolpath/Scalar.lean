/-! Numbers that lengths, angles and coordinates are computed in. -/
namespace Toolpath

/-- What geometry asks of a number. Nothing is assumed about rounding, so a binary format and an
exact one both qualify, and `==` may hold of two unlike zeros and fail of a value and itself. -/
class Scalar (α : Type) extends Zero α, One α, Neg α, Add α, Sub α, Mul α, Div α, LT α, LE α,
    BEq α where
  [decidableLT : DecidableLT α]
  [decidableLE : DecidableLE α]
  /-- The quotient of two integers. -/
  ofRatio : Int → Int → α
  /-- Half of a full turn in radians. -/
  pi : α
  sqrt : α → α
  sin : α → α
  cos : α → α
  tan : α → α
  /-- The nearest whole number, a half going away from zero. -/
  round : α → α
  /-- The integer part. A format of bounded range may clamp it. -/
  truncate : α → Int
  /-- A natural number that is not below the value, where there is one. -/
  ceiling : α → Nat

attribute [reducible, instance] Scalar.decidableLT Scalar.decidableLE

namespace Scalar
variable {α : Type} [Scalar α]

def ofInt (n : Int) : α := ofRatio n 1

def two : α := ofInt 2

/-- A quarter of a full turn in radians. -/
def quarterTurn : α := pi / two

/-- A full turn in radians. -/
def fullTurn : α := two * pi

/-- Degrees to radians, through the size of one degree. -/
def ofDegrees (d : α) : α := d * (pi / ofInt 180)

/-- Whether the value is no number at all. -/
def isNaN (a : α) : Bool := !(a == a)

/-- Whether the value is a number and bounded. -/
def isFinite (a : α) : Bool := a - a == 0

def abs (a : α) : α := if a < 0 then -a else a

/-- The smaller of two values; the other one where one is no number. -/
def lesser (a b : α) : α := if a < b then a else if isNaN b then a else b

/-- The larger of two values; the other one where one is no number. -/
def greater (a b : α) : α := if b < a then a else if isNaN b then a else b

/-- Equality that also takes two values that are no numbers for the same. -/
def alike (a b : α) : Bool := a == b || isNaN a && isNaN b

end Scalar

/-- Binary floating point. The integer part is clamped to the range of signed 64-bit integers. -/
instance : Scalar Float where
  zero := 0
  one := 1
  ofRatio n d := Float.ofInt n / Float.ofInt d
  pi := 3.141592653589793
  sqrt := Float.sqrt
  sin := Float.sin
  cos := Float.cos
  tan := Float.tan
  round := Float.round
  truncate a := a.toInt64.toInt
  ceiling a := a.ceil.toUInt64.toNat

end Toolpath
