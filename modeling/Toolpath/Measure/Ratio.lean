import Toolpath.Scalar
import Toolpath.Measure.Error

/-! Exact fractions whose two parts are signed 64-bit integers. -/
namespace Toolpath

structure Ratio where
  num : Int
  den : Nat
  deriving Repr, DecidableEq, Inhabited

namespace Ratio

/-- The integers that a part may hold. -/
def InRange (n : Int) : Prop := -0x8000000000000000 ≤ n ∧ n < 0x8000000000000000

instance (n : Int) : Decidable (InRange n) := inferInstanceAs (Decidable (_ ∧ _))

/-- Lowest terms over a positive denominator, both parts in range. Two canonical fractions with
one value are the same fraction. -/
structure Canonical (r : Ratio) : Prop where
  pos : 0 < r.den
  coprime : r.num.natAbs.gcd r.den = 1
  num_inRange : InRange r.num
  den_inRange : InRange r.den

def ofInt (n : Int) : Ratio := ⟨n, 1⟩

instance : OfNat Ratio 0 := ⟨ofInt 0⟩

instance : OfNat Ratio 1 := ⟨ofInt 1⟩

/-- The fraction `n / d` in lowest terms, where there is one and its parts are in range. -/
def reduce (n d : Int) : Except MeasureError Ratio :=
  if d = 0 then .error .zeroDivisor
  else
    let g := Int.gcd n d
    let num := (if d < 0 then -n else n) / g
    let den := d.natAbs / g
    if InRange num ∧ InRange den then .ok ⟨num, den⟩ else .error .outOfRange

def add (a b : Ratio) : Except MeasureError Ratio :=
  reduce (a.num * b.den + b.num * a.den) (a.den * b.den)

def neg (a : Ratio) : Except MeasureError Ratio :=
  if InRange (-a.num) then .ok ⟨-a.num, a.den⟩ else .error .outOfRange

/-- Subtraction adds the negated right side, which has to be in range by itself. -/
def sub (a b : Ratio) : Except MeasureError Ratio := do a.add (← b.neg)

def mul (a b : Ratio) : Except MeasureError Ratio :=
  reduce (a.num * b.num) (a.den * b.den)

def div (a b : Ratio) : Except MeasureError Ratio :=
  reduce (a.num * b.den) (a.den * b.num)

/-- The order of the values. -/
def cmp (a b : Ratio) : Ordering := compare (a.num * b.den) (b.num * a.den)

def isZero (a : Ratio) : Bool := a.num == 0

def isOne (a : Ratio) : Bool := a.num == 1 && a.den == 1

def isPositive (a : Ratio) : Bool := cmp 0 a == .lt

/-- The value as a length. -/
def toScalar {α : Type} [Scalar α] (a : Ratio) : α := Scalar.ofRatio a.num a.den

/-- A whole number stands alone, any other value as a quotient. -/
def toString (a : Ratio) : String :=
  if a.den = 1 then Int.repr a.num else Int.repr a.num ++ "/" ++ Nat.repr a.den

instance : ToString Ratio := ⟨toString⟩

/-- The four operations whose result must exist. -/
inductive Operation where
  | add | sub | mul | div
  deriving Repr, DecidableEq

def Operation.apply : Operation → Ratio → Ratio → Except MeasureError Ratio
  | .add => Ratio.add
  | .sub => Ratio.sub
  | .mul => Ratio.mul
  | .div => Ratio.div

/-- What a program that relied on the result stops with. -/
def Operation.stopMessage (op : Operation) (e : MeasureError) : String :=
  let reason := match op with
    | .add => "rational addition overflowed"
    | .sub => "rational subtraction overflowed"
    | .mul => "rational multiplication overflowed"
    | .div => "rational division by zero or overflow"
  let cause := match e with
    | .zeroDivisor => "DivisionByZero"
    | .outOfRange => "Overflow"
    | other => other.message
  reason ++ ": " ++ cause

end Ratio
end Toolpath
