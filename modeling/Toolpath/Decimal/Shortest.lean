import Toolpath.Decimal.Binary

/-!
The fewest decimal digits that read back to a binary value. Of the points of the coarsest grid that
lie in the interval of reals rounding to the value, the nearest is taken.
-/
namespace Toolpath

/-- The value `digits · 10 ^ exponent`. -/
structure Decimal where
  digits : Nat
  exponent : Int
  deriving Repr, DecidableEq, Inhabited

namespace Decimal

/-- Which of two equally near decimals is chosen. -/
inductive Tie where
  | up | toEven
  deriving Repr, DecidableEq

def digitCount (n : Nat) : Nat := (Nat.toDigits 10 n).length

/-- The exponent of the leading decimal digit of `m · 2 ^ q`, for a positive `m`. -/
def leadingExponent (m : Nat) (q : Int) : Int :=
  let n := m * Nat.pow 2 q.toNat
  let d := Nat.pow 2 (-q).toNat
  if d ≤ n then digitCount (n / d) - 1 else -digitCount ((d - 1) / n)

/-- The nearest point of the grid `10 ^ k` among the reals that round to `m · 2 ^ q`, if any. The
ends of that interval belong to it when `m` is even. -/
def gridPoint? (tie : Tie) (m : Nat) (q k : Int) : Option Nat :=
  let grid := Nat.pow 10 k.toNat * Nat.pow 2 (2 - q).toNat
  let unit := Nat.pow 2 (q - 2).toNat * Nat.pow 10 (-k).toNat
  let value := 4 * m * unit
  let low := (4 * m - if isNarrowBelow m q then 1 else 2) * unit
  let high := (4 * m + 2) * unit
  let c := value / grid
  let belowFits := if m % 2 = 0 then low ≤ c * grid else low < c * grid
  let aboveFits := if m % 2 = 0 then (c + 1) * grid ≤ high else (c + 1) * grid < high
  let takeBelow := match compare (2 * value) ((2 * c + 1) * grid), tie with
    | .lt, _ => true
    | .gt, _ => false
    | .eq, .up => false
    | .eq, .toEven => c % 2 == 0
  if belowFits ∧ aboveFits then some (if takeBelow then c else c + 1)
  else if belowFits then some c
  else if aboveFits then some (c + 1)
  else none

/-- Drops the zeros at the end of the digits. -/
def normalize (d : Decimal) : Decimal :=
  if _ : d.digits ≠ 0 ∧ d.digits % 10 = 0 then
    normalize ⟨d.digits / 10, d.exponent + 1⟩
  else d
termination_by d.digits
decreasing_by omega

/-- The shortest decimal for `m · 2 ^ q`. Seventeen digits always suffice. -/
def shortest (tie : Tie) (m : Nat) (q : Int) : Decimal :=
  if m = 0 then ⟨0, 0⟩
  else
    let top := leadingExponent m q
    let found := (List.range 17).findSome? fun (n : Nat) =>
      (gridPoint? tie m q (top - n)).map (Decimal.mk · (top - n))
    (found.getD ⟨0, 0⟩).normalize

end Decimal
end Toolpath
