import Toolpath.Decimal.Shortest

/-! Decimals read as binary values. -/
namespace Toolpath.Decimal

/-- The nearest binary value. Decimals far outside the range are settled by their magnitude. -/
def toFloat (negative : Bool) (d : Decimal) : Float :=
  let top := d.exponent + digitCount d.digits
  let x : Float :=
    if d.digits = 0 ∨ top < -400 then 0
    else if 400 < top then 1 / 0
    else .ofScientific d.digits (d.exponent < 0) d.exponent.natAbs
  if negative then -x else x

end Toolpath.Decimal
