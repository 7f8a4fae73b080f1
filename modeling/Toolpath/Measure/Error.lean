/-! What can go wrong with exact numbers, units and amounts. -/
namespace Toolpath

inductive MeasureError where
  | unknownUnit (name : String)
  | malformedNumber (text : String)
  | malformedAmount (text : String)
  | zeroDivisor
  | outOfRange
  deriving Repr, DecidableEq, Inhabited

def MeasureError.message : MeasureError → String
  | .unknownUnit name => "No such distance unit as '" ++ name ++ "'"
  | .malformedNumber text => "Failed to parse '" ++ text ++ "' as number"
  | .malformedAmount text => "Invalid amount string: '" ++ text ++ "'"
  | .zeroDivisor => "Division by zero in rational number"
  | .outOfRange => "Rational number overflow"

end Toolpath
