import Toolpath.Decimal.Layout
import Toolpath.Measure.Unit

/-! What can go wrong with a job, its settings and its cuts. -/
namespace Toolpath

/-- A setting that is out of its range. -/
inductive RangeError (α : Type) where
  | notPositive (name : String) (value : α)
  | heightNotFinite
  | fastAboveSafe (fast safe : α)
  | tooManyDigits (digits : Nat)
  | bottomOutsideRim (bottom top : α)
  deriving Repr, Inhabited

inductive CarveError (α : Type) where
  | measure (e : MeasureError)
  | range (e : RangeError α)
  | thicknessMissing
  | thicknessInBoards
  | thicknessNotPositive (thickness : Ratio)
  | noSystem (unit : UnitName)
  | edgeMissing (axis : String)
  | missingVertex (segment vertex : Nat)
  | missingCenter (segment vertex : Nat)
  | nestedTooDeep (limit : Nat)
  | flatBottom
  deriving Repr, Inhabited

/-- A name and why its value is refused. -/
def invalidValueText (name reason : String) : String :=
  "Invalid value for '" ++ name ++ "': " ++ reason

def RangeError.message (e : RangeError Float) : String :=
  let number := Decimal.Layout.plain.write
  match e with
  | .notPositive name value =>
    "Parameter '" ++ name ++ "' must be positive, got " ++ number value
  | .heightNotFinite => invalidValueText "safe_height" "heights must be finite"
  | .fastAboveSafe fast safe =>
    invalidValueText "minimum_fast_z"
      (number fast ++ " is above the safe height " ++ number safe)
  | .tooManyDigits digits =>
    invalidValueText "fraction_digits"
      ("at most 10 digits are supported, got " ++ Nat.repr digits)
  | .bottomOutsideRim bottom top =>
    invalidValueText "bottomDiameter"
      ("must be between 0 and the pocket diameter, got radius " ++ number bottom ++
        " for rim radius " ++ number top)

def CarveError.message : CarveError Float → String
  | .measure e => e.message
  | .range e => "Parameter error: " ++ e.message
  | .thicknessMissing => invalidValueText "thickness" "workpiece thickness is required"
  | .thicknessInBoards => invalidValueText "thickness" "cannot be measured in boards"
  | .thicknessNotPositive t =>
    invalidValueText "thickness" ("must be positive, got " ++ t.toString)
  | .noSystem u => "Native unit '" ++ u.toString ++ "' is neither inch nor millimeter"
  | .edgeMissing axis =>
    invalidValueText (axis ++ "0")
      ("either '" ++ axis ++ "0' or 'c" ++ axis ++ "' must be specified for box")
  | .missingVertex segment vertex =>
    "Vertex " ++ Nat.repr vertex ++ " referenced by path segment " ++ Nat.repr segment ++
      " does not exist"
  | .missingCenter segment vertex =>
    "Undefined curve center vertex " ++ Nat.repr vertex ++ " on path segment " ++
      Nat.repr segment
  | .nestedTooDeep limit => "Cut tree nesting exceeds limit of " ++ Nat.repr limit
  | .flatBottom =>
    "Unsupported feature: conic pocket with cutsBottom (flat bottom clearing)"

/-- A failed measurement among the errors of a job. -/
def CarveError.ofMeasure {α β : Type} : Except MeasureError β → Except (CarveError α) β
  | .ok b => .ok b
  | .error e => .error (.measure e)

end Toolpath
