import Toolpath.Decimal.Layout
import Toolpath.Document.Value
import Toolpath.Measure.Error
import Toolpath.Text.Quoted

/-! Why a document value is not of the expected form. -/
namespace Toolpath

inductive DecodeError where
  /-- The text breaks a rule of its format, or a limit on depth or size. -/
  | malformed
  | missingField (name : String)
  | duplicateField (name : String)
  | invalidType (found : Value) (expected : String)
  | invalidValue (found : Value) (expected : String)
  | invalidLength (found : Nat) (expected : String)
  | unknownVariant (name : String) (expected : List String)
  | noVariant (name : String)
  | unknownDepth (text : String)
  | amount (e : MeasureError)
  /-- Neither the name of a variant nor a table that holds one. -/
  | notAVariant
  /-- A table that is to hold one variant has no member or several. -/
  | notOneVariant (empty : Bool)
  /-- A variant without content is given some, as tables below headers or otherwise. -/
  | variantNotEmpty (tables : Bool)
  | variantNotATable (found : Value)
  deriving Repr, Inhabited

namespace DecodeError

/-- What a value is called, binary numbers being written by `number`. -/
def describe (number : Float → String) : Value → String
  | .null => "null"
  | .bool b => "boolean `" ++ (if b then "true" else "false") ++ "`"
  | .int n => "integer `" ++ Int.repr n ++ "`"
  | .float x => "floating point `" ++ number x ++ "`"
  | .str s => "string " ++ Text.quote s
  | .arr _ => "sequence"
  | .tables _ => "sequence"
  | .moment _ => "map"
  | .obj _ => "map"
  | .defect _ => "defect"

/-- The name of a type of TOML. -/
def typeName : Value → String
  | .null => "none"
  | .bool _ => "boolean"
  | .int _ => "integer"
  | .float _ => "float"
  | .str _ => "string"
  | .moment _ => "datetime"
  | .arr _ => "array"
  | .tables _ => "array of tables"
  | .obj _ => "table"
  | .defect _ => "defect"

def oneOf (names : List String) : String :=
  match names.map fun n => "`" ++ n ++ "`" with
  | [] => "there are no variants"
  | [a] => "expected " ++ a
  | [a, b] => "expected " ++ a ++ " or " ++ b
  | all => "expected one of " ++ String.intercalate ", " all

def message (number : Float → String) : DecodeError → String
  | .malformed => "malformed text"
  | .missingField name => "missing field `" ++ name ++ "`"
  | .duplicateField name => "duplicate field `" ++ name ++ "`"
  | .invalidType found expected =>
    "invalid type: " ++ describe number found ++ ", expected " ++ expected
  | .invalidValue found expected =>
    "invalid value: " ++ describe number found ++ ", expected " ++ expected
  | .invalidLength found expected =>
    "invalid length " ++ Nat.repr found ++ ", expected " ++ expected
  | .unknownVariant name expected => "unknown variant `" ++ name ++ "`, " ++ oneOf expected
  | .noVariant name => "data did not match any variant of untagged enum " ++ name
  | .unknownDepth text => "Failed to parse '" ++ text ++ "' as depth"
  | .amount e => e.message
  | .notAVariant => "wanted string or table"
  | .notOneVariant empty =>
    "wanted exactly 1 element, " ++ if empty then "found 0 elements" else "more than 1 element"
  | .variantNotEmpty tables => "expected empty " ++ if tables then "array" else "table"
  | .variantNotATable found => "expected table, found " ++ typeName found

end DecodeError
end Toolpath
