import Toolpath.Document.DecodeError
import Toolpath.Document.Json.Writer
import Toolpath.Document.Toml.Writer
import Toolpath.Job.Error

/-! What can go wrong with the settings of a job and the files that hold them. -/
namespace Toolpath

inductive SettingsError where
  | thicknessMissing
  | thicknessInBoards
  | diameterMissing
  | angleMissing
  | angleOutOfRange (angle : Float)
  | bitUnusable (name : String)
  | feedRateNotPositive
  | spindleSpeedNotPositive
  | measure (e : MeasureError)
  | job (e : CarveError Float)
  | range (e : RangeError Float)
  /-- A file name with another ending than those of the formats. -/
  | unknownFormat (ending : String)
  | unreadable
  | json (e : DecodeError)
  | toml (e : DecodeError)
  /-- A whole number beyond what TOML holds. -/
  | tooLargeForToml
  deriving Repr, Inhabited

namespace SettingsError

/-- The name of a setting and why its value is refused. -/
def invalidText (key reason : String) : String := "Invalid setting '" ++ key ++ "': " ++ reason

def message : SettingsError → String
  | .thicknessMissing => "Workpiece thickness is required"
  | .thicknessInBoards => invalidText "job.thickness" "cannot be measured in boards"
  | .diameterMissing => invalidText "bit.diameter" "a flat bit needs a diameter"
  | .angleMissing => invalidText "bit.angle" "a V-bit needs an angle"
  | .angleOutOfRange angle => invalidText "bit.angle"
      ("must be between 0 and 180 degrees, got " ++ Decimal.Layout.plain.write angle)
  | .bitUnusable name => invalidText "bit" ("'" ++ name ++ "' has no usable cutting width")
  | .feedRateNotPositive => invalidText "gcode.feed_rate" "must be > 0"
  | .spindleSpeedNotPositive => invalidText "gcode.spindle_speed" "must be > 0"
  | .measure e => e.message
  | .job e => e.message
  | .range e => e.message
  | .unknownFormat ending => "Config file must be .json or .toml, got '" ++ ending ++ "'"
  | .unreadable => "I/O error: file cannot be read"
  | .json e => "JSON error: " ++ e.message Json.numbers.write
  | .toml e => "TOML error: " ++ e.message Toml.messageNumbers.write
  | .tooLargeForToml => "TOML error: out-of-range value for u64 type"

def ofMeasure {α : Type} : Except MeasureError α → Except SettingsError α
  | .ok a => .ok a
  | .error e => .error (.measure e)

def ofJob {α : Type} : Except (CarveError Float) α → Except SettingsError α
  | .ok a => .ok a
  | .error e => .error (.job e)

def ofRange {α : Type} : Except (RangeError Float) α → Except SettingsError α
  | .ok a => .ok a
  | .error e => .error (.range e)

end SettingsError
end Toolpath
