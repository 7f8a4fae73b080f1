import Toolpath.Form.Cut
import Toolpath.Form.Job
import Toolpath.Settings.Basic

/-!
Settings as document values. An option without a value is left out, and what is left out on reading
has its usual value.
-/
namespace Toolpath.Form
open Decode

def ofAmount (a : Amount) : Value := .str a.toString

def ofKind : BitKind → Value
  | .flat => .str "flat"
  | .vee => .str "v-bit"

def ofStockSettings (s : StockSettings) : Value :=
  .obj (member "name" (s.name.map .str) ++ [("native_unit", .str s.nativeUnit)] ++
    member "thickness" (s.thickness.map ofAmount))

def ofBitSettings (b : BitSettings) : Value :=
  .obj (member "name" (b.name.map .str) ++ [("profile", ofKind b.kind)] ++
    member "diameter" (b.diameter.map ofAmount) ++ member "angle" (b.angle.map .float) ++
    member "tip_diameter" (b.tipDiameter.map ofAmount))

def ofProgramSettings (p : ProgramSettings) : Value :=
  .obj [("safe_height", ofAmount p.safeHeight), ("minimum_fast_z", ofAmount p.minimumFastZ),
    ("step_down", ofAmount p.stepDown), ("feed_rate", .float p.feedRate),
    ("spindle_speed", .float p.spindleSpeed), ("fraction_digits", .int p.fractionDigits),
    ("comment_mode", .str p.commentMode.toString)]

def ofSettings (s : Settings) : Value :=
  .obj [("job", ofStockSettings s.stock), ("bit", ofBitSettings s.bit),
    ("gcode", ofProgramSettings s.program)]

def toKind : Decoder BitKind := choice [("flat", .flat), ("v-bit", .vee)]

def toStockSettings : Decoder StockSettings := record "struct JobSettings" 3 fun r =>
  let usual : StockSettings := {}
  StockSettings.mk <$> r.field 0 "name" (option string) (some usual.name) <*>
    r.field 1 "native_unit" string (some usual.nativeUnit) <*>
    r.field 2 "thickness" (option amount) (some usual.thickness)

def toBitSettings : Decoder BitSettings := record "struct BitSettings" 5 fun r =>
  let usual : BitSettings := {}
  BitSettings.mk <$> r.field 0 "name" (option string) (some usual.name) <*>
    r.field 1 "profile" toKind (some usual.kind) <*>
    r.field 2 "diameter" (option amount) (some usual.diameter) <*>
    r.field 3 "angle" (option float) (some usual.angle) <*>
    r.field 4 "tip_diameter" (option amount) (some usual.tipDiameter)

def toProgramSettings : Decoder ProgramSettings := record "struct GCodeSettings" 7 fun r =>
  let usual : ProgramSettings := {}
  ProgramSettings.mk <$> r.field 0 "safe_height" amount (some usual.safeHeight) <*>
    r.field 1 "minimum_fast_z" amount (some usual.minimumFastZ) <*>
    r.field 2 "step_down" amount (some usual.stepDown) <*>
    r.field 3 "feed_rate" float (some usual.feedRate) <*>
    r.field 4 "spindle_speed" float (some usual.spindleSpeed) <*>
    r.field 5 "fraction_digits" index (some usual.fractionDigits) <*>
    r.field 6 "comment_mode" toCommentMode (some usual.commentMode)

def toSettings : Decoder Settings := record "struct JobConfig" 3 fun r =>
  Settings.mk <$> r.field 0 "job" toStockSettings (some {}) <*>
    r.field 1 "bit" toBitSettings (some {}) <*> r.field 2 "gcode" toProgramSettings (some {})

end Toolpath.Form
