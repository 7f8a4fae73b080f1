import Toolpath.Document.Decode
import Toolpath.Job.Bit
import Toolpath.Program.Options

/-! Bits and options as document values. -/
namespace Toolpath.Form
open Decode

def ofBit (b : Bit Float) : Value :=
  let profile : Value := match b.profile with
    | .flat diameter => .obj [("kind", .str "flat"), ("diameter", .float diameter)]
    | .vee angle tip => .obj [("kind", .str "v-bit"), ("angle_degrees", .float angle),
        ("tip_diameter", .float tip)]
  .obj [("name", .str b.name), ("profile", profile)]

def toProfile : Decoder (BitProfile Float) := tagged "kind" "internally tagged enum BitProfile" [
  ("flat", record "struct variant BitProfile::Flat" 1 fun r =>
    BitProfile.flat <$> r.field 0 "diameter" float),
  ("v-bit", record "struct variant BitProfile::VBit" 2 fun r =>
    BitProfile.vee <$> r.field 0 "angle_degrees" float <*> r.field 1 "tip_diameter" float)]

def toBit : Decoder (Bit Float) := record "struct RouterBit" 2 fun r =>
  Bit.mk <$> r.field 0 "name" string <*> r.field 1 "profile" toProfile

def toCommentMode : Decoder CommentMode := choice CommentMode.all

def toOptions : Decoder (Options Float) := record "struct GCodeOptions" 7 fun r =>
  Options.mk <$> r.field 0 "safe_height" float <*> r.field 1 "minimum_fast_z" float <*>
    r.field 2 "step_down" float <*> r.field 3 "feed_rate" float <*>
    r.field 4 "spindle_speed" float <*> r.field 5 "fraction_digits" index <*>
    r.field 6 "comment_mode" toCommentMode

end Toolpath.Form
