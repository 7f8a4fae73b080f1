import Toolpath.Document.Json.Reader
import Toolpath.Document.Json.Writer
import Toolpath.Form.Cut

/-! Files that hold the cuts of a job. -/
namespace Toolpath

structure CutFile where
  version : String := "1.0"
  name : Option String := none
  cuts : List (Cut Float)
  deriving Repr, Inhabited, BEq

namespace CutFile
open Decode

def ofCuts (cuts : List (Cut Float)) : CutFile := { cuts }

def toValue (f : CutFile) : Value :=
  .obj ([("version", .str f.version)] ++ Form.member "name" (f.name.map .str) ++
    [("cuts", .arr (Form.ofCuts f.cuts))])

def ofValue : Decoder CutFile := record "struct CutFile" 3 fun r =>
  CutFile.mk <$> r.field 0 "version" string (some "1.0") <*>
    r.field 1 "name" (option string) (some none) <*> r.field 2 "cuts" (list Form.toCut)

/-- The text of the file, indented. -/
def write (f : CutFile) : String := Json.pretty f.toValue

def parse (text : String) : Except DecodeError CutFile :=
  match Json.read? text with
  | some v => ofValue .json v
  | none => .error .malformed

end CutFile
end Toolpath
