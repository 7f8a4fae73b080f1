import Toolpath.Document.Json.Reader
import Toolpath.Document.Toml.Reader
import Toolpath.Form.Settings
import Toolpath.Text.Split

/-! Files that hold the settings of a job. The ending of a file's name tells its format. -/
namespace Toolpath

inductive FileFormat where
  | json | toml
  deriving Repr, DecidableEq

/-- What follows the last point in the last part of a path, unless that part starts there. -/
def ending? (path : String) : Option String :=
  let parts := (Text.splitAll '/' path.toList).filter fun p => !p.isEmpty && p != ['.']
  match parts.getLast? with
  | none | some ['.', '.'] => none
  | some file =>
    match Text.splitLast '.' file with
    | some (front, ending) => if front.isEmpty then none else some (String.ofList ending)
    | none => none

def FileFormat.ofPath (path : String) : Except SettingsError FileFormat :=
  match ending? path with
  | some "json" => .ok .json
  | some "toml" => .ok .toml
  | other => .error (.unknownFormat (other.getD ""))

namespace Settings

/-- The settings that a text writes, which need not be good ones. -/
def read (format : FileFormat) (text : String) : Except SettingsError Settings :=
  match format with
  | .json =>
    match Json.read? text with
    | some v => (Form.toSettings .json v).mapError .json
    | none => .error (.json .malformed)
  | .toml =>
    match Toml.read? text with
    | some v => (Form.toSettings .table v).mapError .toml
    | none => .error (.toml .malformed)

/-- The settings that a text writes, checked. -/
def parse (format : FileFormat) (text : String) : Except SettingsError Settings := do
  let s ← read format text
  s.check
  return s

/-- The text of settings. -/
def write (format : FileFormat) (s : Settings) : Except SettingsError String :=
  match format with
  | .json => .ok (Json.pretty (Form.ofSettings s))
  | .toml =>
    match Toml.write? (Form.ofSettings s) with
    | some text => .ok text
    | none => .error .tooLargeForToml

/-- The settings in the file at a path, given what the file holds if it can be read. -/
def load (path : String) (content : Option String) : Except SettingsError Settings := do
  let format ← FileFormat.ofPath path
  match content with
  | some text => parse format text
  | none => throw .unreadable

/-- The text to store at a path. Settings that are not good are not stored. -/
def save (path : String) (s : Settings) : Except SettingsError String := do
  s.check
  write (← FileFormat.ofPath path) s

end Settings
end Toolpath
