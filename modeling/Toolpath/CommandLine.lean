import Toolpath.Decimal.Fixed
import Toolpath.Settings.File
import Toolpath.Settings.Output

/-!
The command line: the files of a job's settings and of its cuts, `--bounds` to ask for the box that
the cuts touch in place of the program, and `--output` or `-o` to name the file that takes the text.
-/
namespace Toolpath

/-- What the words of a command line ask for. -/
structure Request where
  settings : String
  cuts : String
  bounds : Bool := false
  output : Option String := none
  deriving Repr, DecidableEq, Inhabited

namespace Request

/-- Words read so far, file names in their order. -/
structure Words where
  files : List String := []
  bounds : Bool := false
  output : Option String := none
  deriving Repr, DecidableEq

/-- Adds a file name, which is not empty. -/
def Words.file? (w : Words) (name : String) : Option Words :=
  if name.isEmpty then none else some { w with files := w.files ++ [name] }

/-- Names the output file, once and not by an empty name. -/
def Words.output? (w : Words) (name : String) : Option Words :=
  if name.isEmpty || w.output.isSome then none else some { w with output := some name }

def Words.bounds? (w : Words) : Option Words :=
  if w.bounds then none else some { w with bounds := true }

/-- Whether a word is an option. A single dash is a file name. -/
def isOption (word : String) : Bool :=
  match word.toList with
  | ['-'] => false
  | '-' :: _ => true
  | _ => false

/-- The file name that a word holds together with the output option. -/
def attached? (word : String) : Option String :=
  match List.isPrefixOf? "--output=".toList word.toList, word.toList with
  | some name, _ => some (String.ofList name)
  | none, '-' :: 'o' :: '=' :: name => some (String.ofList name)
  | none, '-' :: 'o' :: name => some (String.ofList name)
  | none, _ => none

/-- Reads words up to `--`, behind which all words are file names. -/
def readWords (w : Words) : List String → Option Words
  | [] => some w
  | "--" :: names => names.foldlM Words.file? w
  | "--bounds" :: rest => do readWords (← w.bounds?) rest
  | word :: rest =>
    if word = "-o" ∨ word = "--output" then
      match rest with
      | name :: rest => if isOption name then none else do readWords (← w.output? name) rest
      | [] => none
    else if isOption word then
      match attached? word with
      | some name => do readWords (← w.output? name) rest
      | none => none
    else do readWords (← w.file? word) rest

/-- The request of a command line with exactly two file names. -/
def parse (args : List String) : Option Request := do
  let w ← readWords {} args
  match w.files with
  | [settings, cuts] => some ⟨settings, cuts, w.bounds, w.output⟩
  | _ => none

/-- The extent along an axis. -/
def extentLine (axis : String) (e : Span Float) : String :=
  let number (end? : Option Float) (missing : Float) := Decimal.fixed 4 (end?.getD missing)
  axis ++ " " ++ number e.low (1 / 0) ++ " .. " ++ number e.high (-1 / 0) ++ "\n"

def boundsText (b : Bounds Float) : String :=
  extentLine "X" b.x ++ extentLine "Y" b.y ++ extentLine "Z" b.z

/-- The text that is asked for, given what the two files hold if they can be read. -/
def text (r : Request) (settings cuts : Option String) : Except Failure String := do
  let s ← Failure.during ("Failed to load job config " ++ r.settings) SettingsError.causes
    (Settings.load r.settings settings)
  let cuts ← match cuts with
    | some c => pure c
    | none => throw ⟨"Failed to read cut file " ++ r.cuts, []⟩
  let f ← Failure.during "Failed to parse cut file" (fun e => [e.message Json.numbers.write])
    (CutFile.parse cuts)
  if r.bounds then
    let b ← s.bounds f
    if b.isNonempty then return boundsText b
    else throw ⟨"cut file " ++ r.cuts ++ " carves nothing", []⟩
  else s.programText f

end Request
end Toolpath
