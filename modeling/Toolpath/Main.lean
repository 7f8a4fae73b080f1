import Toolpath.CommandLine

/-! The program: reads the files that its command line names, and prints or stores a text. -/
namespace Toolpath

/-- What a file holds, if it can be read. -/
def contentOf (path : String) : IO (Option String) := do
  try
    return some (← IO.FS.readFile path)
  catch _ =>
    return none

/-- Stores a text, or prints it if no file takes it. -/
def deliver (output : Option String) (text : String) : IO (Except Failure Unit) := do
  match output with
  | none =>
    IO.print text
    return .ok ()
  | some path =>
    try
      IO.FS.writeFile path text
      return .ok ()
    catch e =>
      return .error ⟨"Failed to write " ++ path, [e.toString]⟩

def fail (f : Failure) : IO UInt32 := do
  IO.eprintln f.report
  return 1

end Toolpath

open Toolpath in
def main (args : List String) : IO UInt32 := do
  match Request.parse args with
  | none =>
    IO.eprintln "Usage: toolpath [--bounds] [--output FILE] SETTINGS CUTS"
    return 2
  | some r =>
    match r.text (← contentOf r.settings) (← contentOf r.cuts) with
    | .error f => fail f
    | .ok text =>
      match ← deliver r.output text with
      | .error f => fail f
      | .ok () => return 0
