import Toolpath.Bounds
import Toolpath.CutFile
import Toolpath.Failure
import Toolpath.Program.Basic
import Toolpath.Settings.Basic

/-! What is made of settings and a cut file: a program, or the box that it touches. -/
namespace Toolpath

def SettingsError.causes (e : SettingsError) : List String := [e.message]

/-- A setting out of its range is a cause of its own. -/
def CarveError.causes : CarveError Float → List String
  | .range e => [message (.range e), e.message]
  | e => [e.message]

namespace Settings

def jobOrFailure (s : Settings) : Except Failure (Job Float) :=
  Failure.during "Invalid job configuration" SettingsError.causes s.job

/-- The program that carves the cuts. -/
def programText (s : Settings) (f : CutFile) : Except Failure String := do
  let job ← s.jobOrFailure
  let o ← Failure.during "Invalid G-code settings" SettingsError.causes (s.options job)
  Failure.during "G-code generation failed" CarveError.causes (Toolpath.programText job o f.cuts)

/-- The box that the cuts touch, in native units. -/
def bounds (s : Settings) (f : CutFile) : Except Failure (Bounds Float) := do
  let job ← s.jobOrFailure
  Failure.during "Failed to measure cuts" CarveError.causes (Bounds.ofCuts job f.cuts)

end Settings
end Toolpath
