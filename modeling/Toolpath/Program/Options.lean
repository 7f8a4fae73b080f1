import Toolpath.Job.Error

/-! Machine and text settings, lengths being in native units. -/
namespace Toolpath
open Scalar

inductive CommentMode where
  /-- Comments are dropped. -/
  | none
  | parentheses
  | semicolon
  deriving Repr, DecidableEq, Inhabited

def CommentMode.all : List (String × CommentMode) :=
  [("none", .none), ("parentheses", .parentheses), ("semicolon", .semicolon)]

def CommentMode.toString : CommentMode → String
  | .none => "none"
  | .parentheses => "parentheses"
  | .semicolon => "semicolon"

/-- Rapid travel is at `safeHeight`, and rapid plunges end at `minimumFastZ`. -/
structure Options (α : Type) where
  safeHeight : α
  minimumFastZ : α
  /-- The deepest single pass. -/
  stepDown : α
  feedRate : α
  spindleSpeed : α
  fractionDigits : Nat
  commentMode : CommentMode
  deriving Repr, Inhabited

namespace Options
variable {α : Type} [Scalar α]

def standard : Options α where
  safeHeight := ofRatio 1 4
  minimumFastZ := ofRatio 1 16
  stepDown := ofRatio 1 50
  feedRate := ofInt 3
  spindleSpeed := ofInt 1000
  fractionDigits := 4
  commentMode := .parentheses

def checkPositive (name : String) (value : α) : Except (RangeError α) Unit :=
  if isFinite value && decide (0 < value) then .ok () else .error (.notPositive name value)

/-- Whether all settings are in range; else the first that is not. -/
def check (o : Options α) : Except (RangeError α) Unit := do
  checkPositive "step_down" o.stepDown
  checkPositive "feed_rate" o.feedRate
  checkPositive "spindle_speed" o.spindleSpeed
  if !(isFinite o.safeHeight && isFinite o.minimumFastZ) then throw .heightNotFinite
  if o.safeHeight < o.minimumFastZ then throw (.fastAboveSafe o.minimumFastZ o.safeHeight)
  if 10 < o.fractionDigits then throw (.tooManyDigits o.fractionDigits)

end Options
end Toolpath
