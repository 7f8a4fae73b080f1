import Toolpath.Geometry.Vec
import Toolpath.Job.Error

/-! What a router is told to do. -/
namespace Toolpath

/-- Which way a path is followed. -/
inductive Direction where
  | forward | reverse
  deriving Repr, DecidableEq, Inhabited

namespace Direction

def sign : Direction → Int
  | .forward => 1
  | .reverse => -1

def reversed : Direction → Direction
  | .forward => .reverse
  | .reverse => .forward

def toString : Direction → String
  | .forward => "Forward"
  | .reverse => "Reverse"

end Direction

/-- What the router is doing. -/
inductive Phase where
  | atSafeHeight
  | plunging
  | cutting (direction : Direction) (pass : Nat)
  | retracting
  deriving Repr, DecidableEq, Inhabited

def Phase.toString : Phase → String
  | .atSafeHeight => "at safe height"
  | .plunging => "plunging"
  | .cutting direction pass => "cutting pass " ++ Nat.repr pass ++ " " ++ direction.toString
  | .retracting => "retracting"

/-- The axes that a straight move sets. -/
structure Target (α : Type) where
  x : Option α := none
  y : Option α := none
  z : Option α := none
  deriving Repr, Inhabited

/-- A comment, its numbers still being numbers. -/
inductive Remark (α : Type) where
  | text (s : String)
  | stepDown (z : α)
  | pecked (diameter : α) (unit : UnitName)
  | circled (diameter : α) (unit : UnitName)
  deriving Repr, Inhabited

inductive Command (α : Type) where
  | absolute
  | system (s : MeasurementSystem)
  | feedRate (rate : α)
  | spindleSpeed (speed : α)
  | spindleOn
  | spindleOff
  | pause
  | blank
  | remark (r : Remark α)
  | rapid (t : Target α)
  | feed (t : Target α)
  /-- An arc in the XY plane from where the tool is. -/
  | arc (counterClockwise : Bool) (finish center : Vec α)
  /-- The phase of the router from here on; it has no text. -/
  | enter (p : Phase)
  deriving Repr, Inhabited

/-- The commands issued before a result, or before an error. -/
structure Block (α β : Type) where
  commands : List (Command α)
  result : Except (CarveError α) β

namespace Block
variable {α β γ : Type}

def issue (commands : List (Command α)) : Block α Unit := ⟨commands, .ok ()⟩

def fail (e : CarveError α) : Block α β := ⟨[], .error e⟩

/-- The second block follows unless the first one fails. -/
def andThen (b : Block α β) (next : β → Block α γ) : Block α γ :=
  match b.result with
  | .ok x => ⟨b.commands ++ (next x).commands, (next x).result⟩
  | .error e => ⟨b.commands, .error e⟩

instance : Monad (Block α) where
  pure x := ⟨[], .ok x⟩
  bind := andThen

end Block
end Toolpath
