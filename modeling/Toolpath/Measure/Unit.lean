import Toolpath.Measure.Ratio

/-! Units of length and the tables that amounts are decoded against. -/
namespace Toolpath

/-- A unit of length. One board is the thickness of the stock, so its size varies with the job. -/
inductive UnitName where
  | board | inch | millimeter
  deriving Repr, DecidableEq, Inhabited

/-- The two systems that a program can be written in. -/
inductive MeasurementSystem where
  | metric | imperial
  deriving Repr, DecidableEq

def MeasurementSystem.toString : MeasurementSystem → String
  | .metric => "Metric"
  | .imperial => "Imperial"

/-- The word that selects the system for all that follows it. -/
def MeasurementSystem.word : MeasurementSystem → String
  | .metric => "G21"
  | .imperial => "G20"

namespace UnitName

/-- In the order in which amounts are written. -/
def all : List UnitName := [.board, .inch, .millimeter]

def toString : UnitName → String
  | .board => "board"
  | .inch => "inch"
  | .millimeter => "millimeter"

def abbreviation : UnitName → String
  | .board => "board"
  | .inch => "in"
  | .millimeter => "mm"

/-- Every name that the unit answers to. -/
def aliases : UnitName → List String
  | .board => ["board", "boards"]
  | .inch => ["inch", "in", "\"", "inches"]
  | .millimeter => ["millimeter", "mm", "millimeters"]

/-- The unit that answers to a name. -/
def ofAlias? (name : String) : Option UnitName := all.find? fun u => u.aliases.contains name

def system? : UnitName → Option MeasurementSystem
  | .board => none
  | .inch => some .imperial
  | .millimeter => some .metric

end UnitName

/-- A unit and its exact length. -/
structure LengthUnit where
  name : UnitName
  millimeters : Ratio
  deriving Repr, DecidableEq, Inhabited

/-- The units known to a job: inch, millimeter and, where the stock is known, the board. -/
structure UnitTable where
  board : Option Ratio := none
  deriving Repr, DecidableEq, Inhabited

namespace UnitTable

def standard : UnitTable := {}

/-- The table with boards of a thickness in millimeters, in place of any that it had. -/
def withBoard (_ : UnitTable) (thickness : Ratio) : UnitTable := ⟨some thickness⟩

/-- How many millimeters one unit measures. -/
def millimeters? (t : UnitTable) : UnitName → Option Ratio
  | .board => t.board
  | .inch => some ⟨127, 5⟩
  | .millimeter => some 1

def unit? (t : UnitTable) (u : UnitName) : Option LengthUnit := (t.millimeters? u).map (⟨u, ·⟩)

/-- The unit of the table that answers to a name. -/
def find? (t : UnitTable) (name : String) : Option LengthUnit :=
  UnitName.ofAlias? name >>= t.unit?

def get (t : UnitTable) (name : String) : Except MeasureError LengthUnit :=
  match t.find? name with
  | some u => .ok u
  | none => .error (.unknownUnit name)

end UnitTable
end Toolpath
