import Toolpath.Measure.Unit

/-! Lengths that are sums over several units, kept exact until they are decoded. -/
namespace Toolpath

/-- At most one exact value for each unit. -/
structure Amount where
  board : Option Ratio := none
  inch : Option Ratio := none
  millimeter : Option Ratio := none
  deriving Repr, DecidableEq, Inhabited

namespace Amount

def get? (a : Amount) : UnitName → Option Ratio
  | .board => a.board
  | .inch => a.inch
  | .millimeter => a.millimeter

def set (a : Amount) (u : UnitName) (value : Ratio) : Amount :=
  match u with
  | .board => { a with board := some value }
  | .inch => { a with inch := some value }
  | .millimeter => { a with millimeter := some value }

def single (u : UnitName) (value : Ratio) : Amount := ({} : Amount).set u value

/-- An amount of the unit that answers to a name. -/
def new (name : String) (value : Ratio) : Except MeasureError Amount :=
  match UnitName.ofAlias? name with
  | some u => .ok (single u value)
  | none => .error (.unknownUnit name)

/-- The terms in the order of the units. -/
def terms (a : Amount) : List (UnitName × Ratio) :=
  UnitName.all.filterMap fun u => (a.get? u).map (u, ·)

def isEmpty (a : Amount) : Bool := a.terms.isEmpty

def usesBoard (a : Amount) : Bool := a.board.isSome

/-- Adds one term, merging it with the term of its unit. -/
def addTerm (a : Amount) (u : UnitName) (value : Ratio) : Except MeasureError Amount :=
  match a.get? u with
  | some old => do return a.set u (← old.add value)
  | none => .ok (a.set u value)

def add (a b : Amount) : Except MeasureError Amount :=
  b.terms.foldlM (fun sum (u, value) => sum.addTerm u value) a

/-- Multiplies every term. -/
def scale (a : Amount) (s : Ratio) : Except MeasureError Amount :=
  if s.isOne then .ok a
  else a.terms.foldlM (fun scaled (u, value) => do return scaled.set u (← value.mul s)) {}

/-- One term in the native unit. A term that is written in that unit is taken as it is. -/
def decodeTerm (native : LengthUnit) (table : UnitTable) (u : UnitName) (value : Ratio) :
    Except MeasureError Ratio :=
  if u = native.name then .ok value
  else match table.millimeters? u with
    | some mm => do (← value.mul mm).div native.millimeters
    | none => .error (.unknownUnit u.toString)

/-- The exact value in the native unit. -/
def decode (a : Amount) (native : LengthUnit) (table : UnitTable) : Except MeasureError Ratio :=
  a.terms.foldlM (fun total (u, value) => do total.add (← decodeTerm native table u value)) 0

/-- Terms joined by `+`, each a fraction and the short name of its unit. -/
def toString (a : Amount) : String :=
  String.intercalate "+" (a.terms.map fun (u, value) => value.toString ++ u.abbreviation)

instance : ToString Amount := ⟨toString⟩

end Amount
end Toolpath
