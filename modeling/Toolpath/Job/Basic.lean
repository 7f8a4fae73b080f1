import Toolpath.Job.Bit
import Toolpath.Job.Error
import Toolpath.Measure.Amount

/-! What is fixed for one run: the native unit, the stock and the bit. -/
namespace Toolpath

/-- The thickness of the stock is in native units, and boards of it are known to `units`. -/
structure Job (α : Type) where
  native : LengthUnit
  units : UnitTable
  thickness : Ratio
  bit : Bit α
  deriving Repr, Inhabited

namespace Job
variable {α : Type}

/-- A job on stock of a positive thickness, which cannot itself be measured in boards. -/
def new (native : String) (thickness : Amount) (bit : Bit α) : Except (CarveError α) (Job α) := do
  let native ← CarveError.ofMeasure (UnitTable.standard.get native)
  if thickness.isEmpty then throw .thicknessMissing
  if thickness.usesBoard then throw .thicknessInBoards
  let t ← CarveError.ofMeasure (thickness.decode native .standard)
  if !t.isPositive then throw (.thicknessNotPositive t)
  let millimeters ← CarveError.ofMeasure (t.mul native.millimeters)
  return ⟨native, UnitTable.standard.withBoard millimeters, t, bit⟩

def withBit (j : Job α) (bit : Bit α) : Job α := { j with bit }

/-- The bottom face of the stock, below which nothing is cut. -/
def floor [Scalar α] (j : Job α) : α := -j.thickness.toScalar

def system (j : Job α) : Except (CarveError α) MeasurementSystem :=
  match j.native.name.system? with
  | some s => .ok s
  | none => .error (.noSystem j.native.name)

/-- The exact length of the named unit in native units. -/
def unitValue (j : Job α) (name : String) : Except MeasureError Ratio := do
  (← j.units.get name).millimeters.div j.native.millimeters

/-- The exact value of an amount in native units. -/
def decode (j : Job α) (a : Amount) : Except MeasureError Ratio := a.decode j.native j.units

end Job
end Toolpath
