import Toolpath.Job.Basic
import Toolpath.Program.Options
import Toolpath.Settings.Error

/-!
The settings of a job as they are authored, lengths still being amounts. A setting that is not
given has its usual value; only the thickness of the stock must be given.
-/
namespace Toolpath

structure StockSettings where
  name : Option String := none
  /-- The unit that the machine works in. -/
  nativeUnit : String := "inch"
  thickness : Option Amount := none
  deriving Repr, BEq, Inhabited

inductive BitKind where
  | flat | vee
  deriving Repr, BEq, DecidableEq, Inhabited

/-- The bit. A flat one is given by its diameter, a tapered one by its angle and, unless it is
pointed, its tip. -/
structure BitSettings where
  name : Option String := none
  kind : BitKind := .flat
  diameter : Option Amount := some (.single .inch ⟨1, 8⟩)
  angle : Option Float := none
  tipDiameter : Option Amount := none
  deriving Repr, BEq, Inhabited

structure ProgramSettings where
  safeHeight : Amount := .single .inch ⟨1, 4⟩
  minimumFastZ : Amount := .single .inch ⟨1, 16⟩
  stepDown : Amount := .single .inch ⟨1, 50⟩
  feedRate : Float := 3
  spindleSpeed : Float := 1000
  fractionDigits : Nat := 4
  commentMode : CommentMode := .parentheses
  deriving Repr, BEq, Inhabited

structure Settings where
  stock : StockSettings := {}
  bit : BitSettings := {}
  program : ProgramSettings := {}
  deriving Repr, BEq, Inhabited

/-! ### What settings must satisfy by themselves -/

def StockSettings.check (s : StockSettings) : Except SettingsError Unit := do
  let _ ← SettingsError.ofMeasure (UnitTable.standard.get s.nativeUnit)
  match s.thickness with
  | none => throw .thicknessMissing
  | some t =>
    if t.isEmpty then throw .thicknessMissing
    if t.usesBoard then throw .thicknessInBoards

def BitSettings.check (b : BitSettings) : Except SettingsError Unit :=
  match b.kind with
  | .flat => if b.diameter.isSome then .ok () else .error .diameterMissing
  | .vee =>
    match b.angle with
    | some a => if 0 < a ∧ a < 180 then .ok () else .error (.angleOutOfRange a)
    | none => .error .angleMissing

def ProgramSettings.check (p : ProgramSettings) : Except SettingsError Unit := do
  if ¬ 0 < p.feedRate then throw .feedRateNotPositive
  if ¬ 0 < p.spindleSpeed then throw .spindleSpeedNotPositive

def Settings.check (s : Settings) : Except SettingsError Unit := do
  s.stock.check
  s.bit.check
  s.program.check

/-! ### What they stand for in the native unit -/

/-- The binary value of an amount on a job. -/
def Job.measure (j : Job Float) (a : Amount) : Except SettingsError Float :=
  Ratio.toScalar <$> SettingsError.ofMeasure (j.decode a)

def BitSettings.measure (b : BitSettings) (j : Job Float) : Except SettingsError (Bit Float) := do
  let bit ← match b.kind with
    | .flat =>
      match b.diameter with
      | some d => Bit.flat <$> j.measure d
      | none => throw .diameterMissing
    | .vee =>
      match b.angle with
      | some a => Bit.vee a <$> match b.tipDiameter with
        | some tip => j.measure tip
        | none => pure 0
      | none => throw .angleMissing
  return { bit with name := b.name.getD bit.name }

/-- The job. The bit may be sized in boards, so the stock comes first. -/
def Settings.job (s : Settings) : Except SettingsError (Job Float) := do
  match s.stock.thickness with
  | none => throw .thicknessMissing
  | some thickness =>
    let stock ← SettingsError.ofJob (Job.new s.stock.nativeUnit thickness (.flat 0))
    let bit ← s.bit.measure stock
    if !bit.isUsable then throw (.bitUnusable bit.name)
    return stock.withBit bit

def ProgramSettings.measure (p : ProgramSettings) (j : Job Float) :
    Except SettingsError (Options Float) := do
  return {
    safeHeight := ← j.measure p.safeHeight
    minimumFastZ := ← j.measure p.minimumFastZ
    stepDown := ← j.measure p.stepDown
    feedRate := p.feedRate
    spindleSpeed := p.spindleSpeed
    fractionDigits := p.fractionDigits
    commentMode := p.commentMode }

/-- The options of the program, which are in range. -/
def Settings.options (s : Settings) (j : Job Float) : Except SettingsError (Options Float) := do
  let o ← s.program.measure j
  SettingsError.ofRange o.check
  return o

end Toolpath
