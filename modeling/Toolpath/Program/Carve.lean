import Toolpath.Outline.Shapes
import Toolpath.Plan.Pocket
import Toolpath.Plan.StepDown
import Toolpath.Program.Command
import Toolpath.Program.Options
import Toolpath.Traversal.Basic

/-!
The commands that carve a leaf. Paths are followed in passes, each of them back where the one before
ended unless it closed; narrow holes are pecked and wide ones milled; pockets are rings.
-/
namespace Toolpath
open Scalar

variable {α : Type} [Scalar α]

namespace Carve

def feedXY (p : Vec α) : Command α := .feed { x := some p.x, y := some p.y }

def feedZ (z : α) : Command α := .feed { z := some z }

def rapidXY (p : Vec α) : Command α := .rapid { x := some p.x, y := some p.y }

def rapidZ (z : α) : Command α := .rapid { z := some z }

def toSafeHeight (o : Options α) : List (Command α) :=
  [.enter .retracting, rapidZ o.safeHeight, .enter .atSafeHeight]

/-- Above a point at the safe height, down in rapid motion as far as that is allowed, and the rest
of the way at feed rate. -/
def approach (o : Options α) (p : Vec α) : List (Command α) :=
  let fast := greater o.minimumFastZ p.z
  toSafeHeight o ++ [rapidXY p, .enter .plunging, rapidZ fast] ++
    if fast == p.z then [] else [feedZ p.z]

/-- Whether an arc turns counter-clockwise for the machine: its sense, reversed when it is followed
backward and when the placement mirrors. -/
def turnsLeft (f : Frame α) (sense : Sense) (d : Direction) : Bool :=
  0 < sense.sign * d.sign * if f.placement.isMirroring then -1 else 1

/-- One segment from where the tool is; the result is its far end. -/
def segment (f : Frame α) (p : Path α) (d : Direction) (index : Nat) (s : Segment) :
    Block α (Vec α) := do
  let far := match d with
    | .forward => s.finish
    | .reverse => s.start
  match p.vertices[far]? with
  | none => .fail (.missingVertex index far)
  | some v =>
    match s with
    | .straight _ _ => .issue [feedXY (f.place v)]
    | .arc _ _ c sense =>
      match p.vertices[c]? with
      | none => .fail (.missingCenter index c)
      | some center => .issue [.arc (turnsLeft f sense d) (f.place v) (f.place center)]
    return f.place v

/-- Segments one after another; the result is where the tool then is. -/
def segments (f : Frame α) (p : Path α) (d : Direction) :
    List (Segment × Nat) → (position : Vec α) → Block α (Vec α)
  | [], position => pure position
  | (s, index) :: rest, position => do
    let far ← segment f p d index s
    segments f p d rest { position with x := far.x, y := far.y }

/-- All segments of a path in the order of a direction. -/
def pass (f : Frame α) (p : Path α) (d : Direction) (position : Vec α) : Block α (Vec α) :=
  match d with
  | .forward => segments f p d p.segments.zipIdx position
  | .reverse => segments f p d p.segments.zipIdx.reverse position

/-- Passes at the given heights. One that does not end where it began turns the direction. -/
def passes (f : Frame α) (p : Path α) :
    (heights : List α) → (number : Nat) → Direction → (position : Vec α) → Block α Unit
  | [], _, _, _ => pure ()
  | z :: rest, number, d, position => do
    let start := { position with z }
    Block.issue [.enter .plunging, .remark (.stepDown z), feedZ z, .enter (.cutting d number)]
    let finish ← pass f p d start
    passes f p rest (number + 1) (if finish == start then d else d.reversed) finish

/-- Follows a path down to the depth of its frame. -/
def path (o : Options α) (f : Frame α) (p : Path α) : Block α Unit :=
  match p.start? with
  | none => pure ()
  | some v =>
    let start := f.place v
    let heights := (Descent.mk start.z (f.bottom v) o.stepDown).passes
    if heights.isEmpty then pure ()
    else do
      Block.issue (approach o start)
      passes f p heights 0 .forward start
      Block.issue (toSafeHeight o)

/-- Drills in strokes at the local origin. -/
def peck (o : Options α) (f : Frame α) : Block α Unit :=
  let center := f.place .zero
  let target := f.bottom .zero
  if center.z ≤ target then pure ()
  else
    let strokes := (Descent.mk center.z target o.stepDown).strokes.flatMap fun s =>
      feedZ s.plunge :: (s.retract.map feedZ).toList
    Block.issue (approach o center ++ strokes ++ toSafeHeight o)

/-- A hole no wider than the tip is pecked. A wider one is milled on a circle whose outer edge is
the hole. -/
def hole (o : Options α) (f : Frame α) (diameter : α) : Block α Unit :=
  let tip := f.job.bit.tipWidth
  let wide := f.length diameter
  let unit := f.job.native.name
  if wide - tip ≤ 0 then do
    Block.issue [.remark (.pecked wide unit)]
    peck o f
  else do
    Block.issue [.remark (.circled wide unit)]
    path o f (Path.circle ((wide - tip) / two / f.placement.lengthScale))

/-- The bottom of a pocket, no deeper than the stock. -/
def pocketDepth (f : Frame α) (most : α) : Depth α → α
  | .through => most
  | .down d => lesser (f.depth d) most

/-- The rings of a pocket about a center on the surface. -/
def rings (o : Options α) (f : Frame α) (center : Vec α) :
    (number : Nat) → List (Ring α) → List (Command α)
  | _, [] => []
  | number, r :: rest =>
    let z := f.aboveFloor (center.z - r.depth)
    let start : Vec α := ⟨center.x, center.y - r.radius, z⟩
    let entry := if number = 0 then approach o start
      else [.enter .plunging, feedXY start, feedZ z]
    entry ++ [.enter (.cutting .forward number), .arc true start center] ++
      rings o f center (number + 1) rest

def pocket (o : Options α) (f : Frame α) (p : Pocket α) : Block α Unit :=
  if p.cutsBottom then .fail .flatBottom
  else
    let center := f.place .zero
    let most := center.z - f.job.floor
    if most ≤ 0 then pure ()
    else
      let plan := PocketPlan.new (f.length p.diameter / two) (f.length p.bottomDiameter / two)
        (lesser (f.depth p.edgeDepth) most) (pocketDepth f most p.bottomDepth)
        (ringStep f.job.bit.tipWidth)
      match plan with
      | .error e => .fail (.range e)
      | .ok plan => .issue (rings o f center 0 plan.rings ++ toSafeHeight o)

/-- Before the first cut: the modes of the program, with the tool at the safe height. -/
def setup (o : Options α) (job : Job α) : Block α Unit :=
  match job.system with
  | .error e => .fail e
  | .ok system => .issue <|
    [.absolute, .system system, .feedRate o.feedRate, .spindleSpeed o.spindleSpeed, .spindleOn] ++
      toSafeHeight o ++ [.blank]

/-- After the last cut. -/
def shutdown (o : Options α) : List (Command α) :=
  [.blank, .remark (.text "Job done!")] ++ toSafeHeight o ++ [.spindleOff]

end Carve
end Toolpath
