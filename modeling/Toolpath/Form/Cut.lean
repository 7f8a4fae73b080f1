import Toolpath.Cut.Basic
import Toolpath.Document.Decode

/-! Cut trees as document values, written with all their fields except absent options. -/
namespace Toolpath.Form

/-- A member that is left out when there is no value. -/
def member (key : String) (v : Option Value) : List (String × Value) := (v.map (key, ·)).toList

/-! ### Writing -/

def ofVec (v : Vec Float) : Value := .arr [.float v.x, .float v.y, .float v.z]

def ofPose : Pose Float → Value
  | .rows x x1 y y1 z z1 => .obj [
      ("xx", .float x.x), ("xy", .float x.y), ("xz", .float x.z), ("x1", .float x1),
      ("yx", .float y.x), ("yy", .float y.y), ("yz", .float y.z), ("y1", .float y1),
      ("zx", .float z.x), ("zy", .float z.y), ("zz", .float z.z), ("z1", .float z1)]
  | .position p => .obj ([("x", .float p.x), ("y", .float p.y)] ++ member "z" (p.z.map .float) ++
      member "rotation" (p.rotation.map .float) ++ member "scale" (p.scale.map .float))

def ofSense : Sense → Value
  | .clockwise => .str "clockwise"
  | .counterClockwise => .str "counter-clockwise"

def ofSegment : Segment → Value
  | .straight start finish =>
    .obj [("type", .str "straight"), ("start", .int start), ("end", .int finish)]
  | .arc start finish center sense => .obj [("type", .str "arc"), ("start", .int start),
      ("end", .int finish), ("axis", .int center), ("sense", ofSense sense)]

def ofPath (p : Path Float) : Value :=
  .obj [("vertices", .arr (p.vertices.map ofVec)), ("segments", .arr (p.segments.map ofSegment))]

def ofDepth : Depth Float → Value
  | .through => .str "Infinity"
  | .down d => .float d

def ofSide : Side → Value
  | .left => .str "left"
  | .right => .str "right"
  | .middle => .str "middle"

def ofComment (c : Option String) : List (String × Value) := member "comment" (c.map .str)

mutual
def ofCut : Cut Float → Value
  | .group poses components unit comment =>
    .obj ([("type", .str "Compound"), ("transforms", .arr (poses.map ofPose)),
      ("components", .arr (ofCuts components))] ++
      member "unit" (unit.map fun a => .str a.toString) ++ ofComment comment)
  | .trace path depth side comment =>
    .obj ([("type", .str "TracePath"), ("path", ofPath path), ("depth", ofDepth depth),
      ("spaceSide", ofSide side)] ++ ofComment comment)
  | .hole diameter depth comment =>
    .obj ([("type", .str "RoundHole"), ("diameter", .float diameter), ("depth", ofDepth depth)] ++
      ofComment comment)
  | .pocket p comment =>
    .obj ([("type", .str "ConicPocket"), ("diameter", .float p.diameter),
      ("edgeDepth", .float p.edgeDepth), ("bottomDiameter", .float p.bottomDiameter),
      ("bottomDepth", ofDepth p.bottomDepth), ("cutsBottom", .bool p.cutsBottom)] ++
      ofComment comment)
  | .pause comment => .obj ([("type", .str "Pause")] ++ ofComment comment)

def ofCuts : List (Cut Float) → List Value
  | [] => []
  | c :: r => ofCut c :: ofCuts r
end

/-! ### Reading -/
open Decode

def toVec : Decoder (Vec Float) := fun src v => do
  match ← tuple float 3 "a matrix array" src v with
  | [x, y, z] => .ok ⟨x, y, z⟩
  | other => .error (.invalidLength other.length "a matrix array")

def rows : Decoder (Pose Float) := record "struct MatrixTransform" 12 fun r =>
  let get (i : Nat) (key : String) : Part Float := r.field i key float
  let row (i : Nat) (a b c : String) : Part (Vec Float) :=
    Vec.mk <$> get i a <*> get (i + 1) b <*> get (i + 2) c
  Pose.rows <$> row 0 "xx" "xy" "xz" <*> get 3 "x1" <*> row 4 "yx" "yy" "yz" <*> get 7 "y1" <*>
    row 8 "zx" "zy" "zz" <*> get 11 "z1"

def position : Decoder (Pose Float) := record "struct SimpleTransform" 5 fun r =>
  let get? (i : Nat) (key : String) : Part (Option Float) :=
    r.field i key (option float) (some none)
  (fun x y z rotation scale => Pose.position ⟨x, y, z, rotation, scale⟩) <$>
    r.field 0 "x" float <*> r.field 1 "y" float <*> get? 2 "z" <*> get? 3 "rotation" <*>
    get? 4 "scale"

/-- Rows where all of them are given, or else a position. -/
def toPose : Decoder (Pose Float) := fun src v =>
  if src.admits v then
    match rows .whole v with
    | .ok p => .ok p
    | .error _ => match position .whole v with
      | .ok p => .ok p
      | .error _ => .error (.noVariant "Transformish")
  else .error .malformed

def toSense : Decoder Sense :=
  choice [("clockwise", .clockwise), ("counter-clockwise", .counterClockwise)]

def toSegment : Decoder Segment := tagged "type" "internally tagged enum PathSegment" [
  ("straight", record "struct variant PathSegment::Straight" 2 fun r =>
    Segment.straight <$> r.field 0 "start" index <*> r.field 1 "end" index),
  ("arc", record "struct variant PathSegment::Arc" 4 fun r =>
    Segment.arc <$> r.field 0 "start" index <*> r.field 1 "end" index <*>
      r.field 2 "axis" index <*> r.field 3 "sense" toSense)]

def toPath : Decoder (Path Float) := record "struct Path" 2 fun r =>
  Path.mk <$> r.field 0 "vertices" (list toVec) <*> r.field 1 "segments" (list toSegment)

/-- A number, or one of three words for all the stock that is left. -/
def toDepth : Decoder (Depth Float) := fun src v =>
  if src.admits v then
    match v with
    | .str s =>
      if s = "Infinity" ∨ s = "inf" ∨ s = "through" then .ok .through
      else .error (.unknownDepth s)
    | v => match float .whole v with
      | .ok d => .ok (.down d)
      | .error _ => .error (.noVariant "DepthRepr")
  else .error .malformed

def toSide : Decoder Side :=
  choice [("left", .left), ("right", .right), ("middle", .middle)]

def commentField (r : Record) (i : Nat) : Part (Option String) :=
  r.field i "comment" (option string) (some none)

def toPocket (r : Record) : Part (Pocket Float) :=
  Pocket.mk <$> r.field 0 "diameter" float <*> r.field 1 "edgeDepth" float (some 0) <*>
    r.field 2 "bottomDiameter" float <*> r.field 3 "bottomDepth" toDepth <*>
    r.field 4 "cutsBottom" bool (some false)

/-- Reads trees nested at most `fuel` deep. -/
def cutWithin : (fuel : Nat) → Decoder (Cut Float)
  | 0 => fun _ _ => .error .malformed
  | fuel + 1 => tagged "type" "internally tagged enum Cut" [
    ("Compound", record "struct Compound" 4 fun r =>
      Cut.group <$> r.field 0 "transforms" (list toPose) (some [.identity]) <*>
        r.field 1 "components" (list (cutWithin fuel)) <*>
        r.field 2 "unit" (option amount) (some none) <*> commentField r 3),
    ("TracePath", record "struct TracePath" 4 fun r =>
      Cut.trace <$> r.field 0 "path" toPath <*> r.field 1 "depth" toDepth (some (.down 0)) <*>
        r.field 2 "spaceSide" toSide (some .middle) <*> commentField r 3),
    ("RoundHole", record "struct RoundHole" 3 fun r =>
      Cut.hole <$> r.field 0 "diameter" float <*> r.field 1 "depth" toDepth (some (.down 0)) <*>
        commentField r 2),
    ("ConicPocket", record "struct ConicPocket" 6 fun r =>
      Cut.pocket <$> toPocket r <*> commentField r 5),
    ("Pause", record "struct Pause" 1 fun r => Cut.pause <$> commentField r 0)]

def toCut : Decoder (Cut Float) := fun src v => cutWithin (v.depth + 1) src v

end Toolpath.Form
