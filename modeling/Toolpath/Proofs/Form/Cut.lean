import Toolpath.CutFile
import Toolpath.Proofs.Form.Reads
import Toolpath.Proofs.Form.Settings

/-!
The document values of cut files read back. No part is read as another kind of it, and what is left
out is what is usual.
-/
namespace Toolpath

/-! ### What a cut file holds -/

def Depth.numbers : Depth Float → List Float
  | .through => []
  | .down d => [d]

def Pose.numbers : Pose Float → List Float
  | .rows x x1 y y1 z z1 => [x.x, x.y, x.z, x1, y.x, y.y, y.z, y1, z.x, z.y, z.z, z1]
  | .position p => [p.x, p.y] ++ p.z.toList ++ p.rotation.toList ++ p.scale.toList

def Path.numbers (p : Path Float) : List Float := p.vertices.flatMap fun v => [v.x, v.y, v.z]

namespace Cut

mutual
/-- All binary numbers of a cut. A depth through all that is left is none. -/
def numbers : Cut Float → List Float
  | .group poses components _ _ => poses.flatMap Pose.numbers ++ numbersAll components
  | .trace path depth _ _ => path.numbers ++ depth.numbers
  | .hole diameter depth _ => diameter :: depth.numbers
  | .pocket p _ => [p.diameter, p.edgeDepth, p.bottomDiameter] ++ p.bottomDepth.numbers
  | .pause _ => []

def numbersAll : List (Cut Float) → List Float
  | [] => []
  | c :: r => c.numbers ++ numbersAll r
end

mutual
/-- The units that groups declare. -/
def declared : Cut Float → List Amount
  | .group _ components unit _ => unit.toList ++ declaredAll components
  | _ => []

def declaredAll : List (Cut Float) → List Amount
  | [] => []
  | c :: r => c.declared ++ declaredAll r
end

end Cut

/-- A file of which everything can be read again. -/
structure CutFile.Readable (f : CutFile) : Prop where
  numbers : ∀ x ∈ Cut.numbersAll f.cuts, x.isFinite = true
  declared : ∀ a ∈ Cut.declaredAll f.cuts, a.Readable

instance (f : CutFile) : Decidable f.Readable :=
  decidable_of_iff
    ((∀ x ∈ Cut.numbersAll f.cuts, x.isFinite = true) ∧ ∀ a ∈ Cut.declaredAll f.cuts, a.Readable)
    ⟨fun ⟨h, h'⟩ => ⟨h, h'⟩, fun h => ⟨h.numbers, h.declared⟩⟩

namespace Form
open Decode

theorem reads_amount {a : Amount} (h : a.Readable) : amount.Reads (.str a.toString) a :=
  ⟨rfl, fun _ _ => amount_ofAmount h⟩

theorem supplies_comment (c : Option String) :
    (option string).Supplies (some none) (c.map .str) c :=
  supplies_option (fun s _ => reads_string s) nofun

/-! ### Points, poses and depths -/

theorem reads_vec {v : Vec Float} (h : ∀ x ∈ [v.x, v.y, v.z], x.isFinite = true) :
    toVec.Reads (ofVec v) v := by
  have htuple := reads_tuple (fun x hx => reads_float (h x hx)) "a matrix array"
  refine ⟨htuple.sound, fun src hadmits => ?_⟩
  have hread : tuple Decode.float 3 "a matrix array" src (ofVec v) = .ok [v.x, v.y, v.z] :=
    htuple.eq_ok src hadmits
  rw [toVec, hread]
  rfl

def rowsFields (x : Vec Float) (x1 : Float) (y : Vec Float) (y1 : Float) (z : Vec Float)
    (z1 : Float) : List (String × Option Value) :=
  [("xx", some (.float x.x)), ("xy", some (.float x.y)), ("xz", some (.float x.z)),
    ("x1", some (.float x1)), ("yx", some (.float y.x)), ("yy", some (.float y.y)),
    ("yz", some (.float y.z)), ("y1", some (.float y1)), ("zx", some (.float z.x)),
    ("zy", some (.float z.y)), ("zz", some (.float z.z)), ("z1", some (.float z1))]

def positionFields (p : Position Float) : List (String × Option Value) :=
  [("x", some (.float p.x)), ("y", some (.float p.y)), ("z", p.z.map .float),
    ("rotation", p.rotation.map .float), ("scale", p.scale.map .float)]

theorem ofPose_position (p : Position Float) :
    ofPose (.position p) = .obj (written (positionFields p)) := by
  simp [ofPose, positionFields, written, member]

theorem exists_number_of_mem_rowsFields {x y z : Vec Float} {x1 y1 z1 : Float} :
    ∀ e ∈ rowsFields x x1 y y1 z z1, ∃ q ∈ (Pose.rows x x1 y y1 z z1).numbers,
      e.2 = some (.float q) := by
  simp [rowsFields, Pose.numbers]

theorem reads_rows {x y z : Vec Float} {x1 y1 z1 : Float}
    (h : ∀ q ∈ (Pose.rows x x1 y y1 z z1).numbers, q.isFinite = true) :
    rows.Reads (ofPose (.rows x x1 y y1 z z1)) (.rows x x1 y y1 z z1) := by
  have hkeys : ((rowsFields x x1 y y1 z z1).map (·.1)).Nodup :=
    (by decide : ["xx", "xy", "xz", "x1", "yx", "yy", "yz", "y1", "zx", "zy", "zz", "z1"].Nodup)
  refine reads_record hkeys (fun e he v hv => ?_) fun r hr => ?_
  · obtain ⟨q, hq, heq⟩ := exists_number_of_mem_rowsFields e he
    obtain rfl := Option.some.inj (heq ▸ hv)
    exact h q hq
  · have hget {key : String} {q : Float} (i : Nat)
        (hi : (rowsFields x x1 y y1 z z1)[i]? = some (key, some (.float q))) :
        r.field i key Decode.float = .ok q := by
      obtain ⟨q', hq, heq⟩ := exists_number_of_mem_rowsFields _ (List.mem_of_getElem? hi)
      obtain rfl : q = q' := by simpa using heq
      exact hr i hi (.written (reads_float (h q hq)))
    dsimp only
    rw [hget 0 rfl, hget 1 rfl, hget 2 rfl, hget 3 rfl, hget 4 rfl, hget 5 rfl, hget 6 rfl,
      hget 7 rfl, hget 8 rfl, hget 9 rfl, hget 10 rfl, hget 11 rfl]
    rfl

theorem reads_position {p : Position Float}
    (h : ∀ q ∈ (Pose.position p).numbers, q.isFinite = true) :
    position.Reads (ofPose (.position p)) (.position p) := by
  have hkeys : ((positionFields p).map (·.1)).Nodup :=
    (by decide : ["x", "y", "z", "rotation", "scale"].Nodup)
  have hx : Decode.float.Supplies none (some (.float p.x)) p.x :=
    .written (reads_float (h _ (by simp [Pose.numbers])))
  have hy : Decode.float.Supplies none (some (.float p.y)) p.y :=
    .written (reads_float (h _ (by simp [Pose.numbers])))
  have hoption {o : Option Float} (ho : ∀ q ∈ o, q ∈ (Pose.position p).numbers) :
      (option Decode.float).Supplies (some none) (o.map .float) o :=
    supplies_option (fun q hq => reads_float (h q (ho q hq))) nofun
  have hz := hoption (o := p.z) fun q hq => by simp [Pose.numbers, Option.mem_def.mp hq]
  have hrotation := hoption (o := p.rotation) fun q hq => by
    simp [Pose.numbers, Option.mem_def.mp hq]
  have hscale := hoption (o := p.scale) fun q hq => by simp [Pose.numbers, Option.mem_def.mp hq]
  rw [ofPose_position]
  refine reads_record hkeys ?_ fun r hr => ?_
  · simp only [positionFields, List.forall_mem_cons]
    exact ⟨hx.sound, hy.sound, hz.sound, hrotation.sound, hscale.sound, nofun⟩
  · dsimp only
    rw [hr 0 rfl hx, hr 1 rfl hy, hr 2 rfl hz, hr 3 rfl hrotation, hr 4 rfl hscale]
    rfl

/-- A position has no rows. -/
theorem rows_position (p : Position Float) :
    ∃ e, rows .whole (ofPose (.position p)) = .error e := by
  rw [ofPose_position]
  refine record_fails rfl fun r hr => ?_
  have hxx : Fails (r.field 0 "xx" Decode.float) := by
    refine fails_field hr (fun e he => ?_) 0 Decode.float
    have hkey := List.mem_map_of_mem (f := Prod.fst) (mem_written.mp he)
    rintro heq
    rw [heq] at hkey
    exact absurd hkey (by decide : "xx" ∉ ["x", "y", "z", "rotation", "scale"])
  have hrow : Fails (Vec.mk <$> r.field 0 "xx" Decode.float <*> r.field 1 "xy" Decode.float <*>
      r.field 2 "xz" Decode.float) := ((hxx.map Vec.mk).seq_left _).seq_left _
  exact (((((hrow.map Pose.rows).seq_left _).seq_left _).seq_left _).seq_left _).seq_left _

theorem reads_pose {pose : Pose Float} (h : ∀ q ∈ pose.numbers, q.isFinite = true) :
    toPose.Reads (ofPose pose) pose := by
  cases pose with
  | rows x x1 y y1 z z1 =>
    have hrows := reads_rows h
    refine ⟨hrows.sound, fun src hadmits => ?_⟩
    rw [toPose, if_pos hadmits, hrows.eq_ok .whole rfl]
  | position p =>
    have hposition := reads_position h
    obtain ⟨e, he⟩ := rows_position p
    refine ⟨hposition.sound, fun src hadmits => ?_⟩
    rw [toPose, if_pos hadmits, he, hposition.eq_ok .whole rfl]

theorem reads_depth {depth : Depth Float} (h : ∀ q ∈ depth.numbers, q.isFinite = true) :
    toDepth.Reads (ofDepth depth) depth := by
  cases depth with
  | through => exact ⟨rfl, fun src hadmits => (if_pos hadmits).trans rfl⟩
  | down d =>
    have hfinite := h d (List.mem_singleton.mpr rfl)
    have hread : Decode.float .whole (.float d) = .ok d := (reads_float hfinite).eq_ok .whole rfl
    refine ⟨hfinite, fun src hadmits => (if_pos hadmits).trans ?_⟩
    simp only [ofDepth, hread]

theorem reads_side (side : Side) : toSide.Reads (ofSide side) side := by
  cases side <;> exact reads_choice rfl

/-! ### Paths -/

theorem reads_sense (sense : Sense) : toSense.Reads (ofSense sense) sense := by
  cases sense <;> exact reads_choice rfl

def segmentFields : Segment → List (String × Option Value)
  | .straight start finish => [("start", some (.int start)), ("end", some (.int finish))]
  | .arc start finish center sense => [("start", some (.int start)), ("end", some (.int finish)),
      ("axis", some (.int center)), ("sense", some (ofSense sense))]

theorem reads_segment (s : Segment) : toSegment.Reads (ofSegment s) s := by
  have hplace (n : Nat) : index.Supplies none (some (.int n)) n := .written (reads_index n)
  cases s with
  | straight start finish =>
    have hkeys : ("type" :: (segmentFields (.straight start finish)).map (·.1)).Nodup :=
      (by decide : ["type", "start", "end"].Nodup)
    refine reads_tagged rfl hkeys ?_ fun r hr => ?_
    · simp only [segmentFields, List.forall_mem_cons]
      exact ⟨(hplace start).sound, (hplace finish).sound, nofun⟩
    · rw [hr 0 rfl (hplace start), hr 1 rfl (hplace finish)]
      rfl
  | arc start finish center sense =>
    have hkeys : ("type" :: (segmentFields (.arc start finish center sense)).map (·.1)).Nodup :=
      (by decide : ["type", "start", "end", "axis", "sense"].Nodup)
    have hsense : toSense.Supplies none (some (ofSense sense)) sense := .written (reads_sense sense)
    refine reads_tagged rfl hkeys ?_ fun r hr => ?_
    · simp only [segmentFields, List.forall_mem_cons]
      exact ⟨(hplace start).sound, (hplace finish).sound, (hplace center).sound, hsense.sound,
        nofun⟩
    · rw [hr 0 rfl (hplace start), hr 1 rfl (hplace finish), hr 2 rfl (hplace center),
        hr 3 rfl hsense]
      rfl

def pathFields (p : Path Float) : List (String × Option Value) :=
  [("vertices", some (.arr (p.vertices.map ofVec))),
    ("segments", some (.arr (p.segments.map ofSegment)))]

theorem reads_path {p : Path Float} (h : ∀ q ∈ p.numbers, q.isFinite = true) :
    toPath.Reads (ofPath p) p := by
  have hkeys : ((pathFields p).map (·.1)).Nodup := (by decide : ["vertices", "segments"].Nodup)
  have hvertices : (list toVec).Supplies none (some (.arr (p.vertices.map ofVec))) p.vertices :=
    .written (reads_list fun v hv => reads_vec fun q hq =>
      h q (List.mem_flatMap.mpr ⟨v, hv, hq⟩))
  have hsegments : (list toSegment).Supplies none (some (.arr (p.segments.map ofSegment)))
      p.segments := .written (reads_list fun s _ => reads_segment s)
  have heq : ofPath p = .obj (written (pathFields p)) := rfl
  rw [heq]
  refine reads_record hkeys ?_ fun r hr => ?_
  · simp only [pathFields, List.forall_mem_cons]
    exact ⟨hvertices.sound, hsegments.sound, nofun⟩
  · rw [hr 0 rfl hvertices, hr 1 rfl hsegments]
    rfl

/-! ### Cut trees -/

def cutFields : Cut Float → List (String × Option Value)
  | .group poses components unit comment => [("transforms", some (.arr (poses.map ofPose))),
      ("components", some (.arr (components.map ofCut))),
      ("unit", unit.map fun a => .str a.toString), ("comment", comment.map .str)]
  | .trace path depth side comment => [("path", some (ofPath path)),
      ("depth", some (ofDepth depth)), ("spaceSide", some (ofSide side)),
      ("comment", comment.map .str)]
  | .hole diameter depth comment => [("diameter", some (.float diameter)),
      ("depth", some (ofDepth depth)), ("comment", comment.map .str)]
  | .pocket p comment => [("diameter", some (.float p.diameter)),
      ("edgeDepth", some (.float p.edgeDepth)), ("bottomDiameter", some (.float p.bottomDiameter)),
      ("bottomDepth", some (ofDepth p.bottomDepth)), ("cutsBottom", some (.bool p.cutsBottom)),
      ("comment", comment.map .str)]
  | .pause comment => [("comment", comment.map .str)]

theorem ofCuts_eq_map (cuts : List (Cut Float)) : ofCuts cuts = cuts.map ofCut := by
  induction cuts with
  | nil => rfl
  | cons c rest ih => rw [ofCuts, ih, List.map_cons]

theorem ofCut_eq (c : Cut Float) :
    ofCut c = .obj (("type", .str c.kind) :: written (cutFields c)) := by
  cases c <;> simp [ofCut, ofComment, cutFields, Cut.kind, written, member, ofCuts_eq_map]

section Cuts
variable {fuel : Nat} {comment : Option String}

theorem reads_group {poses : List (Pose Float)} {components : List (Cut Float)}
    {unit : Option Amount} (hposes : ∀ q ∈ poses.flatMap Pose.numbers, q.isFinite = true)
    (hunit : ∀ a ∈ unit, a.Readable)
    (hcomponents : ∀ c ∈ components, (cutWithin fuel).Reads (ofCut c) c) :
    (cutWithin (fuel + 1)).Reads (ofCut (.group poses components unit comment))
      (.group poses components unit comment) := by
  have hkeys : ("type" :: (cutFields (.group poses components unit comment)).map (·.1)).Nodup :=
    (by decide : ["type", "transforms", "components", "unit", "comment"].Nodup)
  have htransforms : (list toPose).Supplies (some [.identity]) (some (.arr (poses.map ofPose)))
      poses := .written (reads_list fun p hp => reads_pose fun q hq =>
    hposes q (List.mem_flatMap.mpr ⟨p, hp, hq⟩))
  have hall : (list (cutWithin fuel)).Supplies none (some (.arr (components.map ofCut)))
      components := .written (reads_list hcomponents)
  have hdeclared : (option amount).Supplies (some none) (unit.map fun a => .str a.toString) unit :=
    supplies_option (fun a ha => reads_amount (hunit a ha)) nofun
  have hcomment := supplies_comment comment
  rw [ofCut_eq]
  refine reads_tagged rfl hkeys ?_ fun r hr => ?_
  · simp only [cutFields, List.forall_mem_cons]
    exact ⟨htransforms.sound, hall.sound, hdeclared.sound, hcomment.sound, nofun⟩
  · rw [hr 0 rfl htransforms, hr 1 rfl hall, hr 2 rfl hdeclared, commentField, hr 3 rfl hcomment]
    rfl

theorem reads_trace {path : Path Float} {depth : Depth Float} {side : Side}
    (hpath : ∀ q ∈ path.numbers, q.isFinite = true)
    (hdepth : ∀ q ∈ depth.numbers, q.isFinite = true) :
    (cutWithin (fuel + 1)).Reads (ofCut (.trace path depth side comment))
      (.trace path depth side comment) := by
  have hkeys : ("type" :: (cutFields (.trace path depth side comment)).map (·.1)).Nodup :=
    (by decide : ["type", "path", "depth", "spaceSide", "comment"].Nodup)
  have hpath : toPath.Supplies none (some (ofPath path)) path := .written (reads_path hpath)
  have hdepth : toDepth.Supplies (some (.down 0)) (some (ofDepth depth)) depth :=
    .written (reads_depth hdepth)
  have hside : toSide.Supplies (some .middle) (some (ofSide side)) side :=
    .written (reads_side side)
  have hcomment := supplies_comment comment
  rw [ofCut_eq]
  refine reads_tagged rfl hkeys ?_ fun r hr => ?_
  · simp only [cutFields, List.forall_mem_cons]
    exact ⟨hpath.sound, hdepth.sound, hside.sound, hcomment.sound, nofun⟩
  · rw [hr 0 rfl hpath, hr 1 rfl hdepth, hr 2 rfl hside, commentField, hr 3 rfl hcomment]
    rfl

theorem reads_hole {diameter : Float} {depth : Depth Float} (hdiameter : diameter.isFinite = true)
    (hdepth : ∀ q ∈ depth.numbers, q.isFinite = true) :
    (cutWithin (fuel + 1)).Reads (ofCut (.hole diameter depth comment))
      (.hole diameter depth comment) := by
  have hkeys : ("type" :: (cutFields (.hole diameter depth comment)).map (·.1)).Nodup :=
    (by decide : ["type", "diameter", "depth", "comment"].Nodup)
  have hdiameter : Decode.float.Supplies none (some (.float diameter)) diameter :=
    .written (reads_float hdiameter)
  have hdepth : toDepth.Supplies (some (.down 0)) (some (ofDepth depth)) depth :=
    .written (reads_depth hdepth)
  have hcomment := supplies_comment comment
  rw [ofCut_eq]
  refine reads_tagged rfl hkeys ?_ fun r hr => ?_
  · simp only [cutFields, List.forall_mem_cons]
    exact ⟨hdiameter.sound, hdepth.sound, hcomment.sound, nofun⟩
  · rw [hr 0 rfl hdiameter, hr 1 rfl hdepth, commentField, hr 2 rfl hcomment]
    rfl

theorem reads_pocket {p : Pocket Float}
    (h : ∀ q ∈ [p.diameter, p.edgeDepth, p.bottomDiameter] ++ p.bottomDepth.numbers,
      q.isFinite = true) :
    (cutWithin (fuel + 1)).Reads (ofCut (.pocket p comment)) (.pocket p comment) := by
  have hkeys : ("type" :: (cutFields (.pocket p comment)).map (·.1)).Nodup :=
    (by decide : ["type", "diameter", "edgeDepth", "bottomDiameter", "bottomDepth", "cutsBottom",
      "comment"].Nodup)
  have hdiameter : Decode.float.Supplies none (some (.float p.diameter)) p.diameter :=
    .written (reads_float (h _ (by simp)))
  have hedge : Decode.float.Supplies (some 0) (some (.float p.edgeDepth)) p.edgeDepth :=
    .written (reads_float (h _ (by simp)))
  have hbottom : Decode.float.Supplies none (some (.float p.bottomDiameter)) p.bottomDiameter :=
    .written (reads_float (h _ (by simp)))
  have hdepth : toDepth.Supplies none (some (ofDepth p.bottomDepth)) p.bottomDepth :=
    .written (reads_depth fun q hq => h q (List.mem_append_right _ hq))
  have hcuts : bool.Supplies (some false) (some (.bool p.cutsBottom)) p.cutsBottom :=
    .written (reads_bool p.cutsBottom)
  have hcomment := supplies_comment comment
  rw [ofCut_eq]
  refine reads_tagged rfl hkeys ?_ fun r hr => ?_
  · simp only [cutFields, List.forall_mem_cons]
    exact ⟨hdiameter.sound, hedge.sound, hbottom.sound, hdepth.sound, hcuts.sound, hcomment.sound,
      nofun⟩
  · rw [toPocket, hr 0 rfl hdiameter, hr 1 rfl hedge, hr 2 rfl hbottom, hr 3 rfl hdepth,
      hr 4 rfl hcuts, commentField, hr 5 rfl hcomment]
    rfl

theorem reads_pause : (cutWithin (fuel + 1)).Reads (ofCut (.pause comment)) (.pause comment) := by
  have hkeys : ("type" :: (cutFields (.pause comment)).map (·.1)).Nodup :=
    (by decide : ["type", "comment"].Nodup)
  have hcomment := supplies_comment comment
  rw [ofCut_eq]
  refine reads_tagged rfl hkeys ?_ fun r hr => ?_
  · simp only [cutFields, List.forall_mem_cons]
    exact ⟨hcomment.sound, nofun⟩
  · rw [commentField, hr 0 rfl hcomment]
    rfl

end Cuts

/-- A group is nested two levels deeper than its components, an object and an array. -/
theorem depth_lt_of_mem_components {poses : List (Pose Float)} {components : List (Cut Float)}
    {unit : Option Amount} {comment : Option String} {fuel : Nat}
    (h : (ofCut (.group poses components unit comment)).depth < fuel + 1) {c : Cut Float}
    (hc : c ∈ components) : (ofCut c).depth < fuel := by
  have hcomponent : (ofCut c).depth ≤ Value.depthElements (components.map ofCut) :=
    Value.depth_le_of_mem_elements (List.mem_map_of_mem hc)
  have hmem : ("components", Value.arr (components.map ofCut)) ∈
      written (cutFields (.group poses components unit comment)) :=
    mem_written.mpr (List.mem_of_getElem? (i := 1) rfl)
  have harray := Value.depth_le_of_mem_members (List.mem_cons_of_mem ("type", .str "Compound") hmem)
  rw [ofCut_eq, Value.depth, Cut.kind] at h
  rw [Value.depth] at harray
  omega

mutual
/-- A cut is read again by every decoder that goes as deep as it is nested. -/
theorem reads_cut (c : Cut Float) (hnumbers : ∀ q ∈ c.numbers, q.isFinite = true)
    (hdeclared : ∀ a ∈ c.declared, a.Readable) (fuel : Nat) (hfuel : (ofCut c).depth < fuel) :
    (cutWithin fuel).Reads (ofCut c) c := by
  -- One unit of fuel is spent on the object of the cut. Its components are two levels further down.
  obtain ⟨fuel, rfl⟩ := Nat.exists_eq_add_of_le' (Nat.succ_le_of_lt (Nat.zero_lt_of_lt hfuel))
  match c with
  | .group poses components unit comment =>
    rw [Cut.numbers, List.forall_mem_append] at hnumbers
    rw [Cut.declared, List.forall_mem_append] at hdeclared
    have hcomponents := reads_cuts components hnumbers.2 hdeclared.2
    exact reads_group hnumbers.1 (fun a ha => hdeclared.1 a (Option.mem_toList.mpr ha))
      fun c hc => hcomponents c hc fuel (depth_lt_of_mem_components hfuel hc)
  | .trace path depth side comment =>
    rw [Cut.numbers, List.forall_mem_append] at hnumbers
    exact reads_trace hnumbers.1 hnumbers.2
  | .hole diameter depth comment =>
    rw [Cut.numbers, List.forall_mem_cons] at hnumbers
    exact reads_hole hnumbers.1 hnumbers.2
  | .pocket p comment => exact reads_pocket hnumbers
  | .pause comment => exact reads_pause

theorem reads_cuts (cuts : List (Cut Float))
    (hnumbers : ∀ q ∈ Cut.numbersAll cuts, q.isFinite = true)
    (hdeclared : ∀ a ∈ Cut.declaredAll cuts, a.Readable) :
    ∀ c ∈ cuts, ∀ fuel : Nat, (ofCut c).depth < fuel → (cutWithin fuel).Reads (ofCut c) c := by
  match cuts with
  | [] => exact nofun
  | c :: rest =>
    rw [Cut.numbersAll, List.forall_mem_append] at hnumbers
    rw [Cut.declaredAll, List.forall_mem_append] at hdeclared
    rw [List.forall_mem_cons]
    exact ⟨reads_cut c hnumbers.1 hdeclared.1, reads_cuts rest hnumbers.2 hdeclared.2⟩
end

end Form

namespace CutFile
open Decode Form

def fields (f : CutFile) : List (String × Option Value) :=
  [("version", some (.str f.version)), ("name", f.name.map .str),
    ("cuts", some (.arr (f.cuts.map ofCut)))]

theorem toValue_eq (f : CutFile) : f.toValue = .obj (written f.fields) := by
  simp [toValue, fields, written, member, ofCuts_eq_map]

theorem Readable.reads_toCut {f : CutFile} (h : f.Readable) {c : Cut Float} (hc : c ∈ f.cuts) :
    toCut.Reads (ofCut c) c :=
  have hread := reads_cuts f.cuts h.numbers h.declared c hc _ (Nat.lt_succ_self _)
  ⟨hread.sound, hread.eq_ok⟩

theorem keys_fields (f : CutFile) : (f.fields.map (·.1)).Nodup :=
  (by decide : ["version", "name", "cuts"].Nodup)

theorem reads_toValue {f : CutFile} (h : f.Readable) : ofValue.Reads f.toValue f := by
  have hversion : string.Supplies (some "1.0") (some (.str f.version)) f.version :=
    .written (reads_string f.version)
  have hname := supplies_option (o := f.name) (fun s _ => reads_string s) nofun
  have hcuts : (list toCut).Supplies none (some (.arr (f.cuts.map ofCut))) f.cuts :=
    .written (reads_list fun c hc => h.reads_toCut hc)
  rw [toValue_eq]
  refine reads_record f.keys_fields ?_ fun r hr => ?_
  · simp only [fields, List.forall_mem_cons]
    exact ⟨hversion.sound, hname.sound, hcuts.sound, nofun⟩
  · rw [hr 0 rfl hversion, hr 1 rfl hname, hr 2 rfl hcuts]
    rfl

/-- A file is the same after it was written as a value and read, if its numbers are finite and its
units are not empty. A text has to leave room for as many levels as the value is nested, and to be
one that the value can be read from. -/
theorem ofValue_toValue {f : CutFile} (h : f.Readable) :
    f.toValue.isSound = true ∧ ofValue .whole f.toValue = .ok f ∧
    (∀ room, f.toValue.depth ≤ room → ofValue (.text room) f.toValue = .ok f) ∧
    (f.toValue.depth ≤ 127 → Json.read? f.write = some f.toValue → parse f.write = .ok f) := by
  have hread := reads_toValue h
  have htext (room : Nat) (hroom : f.toValue.depth ≤ room) :
      ofValue (.text room) f.toValue = .ok f :=
    hread.eq_ok (.text room) (Source.admits_text.mpr ⟨hroom, hread.sound⟩)
  refine ⟨hread.sound, hread.eq_ok .whole rfl, htext, fun hdepth hjson => ?_⟩
  rw [parse, hjson]
  exact htext 127 hdepth

/-- Every kind of cut, pose, segment and depth, with and without options. -/
theorem ofValue_toValue_nested :
    let path : Path Float := ⟨[⟨0, 0, 0⟩, ⟨1, 0, -0⟩, ⟨0.5, 0, 0⟩],
      [.straight 0 1, .arc 1 0 2 .clockwise]⟩
    let poses : List (Pose Float) := [.rows ⟨1, 0, 0⟩ 2 ⟨0, 1, 0⟩ 3 ⟨0, 0, 1⟩ 0,
      .position { x := 1, y := 2, z := some 0, rotation := some 90 }]
    let inner : Cut Float := .group [] [.trace path .through .left none,
      .pocket ⟨1, 0, 0.5, .through, true⟩ (some ""), .pause none] none (some "type")
    let f : CutFile := ⟨"2", some "name", [.group poses [inner] (some (.single .board ⟨1, 2⟩)) none,
      .hole 0.25 (.down 0.1) none, .pause (some "Infinity")]⟩
    f.Readable ∧ ofValue .whole f.toValue = .ok f ∧ ofValue .json f.toValue = .ok f := by
  intro path poses inner f
  have hreadable : f.Readable := by decide +kernel
  have hdepth : f.toValue.depth ≤ 127 := by decide +kernel
  obtain ⟨-, hwhole, htext, -⟩ := ofValue_toValue hreadable
  exact ⟨hreadable, hwhole, htext 127 hdepth⟩

end CutFile
end Toolpath
