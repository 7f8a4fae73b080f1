import Toolpath.Proofs.Form.Levels
import Toolpath.Proofs.Outline.Reference
import Toolpath.Proofs.Settings.RoundTrip

/-!
Cut files that are saved and loaded again. What decides is how deep the file is nested: a text may
nest 127 levels, and a group takes two of them.
-/
namespace Toolpath

mutual
/-- All segments of the paths of a cut. -/
def Cut.segments {α : Type} : Cut α → List Segment
  | .group _ components _ _ => Cut.segmentsAll components
  | .trace path _ _ _ => path.segments
  | _ => []

def Cut.segmentsAll {α : Type} : List (Cut α) → List Segment
  | [] => []
  | c :: r => c.segments ++ Cut.segmentsAll r
end

/-- A file whose text says everything about it: the text of each number is read as that number, and
vertices are numbered by 64 bits. -/
structure CutFile.Legible (f : CutFile) : Prop extends f.Readable where
  readBack : ∀ x ∈ Cut.numbersAll f.cuts, FileFormat.json.ReadsBack x
  segments : ∀ s ∈ Cut.segmentsAll f.cuts, s.Refers FileFormat.json.wholeLimit

instance (f : CutFile) : Decidable f.Legible :=
  decidable_of_iff
    (f.Readable ∧ (∀ x ∈ Cut.numbersAll f.cuts, FileFormat.json.ReadsBack x) ∧
      ∀ s ∈ Cut.segmentsAll f.cuts, s.Refers FileFormat.json.wholeLimit)
    ⟨fun ⟨h, hnumbers, hsegments⟩ => ⟨h, hnumbers, hsegments⟩,
      fun h => ⟨h.toReadable, h.readBack, h.segments⟩⟩

namespace Form
open FileFormat (json)

/-! ### Texts of values -/

theorem isWritten_obj (fields : List (String × Option Value))
    (h : ∀ e ∈ fields, ∀ v ∈ e.2, Json.Written v) : Json.Written (.obj (written fields)) :=
  Json.membersWritten_iff.mpr fun _ he => h _ (mem_written.mp he) _ rfl

theorem isWritten_tagged (tag variant : String) (fields : List (String × Option Value))
    (h : ∀ e ∈ fields, ∀ v ∈ e.2, Json.Written v) :
    Json.Written (.obj ((tag, .str variant) :: written fields)) :=
  ⟨trivial, isWritten_obj fields h⟩

theorem isWritten_map {ι : Type} {l : List ι} {enc : ι → Value}
    (h : ∀ a ∈ l, Json.Written (enc a)) : Json.Written (.arr (l.map enc)) :=
  Json.elementsWritten_iff.mpr (List.forall_mem_map.mpr h)

theorem isWritten_option {ι : Type} {o : Option ι} {enc : ι → Value}
    (h : ∀ a ∈ o, Json.Written (enc a)) : ∀ v ∈ o.map enc, Json.Written v := by
  cases o with
  | none => exact nofun
  | some a =>
    rintro _ ⟨⟩
    exact h a rfl

theorem isWritten_one {v : Value} (h : Json.Written v) : ∀ u ∈ some v, Json.Written u := by
  rintro _ ⟨⟩
  exact h

theorem isWritten_vec {v : Vec Float} (h : ∀ x ∈ [v.x, v.y, v.z], json.ReadsBack x) :
    Json.Written (ofVec v) := by
  simp only [List.forall_mem_cons] at h
  exact ⟨h.1, h.2.1, h.2.2.1, trivial⟩

theorem isWritten_pose {pose : Pose Float} (h : ∀ x ∈ pose.numbers, json.ReadsBack x) :
    Json.Written (ofPose pose) := by
  cases pose with
  | rows x x1 y y1 z z1 =>
    refine isWritten_obj (rowsFields x x1 y y1 z z1) fun e he v hv => ?_
    obtain ⟨q, hq, heq⟩ := exists_number_of_mem_rowsFields e he
    obtain rfl := Option.some.inj (heq ▸ hv)
    exact h q hq
  | position p =>
    have hoption {o : Option Float} (ho : ∀ q ∈ o, q ∈ (Pose.position p).numbers) :
        ∀ v ∈ o.map Value.float, Json.Written v := isWritten_option fun q hq => h q (ho q hq)
    rw [ofPose_position]
    refine isWritten_obj _ ?_
    simp only [positionFields, List.forall_mem_cons]
    refine ⟨isWritten_one (h p.x ?_), isWritten_one (h p.y ?_), hoption ?_, hoption ?_, hoption ?_,
      List.forall_mem_nil _⟩ <;> simp +contextual [Pose.numbers]

theorem isWritten_index {n : Nat} (h : n < json.wholeLimit) : Json.Written (.int n) := by
  have hlimit : json.wholeLimit = 0x10000000000000000 := rfl
  constructor <;> omega

theorem isWritten_segment {s : Segment} (h : s.Refers json.wholeLimit) :
    Json.Written (ofSegment s) := by
  cases s with
  | straight start finish =>
    refine isWritten_tagged "type" "straight" (segmentFields (.straight start finish)) ?_
    simp only [segmentFields, List.forall_mem_cons]
    exact ⟨isWritten_one (isWritten_index h.1), isWritten_one (isWritten_index h.2),
      List.forall_mem_nil _⟩
  | arc start finish center sense =>
    have hsense : Json.Written (ofSense sense) := by cases sense <;> exact trivial
    refine isWritten_tagged "type" "arc" (segmentFields (.arc start finish center sense)) ?_
    simp only [segmentFields, List.forall_mem_cons]
    exact ⟨isWritten_one (isWritten_index h.1), isWritten_one (isWritten_index h.2.1),
      isWritten_one (isWritten_index h.2.2), isWritten_one hsense, List.forall_mem_nil _⟩

theorem isWritten_path {p : Path Float} (h : ∀ x ∈ p.numbers, json.ReadsBack x)
    (hsegments : ∀ s ∈ p.segments, s.Refers json.wholeLimit) : Json.Written (ofPath p) := by
  have hvec : ∀ v ∈ p.vertices, Json.Written (ofVec v) := fun v hv =>
    isWritten_vec fun x hx => h x (List.mem_flatMap.mpr ⟨v, hv, hx⟩)
  have hsegment : ∀ s ∈ p.segments, Json.Written (ofSegment s) := fun s hs =>
    isWritten_segment (hsegments s hs)
  refine isWritten_obj (pathFields p) ?_
  simp only [pathFields, List.forall_mem_cons]
  exact ⟨isWritten_one (isWritten_map hvec), isWritten_one (isWritten_map hsegment),
    List.forall_mem_nil _⟩

theorem isWritten_depth {d : Depth Float} (h : ∀ x ∈ d.numbers, json.ReadsBack x) :
    Json.Written (ofDepth d) := by
  cases d with
  | through => trivial
  | down d => exact h d (List.mem_singleton.mpr rfl)

theorem isWritten_side (side : Side) : Json.Written (ofSide side) := by
  cases side <;> exact trivial

theorem isWritten_comment (comment : Option String) :
    ∀ v ∈ comment.map Value.str, Json.Written v := isWritten_option fun _ _ => trivial

mutual
theorem isWritten_cut (c : Cut Float) (h : ∀ x ∈ c.numbers, json.ReadsBack x)
    (hsegments : ∀ s ∈ c.segments, s.Refers json.wholeLimit) : Json.Written (ofCut c) := by
  rw [ofCut_eq]
  refine isWritten_tagged _ _ _ ?_
  match c with
  | .group poses components unit comment =>
    rw [Cut.numbers, List.forall_mem_append] at h
    have hposes : ∀ p ∈ poses, Json.Written (ofPose p) := fun p hp =>
      isWritten_pose fun x hx => h.1 x (List.mem_flatMap.mpr ⟨p, hp, hx⟩)
    have hcomponents := isWritten_cuts components h.2 hsegments
    simp only [cutFields, List.forall_mem_cons]
    exact ⟨isWritten_one (isWritten_map hposes), isWritten_one (isWritten_map hcomponents),
      isWritten_option fun _ _ => trivial, isWritten_comment comment, List.forall_mem_nil _⟩
  | .trace path depth side comment =>
    rw [Cut.numbers, List.forall_mem_append] at h
    simp only [cutFields, List.forall_mem_cons]
    exact ⟨isWritten_one (isWritten_path h.1 hsegments), isWritten_one (isWritten_depth h.2),
      isWritten_one (isWritten_side side), isWritten_comment comment, List.forall_mem_nil _⟩
  | .hole diameter depth comment =>
    rw [Cut.numbers, List.forall_mem_cons] at h
    simp only [cutFields, List.forall_mem_cons]
    exact ⟨isWritten_one h.1, isWritten_one (isWritten_depth h.2), isWritten_comment comment,
      List.forall_mem_nil _⟩
  | .pocket p comment =>
    rw [Cut.numbers, List.forall_mem_append] at h
    obtain ⟨hsizes, hdepth⟩ := h
    simp only [List.forall_mem_cons] at hsizes
    obtain ⟨hdiameter, hedge, hbottom, -⟩ := hsizes
    simp only [cutFields, List.forall_mem_cons]
    exact ⟨isWritten_one hdiameter, isWritten_one hedge, isWritten_one hbottom,
      isWritten_one (isWritten_depth hdepth), isWritten_one trivial, isWritten_comment comment,
      List.forall_mem_nil _⟩
  | .pause comment =>
    simp only [cutFields, List.forall_mem_cons]
    exact ⟨isWritten_comment comment, List.forall_mem_nil _⟩

theorem isWritten_cuts (cuts : List (Cut Float))
    (h : ∀ x ∈ Cut.numbersAll cuts, json.ReadsBack x)
    (hsegments : ∀ s ∈ Cut.segmentsAll cuts, s.Refers json.wholeLimit) :
    ∀ c ∈ cuts, Json.Written (ofCut c) := by
  match cuts with
  | [] => exact nofun
  | c :: rest =>
    rw [Cut.numbersAll, List.forall_mem_append] at h
    rw [Cut.segmentsAll, List.forall_mem_append] at hsegments
    rw [List.forall_mem_cons]
    exact ⟨isWritten_cut c h.1 hsegments.1, isWritten_cuts rest h.2 hsegments.2⟩
end

end Form

/-! ### Files that are too deep -/

theorem Form.type_notMem_cutFields (c : Cut Float) : "type" ∉ (cutFields c).map (·.1) := by
  cases c <;> simp [cutFields]

/-- A cut that is nested deeper than its text may be is refused, however it is made up. -/
theorem Form.toCut_deep {room : Nat} {c : Cut Float} (h : room + 1 < c.levels) :
    toCut (.text (room + 1)) (ofCut c) = .error .malformed := by
  have hadmits : (Source.text (room + 1)).admits (ofCut c) = false := by
    rw [Bool.eq_false_iff, ne_eq, Source.admits_text, depth_ofCut]
    omega
  have htag : ∀ e ∈ written (cutFields c), e.1 ≠ "type" := fun e he heq =>
    type_notMem_cutFields c (List.mem_map.mpr ⟨_, mem_written.mp he, heq⟩)
  rw [ofCut_eq] at hadmits ⊢
  cases c <;> exact tagged_not_admitted "internally tagged enum Cut" rfl htag rfl hadmits

namespace CutFile
open Form Decode
variable {f : CutFile}

theorem Legible.isWritten (h : f.Legible) : Json.Written f.toValue := by
  have hcuts := isWritten_cuts f.cuts h.readBack h.segments
  rw [toValue_eq]
  refine isWritten_obj _ ?_
  simp only [fields, List.forall_mem_cons]
  exact ⟨isWritten_one trivial, isWritten_option fun _ _ => trivial,
    isWritten_one (isWritten_map hcuts), List.forall_mem_nil _⟩

/-- Two levels of the text are taken by the file itself. -/
theorem ofValue_deep (h : f.Readable) (hdeep : 125 < Cut.levelsAll f.cuts) :
    ofValue .json f.toValue = .error .malformed := by
  -- The cuts before the deep one are read, so what the deep one fails with is the first failure.
  have hcut : ∀ c ∈ f.cuts, toCut (.text 125) (ofCut c) = .ok c ∨
      toCut (.text 125) (ofCut c) = .error .malformed := by
    intro c hc
    by_cases hroom : c.levels ≤ 125
    · have hread := h.reads_toCut hc
      exact .inl (hread.eq_ok _ (Source.admits_text.mpr ⟨depth_ofCut c ▸ hroom, hread.sound⟩))
    · exact .inr (toCut_deep (by omega))
  obtain ⟨c, hc, hlevels⟩ := Cut.exists_mem_lt_levels hdeep
  have hcuts : list toCut (.text 126) (.arr (f.cuts.map ofCut)) = .error .malformed :=
    list_error rfl hcut ⟨c, hc, toCut_deep hlevels⟩
  let r : Record := ⟨.text 126, "struct CutFile", 3, .members (written f.fields)⟩
  have hversion : r.field 0 "version" string (some "1.0") = .ok f.version :=
    field_of_mem f.keys_fields List.mem_cons_self rfl 0 _
  have hname : r.field 1 "name" (option string) (some none) = .ok (f.name.or none) :=
    field_of_option f.keys_fields (List.mem_of_getElem? (i := 1) rfl) (fun _ _ => rfl) 1 none
  obtain ⟨place, hfield⟩ : ∃ place, r.field 2 "cuts" (list toCut) = .error (place, .malformed) :=
    field_of_mem_error f.keys_fields (List.mem_of_getElem? (i := 2) rfl) hcuts 2 none
  have hparts : (CutFile.mk <$> r.field 0 "version" string (some "1.0") <*>
      r.field 1 "name" (option string) (some none) <*> r.field 2 "cuts" (list toCut)) =
        (.error (place, .malformed) : Part CutFile) := by
    rw [hversion, hname, hfield]
    rfl
  have hsound : ∀ e ∈ f.fields, ∀ d, e.2 ≠ some (.defect d) := by
    cases hf : f.name <;> simp [fields, hf]
  rw [toValue_eq]
  refine record_written_error (e := (place, .malformed)) rfl hsound ?_
  exact hparts

/-- A file is loaded as it was saved if its text nests at most 127 levels, and refused otherwise. It
is loaded where no more than 60 groups lie in each other, and refused from 63 on. -/
theorem parse_write (h : f.Legible) :
    parse f.write = (if Cut.levelsAll f.cuts + 2 ≤ 127 then .ok f else .error .malformed) ∧
    (Cut.nestingAll f.cuts ≤ 60 → parse f.write = .ok f) ∧
    (63 ≤ Cut.nestingAll f.cuts → parse f.write = .error .malformed) := by
  have htext : parse f.write = ofValue .json f.toValue := by
    rw [parse, write, Json.read?_pretty h.isWritten]
  have hnesting := Cut.nestingAll_le_levelsAll f.cuts
  have hread := reads_toValue h.toReadable
  have hparse : parse f.write =
      if Cut.levelsAll f.cuts + 2 ≤ 127 then .ok f else .error .malformed := by
    rw [htext]
    split_ifs with hroom
    · exact hread.eq_ok _ (Source.admits_text.mpr ⟨f.depth_toValue ▸ hroom, hread.sound⟩)
    · exact ofValue_deep h.toReadable (by omega)
  refine ⟨hparse, fun hle => ?_, fun hge => ?_⟩
  · rw [hparse, if_pos (by omega)]
  · rw [hparse, if_neg (by omega)]

/-- A pause in 62 groups, and in one more. -/
theorem parse_write_pauses :
    let shallow : CutFile := .ofCuts [(Cut.pause none).nested 62]
    let deep : CutFile := .ofCuts [(Cut.pause none).nested 63]
    shallow.Legible ∧ parse shallow.write = .ok shallow ∧
      deep.Legible ∧ parse deep.write = .error .malformed := by
  intro shallow deep
  have hshallow : shallow.Legible := by decide +kernel
  have hdeep : deep.Legible := by decide +kernel
  exact ⟨hshallow, (parse_write hshallow).1.trans (if_pos (by decide +kernel)),
    hdeep, (parse_write hdeep).2.2 (by decide +kernel)⟩

end CutFile
end Toolpath
