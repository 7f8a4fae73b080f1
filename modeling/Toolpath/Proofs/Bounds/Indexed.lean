import Toolpath.Bounds
import Toolpath.Proofs.Outline.Missing
import Toolpath.Proofs.Traversal.Checked
import Toolpath.Proofs.Traversal.Nesting

/-! The box of a cut tree, with vertices looked up in a way that fails where one is missing. -/
namespace Toolpath

namespace Bounds
variable {α : Type} [Scalar α]

/-- The points of a segment if all vertices that are looked up exist. -/
def segmentPoints? (f : Frame α) (vertices : List (Vec α)) (s : Segment) :
    Option (List (Vec α)) := do
  let ends ← [s.start, s.finish].mapM fun i => do
    let v ← vertices[i]?
    let placed := f.place v
    return [placed, { placed with z := f.bottom v }]
  match s with
  | .straight _ _ => return ends.flatten
  | .arc start _ c _ =>
    let middle ← vertices[c]?
    let rim ← vertices[start]?
    let center := f.place middle
    return ends.flatten ++
      discPoints center (f.place rim - center).normXY center.z (f.bottom middle)

/-- The points of a path if all vertices that are looked up exist. -/
def tracePoints? (f : Frame α) (p : Path α) : Option (List (Vec α)) :=
  List.flatten <$> p.segments.mapM (segmentPoints? f p.vertices)

/-- Look-ups that all succeed give the points that are made of what they find. -/
theorem segmentPoints?_of_refers {f : Frame α} {vertices : List (Vec α)} {vertex : Nat → Vec α}
    (hvertex : ∀ i < vertices.length, vertices[i]? = some (vertex i)) {s : Segment}
    (h : s.Refers vertices.length) :
    segmentPoints? f vertices s = some (segmentPoints f vertex s) := by
  cases s with
  | straight start finish =>
    obtain ⟨hstart, hfinish⟩ := h
    simp [segmentPoints?, segmentPoints, Segment.start, Segment.finish, hvertex _ hstart,
      hvertex _ hfinish]
  | arc start finish center sense =>
    obtain ⟨hstart, hfinish, hcenter⟩ := h
    simp [segmentPoints?, segmentPoints, Segment.start, Segment.finish, hvertex _ hstart,
      hvertex _ hfinish, hvertex _ hcenter]

/-- Every reference of a segment is looked up. -/
theorem refers_of_segmentPoints? {f : Frame α} {vertices : List (Vec α)} {s : Segment}
    {points : List (Vec α)} (h : segmentPoints? f vertices s = some points) :
    s.Refers vertices.length := by
  have lt_of_some {i : Nat} {v : Vec α} (hv : vertices[i]? = some v) : i < vertices.length :=
    (List.getElem?_eq_some_iff.mp hv).1
  cases hstart : vertices[s.start]? with
  | none => simp [segmentPoints?, hstart] at h
  | some a =>
    cases hfinish : vertices[s.finish]? with
    | none => simp [segmentPoints?, hstart, hfinish] at h
    | some b =>
      cases s with
      | straight start finish => exact ⟨lt_of_some hstart, lt_of_some hfinish⟩
      | arc start finish center sense =>
        cases hcenter : vertices[center]? with
        | none => simp [segmentPoints?, hstart, hfinish, hcenter] at h
        | some c => exact ⟨lt_of_some hstart, lt_of_some hfinish, lt_of_some hcenter⟩

/-- Indexing is in range exactly for paths that refer to their vertices only. -/
theorem tracePoints?_eq_some {f : Frame α} {p : Path α} :
    tracePoints? f p = some (tracePoints f p) ↔ p.Refers := by
  constructor
  · intro h s hs
    obtain ⟨all, hall, -⟩ := Option.map_eq_some_iff.mp h
    obtain ⟨points, hpoints⟩ := exists_of_mapM_eq_some hall s hs
    exact refers_of_segmentPoints? hpoints
  · intro h
    have hvertex : ∀ i < p.vertices.length, p.vertices[i]? = some (p.vertices.getD i .zero) := by
      intro i hi
      rw [List.getD_eq_getElem?_getD, List.getElem?_eq_getElem hi, Option.getD_some]
    have hall := mapM_eq_some_map fun s hs => segmentPoints?_of_refers (f := f) hvertex (h s hs)
    rw [tracePoints?, hall, tracePoints, List.flatMap_def]
    rfl

/-- The box, found by a backend that breaks off where it is to look up a vertex that is missing. -/
def indexing : Backend α (Bounds α) (Option (CarveError α)) where
  comment f text := ExceptT.adapt some (backend.comment f text)
  trace f p :=
    match tracePoints? f p with
    | some points => ExceptT.adapt some (collect points)
    | none => throw none
  hole f diameter := ExceptT.adapt some (backend.hole f diameter)
  pocket f p := ExceptT.adapt some (backend.pocket f p)
  pause f := ExceptT.adapt some (backend.pause f)
  refuse := some

theorem make_indexing {c : Call α} (hc : ∀ f p, c = .trace f p → p.Refers) :
    indexing.make c = ExceptT.adapt some (backend.make c) := by
  cases c with
  | trace f p =>
    have hpoints := tracePoints?_eq_some (f := f).mpr (hc f p rfl)
    simp only [Backend.make, indexing, hpoints, backend]
  | comment f text => rfl
  | hole f diameter => rfl
  | pocket f p => rfl
  | pause f => rfl

/-- No traversal breaks off at a vertex that is missing. -/
theorem visitAll_indexing (f : Frame α) (cuts : List (Cut α)) :
    indexing.visitAll f cuts = ExceptT.adapt some (backend.visitAll f cuts) :=
  Backend.visitAll_adapt (fun _ hc => make_indexing fun _ _ htrace =>
    Path.check_eq_ok.mp (Cut.check_traced (htrace ▸ hc))) fun _ => rfl

end Bounds
end Toolpath
