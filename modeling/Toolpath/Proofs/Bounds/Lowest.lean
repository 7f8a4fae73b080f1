import Toolpath.Proofs.Bounds.Smallest
import Toolpath.Proofs.Program.Inside

/-! How far down the box of a job reaches. Bottoms are raised to the bottom face of the stock where
they are below it, but the surfaces that cuts start from are not. -/
namespace Toolpath

section
variable {α : Type}

/-- All vertices that a segment refers to. -/
def Segment.references : Segment → List Nat
  | .straight start finish => [start, finish]
  | .arc start finish center _ => [start, finish, center]

variable [Scalar α]

/-- From which height down to which one is cut, at each place of a call. -/
def Call.extents : Call α → List (α × α)
  | .trace f p => p.segments.flatMap fun s => s.references.map fun i =>
    ((f.place (p.vertices.getD i .zero)).z, f.bottom (p.vertices.getD i .zero))
  | .hole f _ => [((f.place .zero).z, f.bottom .zero)]
  | .pocket f p => [((f.place .zero).z - f.depth p.edgeDepth,
      Bounds.pocketBottom f (f.place .zero).z p.bottomDepth)]
  | _ => []

/-- From which height down to which one is cut, at each place that a job comes to. -/
def Job.extents (job : Job α) (cuts : List (Cut α)) : List (α × α) :=
  (job.itinerary cuts).calls.flatMap Call.extents

namespace Bounds

theorem exists_mem_discPoints_iff {center : Vec α} {radius top bottom z : α} :
    (∃ q ∈ discPoints center radius top bottom, q.z = z) ↔ z = top ∨ z = bottom := by
  simp [discPoints, eq_comm]

theorem exists_mem_segmentPoints_iff {f : Frame α} {vertex : Nat → Vec α} {s : Segment} {z : α} :
    (∃ q ∈ segmentPoints f vertex s, q.z = z) ↔
      ∃ i ∈ s.references, z = (f.place (vertex i)).z ∨ z = f.bottom (vertex i) := by
  cases s with
  | straight start finish =>
    simp [segmentPoints, Segment.start, Segment.finish, Segment.references, eq_comm, or_assoc]
  | arc start finish center sense =>
    simp [segmentPoints, discPoints, Segment.start, Segment.finish, Segment.references, eq_comm,
      or_assoc]

/-- The heights that a box takes in for a call are the surfaces and the bottoms of its places. -/
theorem exists_mem_points_iff {c : Call α} {z : α} :
    (∃ q ∈ c.points, q.z = z) ↔ ∃ e ∈ c.extents, z = e.1 ∨ z = e.2 := by
  cases c with
  | comment f text => simp [Call.points, Call.extents]
  | trace f p =>
    constructor
    · rintro ⟨q, hq, hz⟩
      obtain ⟨s, hs, hq⟩ := List.mem_flatMap.mp hq
      obtain ⟨i, hi, hz⟩ := exists_mem_segmentPoints_iff.mp ⟨q, hq, hz⟩
      exact ⟨_, List.mem_flatMap.mpr ⟨s, hs, List.mem_map_of_mem hi⟩, hz⟩
    · rintro ⟨e, he, hz⟩
      obtain ⟨s, hs, he⟩ := List.mem_flatMap.mp he
      obtain ⟨i, hi, rfl⟩ := List.mem_map.mp he
      have hplace : ∃ j ∈ s.references, z = (f.place (p.vertices.getD j .zero)).z ∨
          z = f.bottom (p.vertices.getD j .zero) := ⟨i, hi, hz⟩
      obtain ⟨q, hq, hz⟩ := exists_mem_segmentPoints_iff.mpr hplace
      exact ⟨q, List.mem_flatMap.mpr ⟨s, hs, hq⟩, hz⟩
  | hole f diameter => exact exists_mem_discPoints_iff.trans (by simp [Call.extents])
  | pocket f p => exact exists_mem_discPoints_iff.trans (by simp [Call.extents])
  | pause f => simp [Call.points, Call.extents]

theorem mem_map_touched_iff {job : Job α} {cuts : List (Cut α)} {z : α} :
    z ∈ (job.touched cuts).map Vec.z ↔ ∃ e ∈ job.extents cuts, z = e.1 ∨ z = e.2 := by
  rw [List.mem_map]
  constructor
  · rintro ⟨q, hq, hz⟩
    obtain ⟨c, hc, hq⟩ := List.mem_flatMap.mp hq
    obtain ⟨e, he, hz⟩ := exists_mem_points_iff.mp ⟨q, hq, hz⟩
    exact ⟨e, List.mem_flatMap.mpr ⟨c, hc, he⟩, hz⟩
  · rintro ⟨e, he, hz⟩
    obtain ⟨c, hc, he⟩ := List.mem_flatMap.mp he
    obtain ⟨q, hq, hz⟩ := exists_mem_points_iff.mpr ⟨e, he, hz⟩
    exact ⟨q, List.mem_flatMap.mpr ⟨c, hc, hq⟩, hz⟩

end Bounds
end

/-- No place is cut below the bottom face. -/
theorem Call.floor_le_extents {c : Call ℝ} : ∀ e ∈ c.extents, c.frame.job.floor ≤ e.2 := by
  cases c with
  | comment f text => exact nofun
  | trace f p =>
    intro e he
    obtain ⟨s, -, he⟩ := List.mem_flatMap.mp he
    obtain ⟨i, -, rfl⟩ := List.mem_map.mp he
    exact f.floor_le_bottom _
  | hole f diameter => exact List.forall_mem_singleton.mpr (f.floor_le_bottom _)
  | pocket f p => exact List.forall_mem_singleton.mpr (Carve.floor_le_pocketBottom f _ _)
  | pause f => exact nofun

theorem Job.floor_le_extents {job : Job ℝ} {cuts : List (Cut ℝ)} :
    ∀ e ∈ job.extents cuts, job.floor ≤ e.2 := by
  intro e he
  obtain ⟨c, hc, he⟩ := List.mem_flatMap.mp he
  rw [← Job.frame_job hc]
  exact c.floor_le_extents e he

namespace Bounds

/-- The box of a job reaches below the stock exactly if a surface that is cut from is there, and then
down to the lowest such surface. -/
theorem floor_le_low_iff {job : Job ℝ} {cuts : List (Cut ℝ)} {b : Bounds ℝ}
    (h : ofCuts job cuts = .ok b) :
    ((∀ low ∈ b.z.low, job.floor ≤ low) ↔ ∀ e ∈ job.extents cuts, job.floor ≤ e.1) ∧
    ∀ low ∈ b.z.low, low < job.floor →
      (∃ e ∈ job.extents cuts, low = e.1) ∧ ∀ e ∈ job.extents cuts, low ≤ e.1 := by
  have hlow := (isHull_ofCuts h fun p _ => by simp [Vec.isNaN]).z.low
  have hextents := @Job.floor_le_extents job cuts
  constructor
  · rw [hlow.forall_mem_iff .lesser]
    constructor
    · exact fun hz e he => hz e.1 (mem_map_touched_iff.mpr ⟨e, he, .inl rfl⟩)
    · intro hz v hv
      obtain ⟨e, he, rfl | rfl⟩ := mem_map_touched_iff.mp hv
      · exact hz e he
      · exact hextents e he
  · intro low hmem hbelow
    refine ⟨?_, fun e he => hlow.first hmem (mem_map_touched_iff.mpr ⟨e, he, .inl rfl⟩)⟩
    obtain ⟨e, he, heq | heq⟩ := mem_map_touched_iff.mp (hlow.mem hmem)
    · exact ⟨e, he, heq⟩
    · exact absurd (hextents e he) (not_le.mpr (heq ▸ hbelow))

/-- A line that starts on the stock and ends under it. -/
theorem floor_le_low_iff_under :
    let cuts : List (Cut ℝ) :=
      [.trace ⟨[.zero, ⟨1, 0, -1⟩], [.straight 0 1]⟩ .through .middle none]
    ∃ b, ofCuts .quarterInch cuts = .ok b ∧
      ¬ (∀ low ∈ b.z.low, Job.quarterInch.floor ≤ low) ∧
      ∀ low ∈ b.z.low, low < Job.quarterInch.floor →
        ∃ e ∈ Job.quarterInch.extents cuts, low = e.1 := by
  intro cuts
  have hbox : ofCuts .quarterInch cuts = .ok _ := ofCuts_eq_ok rfl
  obtain ⟨hiff, hlow⟩ := floor_le_low_iff hbox
  refine ⟨_, hbox, fun hall => ?_, fun low hmem hbelow => (hlow low hmem hbelow).1⟩
  let f := Frame.root (Job.quarterInch : Job ℝ)
  have hend : ((f.place ⟨1, 0, -1⟩).z, f.job.floor) ∈ Job.quarterInch.extents cuts :=
    List.mem_cons_of_mem _ List.mem_cons_self
  have hsurface : f.job.floor ≤ (f.place ⟨1, 0, -1⟩).z := hiff.mp hall _ hend
  rw [Frame.place_root, show f.job.floor = -1 / 4 from Job.floor_quarterInch] at hsurface
  norm_num at hsurface

end Bounds
end Toolpath
