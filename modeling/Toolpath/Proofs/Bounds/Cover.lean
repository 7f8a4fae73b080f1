import Toolpath.Bounds
import Toolpath.Proofs.Geometry.Exact
import Toolpath.Proofs.Traversal.Itinerary

/-! Boxes over exact coordinates. What a box has covered stays inside, and so does all that lies
between. -/
namespace Toolpath
open Scalar

namespace Span
variable {s : Span ℝ} {u v w : ℝ}

/-- A number lies between the ends of a span. -/
def Contains (s : Span ℝ) (v : ℝ) : Prop :=
  ∃ low high, s.low = some low ∧ s.high = some high ∧ low ≤ v ∧ v ≤ high

theorem contains_cover (s : Span ℝ) (v : ℝ) : (s.cover v).Contains v := by
  obtain ⟨low, high⟩ := s
  cases low <;> cases high <;>
    simp [Contains, cover, widen, lesser_real, greater_real]

theorem Contains.cover (h : s.Contains u) (v : ℝ) : (s.cover v).Contains u := by
  obtain ⟨low, high, hlow, hhigh, hu, hu'⟩ := h
  refine ⟨min low v, max high v, ?_, ?_, min_le_of_left_le hu, le_max_of_le_left hu'⟩
  · simp [Span.cover, widen, hlow, lesser_real]
  · simp [Span.cover, widen, hhigh, greater_real]

theorem Contains.between (hu : s.Contains u) (hw : s.Contains w) (huv : u ≤ v) (hvw : v ≤ w) :
    s.Contains v := by
  obtain ⟨low, high, hlow, hhigh, hlu, -⟩ := hu
  obtain ⟨low', high', -, hhigh', -, hwh⟩ := hw
  obtain rfl : high = high' := Option.some.inj (hhigh.symm.trans hhigh')
  exact ⟨low, high, hlow, hhigh, hlu.trans huv, hvw.trans hwh⟩

theorem Contains.within (hu : s.Contains u) (hw : s.Contains w) (hlow : min u w ≤ v)
    (hhigh : v ≤ max u w) : s.Contains v := by
  rcases le_total u w with h | h
  · rw [min_eq_left h] at hlow
    rw [max_eq_right h] at hhigh
    exact hu.between hw hlow hhigh
  · rw [min_eq_right h] at hlow
    rw [max_eq_left h] at hhigh
    exact hw.between hu hlow hhigh

/-- Both ends of an interval are in a span, so whatever is no farther from its middle is. -/
theorem Contains.of_abs_le {c r : ℝ} (hlow : s.Contains (c - r)) (hhigh : s.Contains (c + r))
    (h : |v - c| ≤ |r|) : s.Contains v := by
  obtain ⟨hleft, hright⟩ := abs_le.mp h
  rcases abs_cases r with ⟨hr, -⟩ | ⟨hr, -⟩
  · exact hlow.between hhigh (by linarith) (by linarith)
  · exact hhigh.between hlow (by linarith) (by linarith)

end Span

namespace Bounds
variable {b : Bounds ℝ} {p : Vec ℝ}

/-- A point lies over or under a box. -/
structure ContainsXY (b : Bounds ℝ) (p : Vec ℝ) : Prop where
  x : b.x.Contains p.x
  y : b.y.Contains p.y

/-- A point lies inside a box. -/
structure Contains (b : Bounds ℝ) (p : Vec ℝ) : Prop extends b.ContainsXY p where
  z : b.z.Contains p.z

theorem contains_cover (b : Bounds ℝ) (p : Vec ℝ) : (b.cover p).Contains p where
  x := b.x.contains_cover p.x
  y := b.y.contains_cover p.y
  z := b.z.contains_cover p.z

theorem Contains.cover (h : b.Contains p) (q : Vec ℝ) : (b.cover q).Contains p where
  x := h.x.cover q.x
  y := h.y.cover q.y
  z := h.z.cover q.z

theorem Contains.foldl_cover (h : b.Contains p) (points : List (Vec ℝ)) :
    (points.foldl Bounds.cover b).Contains p := by
  induction points generalizing b with
  | nil => exact h
  | cons q rest ih => exact ih (h.cover q)

theorem contains_foldl_cover {points : List (Vec ℝ)} (h : p ∈ points) (b : Bounds ℝ) :
    (points.foldl Bounds.cover b).Contains p := by
  induction points generalizing b with
  | nil => cases h
  | cons q rest ih =>
    rcases List.mem_cons.mp h with rfl | h
    · exact (b.contains_cover p).foldl_cover rest
    · exact ih h (b.cover q)

/-- A box around a disc lies around all points that are no farther off on either axis. -/
theorem containsXY_of_disc {center : Vec ℝ} {radius top bottom : ℝ}
    (h : ∀ q ∈ discPoints center radius top bottom, b.Contains q)
    (hx : |p.x - center.x| ≤ |radius|) (hy : |p.y - center.y| ≤ |radius|) : b.ContainsXY p := by
  have hlow := h ⟨center.x - radius, center.y - radius, top⟩ (by simp [discPoints])
  have hhigh := h ⟨center.x + radius, center.y + radius, top⟩ (by simp [discPoints])
  exact ⟨hlow.x.of_abs_le hhigh.x hx, hlow.y.of_abs_le hhigh.y hy⟩

theorem contains_top_of_disc {center : Vec ℝ} {radius top bottom : ℝ}
    (h : ∀ q ∈ discPoints center radius top bottom, b.Contains q) : b.z.Contains top :=
  (h ⟨center.x - radius, center.y - radius, top⟩ (by simp [discPoints])).z

theorem contains_bottom_of_disc {center : Vec ℝ} {radius top bottom : ℝ}
    (h : ∀ q ∈ discPoints center radius top bottom, b.Contains q) : b.z.Contains bottom :=
  (h ⟨center.x - radius, center.y - radius, bottom⟩ (by simp [discPoints])).z

end Bounds

section
variable {α : Type} [Scalar α]

/-- The points that a box takes in for a call. -/
def Call.points : Call α → List (Vec α)
  | .trace f p => Bounds.tracePoints f p
  | .hole f diameter => Bounds.holePoints f diameter
  | .pocket f p => Bounds.pocketPoints f p
  | _ => []

namespace Bounds

theorem run_make (c : Call α) (b : Bounds α) :
    (backend.make c).run.run b = (.ok (), c.points.foldl cover b) := by
  cases c <;> rfl

theorem run_forM_make (calls : List (Call α)) (b : Bounds α) :
    (calls.forM backend.make).run.run b = (.ok (), (calls.flatMap Call.points).foldl cover b) := by
  induction calls generalizing b with
  | nil => rfl
  | cons c rest ih =>
    change (backend.make c >>= fun _ => rest.forM backend.make).run.run b = _
    rw [run_bind_of_ok (run_make c b), ih, List.flatMap_cons, List.foldl_append]

theorem run_follow (it : Itinerary α) (b : Bounds α) :
    (backend.follow it).run.run b =
      (match it.stop with
        | none => .ok ()
        | some e => .error e, (it.calls.flatMap Call.points).foldl cover b) := by
  unfold Backend.follow
  rw [run_bind_of_ok (run_forM_make it.calls b)]
  cases it.stop <;> rfl

/-- Where the traversal does not fail there is a box, and it has taken in the points of every
call. -/
theorem ofCuts_eq_ok_iff {job : Job α} {cuts : List (Cut α)} {b : Bounds α} :
    ofCuts job cuts = .ok b ↔ (job.itinerary cuts).stop = none ∧
      b = ((job.itinerary cuts).calls.flatMap Call.points).foldl cover {} := by
  unfold ofCuts Job.itinerary
  rw [Backend.visitAll_eq_follow, run_follow]
  cases (Cut.itineraryAll (.root job) cuts).stop <;> simp [eq_comm]

theorem ofCuts_eq_ok {job : Job α} {cuts : List (Cut α)} (h : (job.itinerary cuts).stop = none) :
    ofCuts job cuts =
      .ok (((job.itinerary cuts).calls.flatMap Call.points).foldl cover {}) :=
  ofCuts_eq_ok_iff.mpr ⟨h, rfl⟩

end Bounds
end
end Toolpath
