import Toolpath.Proofs.Geometry.Level
import Toolpath.Proofs.Traversal.Flattening

/-! Trees whose poses are all positions. Every call in them has the XY plane level. -/
namespace Toolpath

section
variable {α : Type}

mutual
/-- All poses of a tree are positions. -/
def Cut.IsSimple : Cut α → Prop
  | .group poses components _ _ =>
    (∀ pose ∈ poses, ∃ p, pose = .position p) ∧ Cut.IsSimpleAll components
  | _ => True

def Cut.IsSimpleAll : List (Cut α) → Prop
  | [] => True
  | cut :: rest => cut.IsSimple ∧ Cut.IsSimpleAll rest
end

/-- A route that takes positions only, to a call that is placed as its frame is. -/
structure Leg.SimpleRoute [Scalar α] (r : List (Leg α) × (Frame α → Call α)) : Prop where
  positions : ∀ leg ∈ r.1, ∃ p, leg.pose = .position p
  placement : ∀ f, (r.2 f).frame.placement = f.placement

variable [Scalar α]

theorem Frame.placement_sink (f : Frame α) (depth : Depth α) :
    (f.sink depth).placement = f.placement := by
  unfold sink
  split
  · rfl
  · split_ifs <;> rfl

mutual
theorem Cut.simpleRoute_of_mem {cut : Cut α} (h : cut.IsSimple) :
    ∀ r ∈ cut.routes, Leg.SimpleRoute r := by
  match cut with
  | .group poses components unit _ =>
    rw [Cut.IsSimple] at h
    intro r hr
    rw [Cut.routes] at hr
    obtain ⟨pose, hpose, hr⟩ := List.mem_flatMap.mp hr
    obtain ⟨inner, hinner, rfl⟩ := List.mem_map.mp hr
    obtain ⟨hpositions, hplacement⟩ := Cut.simpleRoute_of_mem_all h.2 inner hinner
    refine ⟨fun leg hleg => ?_, hplacement⟩
    rcases List.mem_cons.mp hleg with rfl | hleg
    · exact h.1 pose hpose
    · exact hpositions leg hleg
  | .trace path depth _ _ =>
    rw [Cut.routes, List.forall_mem_singleton]
    exact ⟨by simp, fun f => f.placement_sink depth⟩
  | .hole diameter depth _ =>
    rw [Cut.routes, List.forall_mem_singleton]
    exact ⟨by simp, fun f => f.placement_sink depth⟩
  | .pocket p _ =>
    rw [Cut.routes, List.forall_mem_singleton]
    exact ⟨by simp, fun f => rfl⟩
  | .pause _ =>
    rw [Cut.routes, List.forall_mem_singleton]
    exact ⟨by simp, fun f => rfl⟩
termination_by structural cut

theorem Cut.simpleRoute_of_mem_all {cuts : List (Cut α)} (h : Cut.IsSimpleAll cuts) :
    ∀ r ∈ Cut.routesAll cuts, Leg.SimpleRoute r := by
  match cuts with
  | [] => simp [Cut.routesAll]
  | cut :: rest =>
    rw [Cut.IsSimpleAll] at h
    rw [Cut.routesAll]
    exact List.forall_mem_append.mpr
      ⟨Cut.simpleRoute_of_mem h.1, Cut.simpleRoute_of_mem_all h.2⟩
termination_by structural cuts
end

/-- Where a traversal is not stopped, every leaf it calls is at the end of a route. -/
theorem Cut.exists_route {f : Frame α} {cuts : List (Cut α)}
    (h : (Cut.itineraryAll f cuts).stop = none) {c : Call α}
    (hc : c ∈ (Cut.itineraryAll f cuts).calls) (hleaf : c.isComment = false) :
    ∃ r ∈ Cut.routesAll cuts, ∃ g, f.along r.1 = .ok g ∧ c = r.2 g := by
  rw [Cut.itineraryAll_eq_ofEntries] at h hc
  have hentries := Itinerary.entries_of_stop_eq_none h
  have hends := Cut.leaves_flattenAll (Itinerary.stop_ofEntries_eq_none.mp h)
  rw [hentries, Entry.filterMap_leaf?_calls] at hends
  have hmem : .ok c ∈ f.ends (Cut.routesAll cuts) := by
    rw [← hends]
    exact List.mem_map_of_mem (List.mem_filter.mpr ⟨hc, by rw [hleaf]; rfl⟩)
  obtain ⟨r, hr, hend⟩ := List.mem_map.mp hmem
  cases hg : f.along r.1 with
  | error e => rw [hg] at hend; cases hend
  | ok g =>
    rw [hg] at hend
    exact ⟨r, hr, g, hg, (Except.ok.inj hend).symm⟩

end

theorem Frame.isLevel_leads {f g : Frame ℝ} {leg : Leg ℝ} (hf : f.placement.linear.IsLevel)
    (hleg : ∃ p, leg.pose = .position p) (hg : f.Leads leg g) : g.placement.linear.IsLevel := by
  obtain ⟨p, hpose⟩ := hleg
  have hposition : leg.pose.toPlacement.linear.IsLevel := hpose ▸ p.isLevel
  cases hg with
  | plain room => exact hf.mul hposition
  | @inUnit a pose unit ratio room decoded divided =>
    have hscaled : (f.placement * .scale ratio.toScalar).linear.IsLevel := by
      rw [Placement.mul_scale_linear]
      exact hf.scale _
    exact hscaled.mul hposition

theorem Frame.isLevel_along {f g : Frame ℝ} {route : List (Leg ℝ)}
    (hf : f.placement.linear.IsLevel) (hroute : ∀ leg ∈ route, ∃ p, leg.pose = .position p)
    (hg : f.along route = .ok g) : g.placement.linear.IsLevel := by
  exact of_along (P := fun f => f.placement.linear.IsLevel) isLevel_leads hf hroute hg

/-- All leaves of trees that are placed by positions have the XY plane level. -/
theorem Job.isLevel_of_mem {job : Job ℝ} {cuts : List (Cut ℝ)} (hsimple : Cut.IsSimpleAll cuts)
    (hstop : (job.itinerary cuts).stop = none) {c : Call ℝ}
    (hc : c ∈ (job.itinerary cuts).calls) (hleaf : c.isComment = false) :
    c.frame.placement.linear.IsLevel := by
  obtain ⟨r, hr, g, hg, rfl⟩ := Cut.exists_route hstop hc hleaf
  obtain ⟨hpositions, hplacement⟩ := Cut.simpleRoute_of_mem_all hsimple r hr
  rw [hplacement]
  exact Frame.isLevel_along Linear.IsLevel.identity hpositions hg

end Toolpath
