import Toolpath.Proofs.Geometry.PlaneSimilarity
import Toolpath.Proofs.Traversal.Reached
import Toolpath.Proofs.Traversal.CallRule
import Toolpath.Proofs.Traversal.Simple

/-! Trees by the legs and the outlines in them. What all legs keep holds of the frame of every call,
also of the calls that are made before a traversal is stopped. -/
namespace Toolpath
variable {α : Type}

mutual
/-- All legs of a tree are of one kind, and all paths that are traced in it are of another. -/
def Cut.Each (leg : Leg α → Prop) (outline : Path α → Prop) : Cut α → Prop
  | .group poses components unit _ =>
    (∀ pose ∈ poses, leg ⟨unit, pose⟩) ∧ Cut.EachAll leg outline components
  | .trace path _ _ _ => outline path
  | _ => True

def Cut.EachAll (leg : Leg α → Prop) (outline : Path α → Prop) : List (Cut α) → Prop
  | [] => True
  | cut :: rest => cut.Each leg outline ∧ Cut.EachAll leg outline rest
end

theorem Cut.each_of_mem {leg : Leg α → Prop} {outline : Path α → Prop} {cuts : List (Cut α)}
    (h : Cut.EachAll leg outline cuts) {node : Cut α} (hnode : node ∈ cuts) :
    node.Each leg outline := by
  induction cuts with
  | nil => exact absurd hnode List.not_mem_nil
  | cons cut rest ih =>
    rw [Cut.EachAll] at h
    rcases List.mem_cons.mp hnode with rfl | hnode
    · exact h.1
    · exact ih h.2 hnode

/-- What holds all over a tree holds on the routes into it and at their ends. -/
theorem Cut.OnRoute.each {leg : Leg α → Prop} {outline : Path α → Prop} {cuts : List (Cut α)}
    {route : List (Leg α)} {node : Cut α} (h : OnRoute cuts route node)
    (hcuts : Cut.EachAll leg outline cuts) : (∀ l ∈ route, leg l) ∧ node.Each leg outline := by
  induction h with
  | top mem => exact ⟨by simp, Cut.each_of_mem hcuts mem⟩
  | inner group posed mem ih =>
    obtain ⟨hroute, hgroup⟩ := ih
    obtain ⟨hlegs, hcomponents⟩ := (Cut.Each.eq_1 ..).mp hgroup
    have hlast := List.forall_mem_singleton.mpr (hlegs _ posed)
    exact ⟨List.forall_mem_append.mpr ⟨hroute, hlast⟩, Cut.each_of_mem hcomponents mem⟩

variable [Scalar α]

/-- A property of frames that is kept along legs of one kind. -/
structure LegRule (P : Frame α → Prop) (leg : Leg α → Prop) : Prop where
  leads : ∀ {f l g}, P f → leg l → f.Leads l g → P g
  sink : ∀ {f} depth, P f → P (f.sink depth)

/-- The frame of a call has a property, and the path of the call, if it traces one, another. -/
def Call.Meets (P : Frame α → Prop) (outline : Path α → Prop) (c : Call α) : Prop :=
  P c.frame ∧ ∀ f p, c = .trace f p → outline p

namespace LegRule
variable {P : Frame α → Prop} {leg : Leg α → Prop} {outline : Path α → Prop}

/-- The calls of a tree have the property if all legs of the tree keep it. -/
theorem of_mem_itineraryAll (h : LegRule P leg) {f : Frame α} (hf : P f) (cuts : List (Cut α))
    (hcuts : Cut.EachAll leg outline cuts) {c : Call α}
    (hc : c ∈ (Cut.itineraryAll f cuts).calls) : c.Meets P outline := by
  obtain ⟨route, hends⟩ := Cut.endsRoute_of_mem_calls hc
  obtain ⟨node, hnode, hmakes⟩ := hends.node
  obtain ⟨hroute, heach⟩ := hnode.each hcuts
  constructor
  · obtain ⟨g, hg, hframe⟩ := hends.frame
    have hplace : P g := Frame.of_along h.leads hf hroute hg
    rcases hframe with hframe | ⟨depth, hframe⟩
    · exact hframe ▸ hplace
    · exact hframe ▸ h.sink depth hplace
  · rintro g p rfl
    obtain ⟨depth, side, comment, rfl⟩ := hmakes
    exact heach

end LegRule

theorem Frame.unitScale_sink (f : Frame α) (depth : Depth α) :
    (f.sink depth).unitScale = f.unitScale := by
  unfold sink
  split
  · rfl
  · split_ifs <;> rfl

/-- Plain legs lead to plain frames. -/
theorem Job.legRule (job : Job ℝ) :
    LegRule (fun f => f.IsPlain ∧ f.job = job) (Leg.IsPlain job) where
  leads := by
    rintro f l g ⟨hf, rfl⟩ hl hg
    exact ⟨hf.leads hl hg, Frame.job_of_leads hg⟩
  sink := by
    rintro f depth ⟨hf, rfl⟩
    exact ⟨⟨f.placement_sink depth ▸ hf.placement, f.unitScale_sink depth ▸ hf.unit⟩,
      f.job_sink depth⟩

/-- All calls about cuts on plain legs have plain frames. -/
theorem Job.isPlain_of_mem {job : Job ℝ} {outline : Path ℝ → Prop} {cuts : List (Cut ℝ)}
    (hcuts : Cut.EachAll (Leg.IsPlain job) outline cuts) {c : Call ℝ}
    (hc : c ∈ (job.itinerary cuts).calls) : c.Meets Frame.IsPlain outline := by
  obtain ⟨hframe, hpath⟩ := job.legRule.of_mem_itineraryAll (f := .root job)
    ⟨Frame.isPlain_root job, rfl⟩ cuts hcuts hc
  exact ⟨hframe.1, hpath⟩

end Toolpath
