import Toolpath.Proofs.Geometry.Chain
import Toolpath.Proofs.Program.UnitChange
import Toolpath.Proofs.Traversal.Checked
import Toolpath.Proofs.Traversal.Raised
import Toolpath.Proofs.Traversal.Reached
import Toolpath.Proofs.Traversal.Simple

/-! The placements of groups in each other. A frame is placed by all poses and changes of units on
the way to it, and two groups in each other are one group at the products of their poses. -/
namespace Toolpath
open Scalar

namespace Frame

/-- What the legs of a route put one inside the other: the change of units, where one is declared,
and then the pose. -/
noncomputable def chain (f : Frame ℝ) : List (Leg ℝ) → List (Placement ℝ)
  | [] => []
  | leg :: rest =>
    match f.descend leg with
    | .error _ => []
    | .ok child =>
      (leg.unit.map fun _ => .scale (child.unitScale.toScalar / f.unitScale.toScalar)).toList ++
        leg.pose.toPlacement :: child.chain rest

/-- The frame is placed by placements in each other. It is a mirror image exactly if an odd number
of them are, and none shrinks space to less. -/
structure IsPlacedBy (f : Frame ℝ) (ts : List (Placement ℝ)) : Prop where
  placement : f.placement = .chain ts
  isMirroring : (∀ t ∈ ts, t.determinant ≠ 0) →
    (f.placement.isMirroring = true ↔ Odd (ts.countP Placement.isMirroring))

variable {f g : Frame ℝ} {route : List (Leg ℝ)}

theorem IsPlacedBy.of_placement {ts : List (Placement ℝ)} (h : f.placement = .chain ts) :
    f.IsPlacedBy ts where
  placement := h
  isMirroring hts := h ▸ Placement.isMirroring_chain hts

theorem chain_cons {child : Frame ℝ} {leg : Leg ℝ} (h : f.Leads leg child) (rest : List (Leg ℝ)) :
    f.chain (leg :: rest) =
      (leg.unit.map fun _ => .scale (child.unitScale.toScalar / f.unitScale.toScalar)).toList ++
        leg.pose.toPlacement :: child.chain rest := by
  rw [chain, descend_eq_ok.mpr h]

/-- A leg takes its part of the chain into the placement. -/
theorem Leads.chain {child : Frame ℝ} {leg : Leg ℝ} (h : f.Leads leg child)
    (rest : List (Leg ℝ)) : f.placement * .chain (f.chain (leg :: rest)) =
      child.placement * .chain (child.chain rest) := by
  rw [chain_cons h]
  cases h with
  | plain room => exact (Placement.mul_assoc _ _ _).symm
  | @inUnit a pose unit ratio room decoded divided =>
    have hratio : (ratio.toScalar : ℝ) = unit.toScalar / f.unitScale.toScalar :=
      Ratio.of_div divided
    simp only [Option.map_some, Option.toList_some, List.cons_append, List.nil_append,
      Placement.chain, ← hratio, Placement.mul_assoc]

theorem placement_along (h : f.along route = .ok g) :
    g.placement = f.placement * .chain (f.chain route) := by
  induction route generalizing f with
  | nil => rw [chain, Placement.chain, Placement.mul_identity, Except.ok.inj h]
  | cons leg rest ih =>
    obtain ⟨child, hchild, hrest⟩ := along_cons_eq_ok.mp h
    rw [hchild.chain, ih hrest]

theorem isPlacedBy_along {job : Job ℝ} (h : (root job).along route = .ok f) :
    f.IsPlacedBy ((root job).chain route) := by
  have hplacement := placement_along h
  exact .of_placement (hplacement.trans (Placement.identity_mul _))

/-- Without changes of units the chain is the poses of the route. -/
theorem chain_of_poses (h : f.along route = .ok g) (hunit : ∀ leg ∈ route, leg.unit = none) :
    f.chain route = route.map (·.pose.toPlacement) := by
  induction route generalizing f with
  | nil => rfl
  | cons leg rest ih =>
    obtain ⟨child, hchild, hrest⟩ := along_cons_eq_ok.mp h
    obtain ⟨hleg, hunits⟩ := List.forall_mem_cons.mp hunit
    rw [chain_cons hchild, hleg]
    exact congrArg (leg.pose.toPlacement :: ·) (ih hrest hunits)

end Frame

/-- The poses of a group in another one, as seen from outside both. Those of the outer group vary
slowest. -/
def Pose.products {α : Type} [Scalar α] (outer inner : List (Pose α)) : List (Pose α) :=
  outer.flatMap fun t => inner.map fun u => .ofPlacement (t.toPlacement * u.toPlacement)

theorem Frame.raised_inside_inside (base : Frame ℝ) (t u : Placement ℝ) :
    ((base.inside t).inside u).Raised (base.inside (t * u)) where
  unnested := congrArg (fun placement => { base with placement, nesting := 0 })
    (Placement.mul_assoc base.placement t u).symm
  nesting_le := Nat.le_succ _

/-- A group that is all that another one holds, at one pose of the other one after another. -/
theorem Itinerary.raised_products (base : Frame ℝ) (outer inner : List (Pose ℝ))
    (components : List (Cut ℝ)) :
    (repeated base outer [.group inner components none none]).Raised
      (repeated base (Pose.products outer inner) components) := by
  induction outer with
  | nil => exact fun _ => ⟨rfl, rfl⟩
  | cons t rest ih =>
    by_cases hroom : base.nesting < Frame.nestingLimit
    · have hgroup : Cut.itineraryAll (base.inside t.toPlacement)
          [.group inner components none none] =
            repeated (base.inside t.toPlacement) inner components := by
        rw [Cut.itineraryAll, Cut.itineraryAll, append_empty, Cut.itinerary_group rfl]
        rfl
      have hproducts : Pose.products (t :: rest) inner =
          (inner.map fun u => .ofPlacement (t.toPlacement * u.toPlacement)) ++
            Pose.products rest inner := List.flatMap_cons
      rw [repeated_cons hroom, hgroup, hproducts, repeated_append]
      refine (raised_repeated (fun h => Cut.raised_itineraryAll h components) ?_).append ih
      rw [List.forall₂_map_right_iff, List.forall₂_same]
      exact fun u _ => base.raised_inside_inside t.toPlacement u.toPlacement
    · rw [repeated_cons_of_deep hroom]
      exact raised_of_tooDeep _ _

/-- Groups in each other, and one group at the products of their poses. -/
theorem Cut.raised_products (f : Frame ℝ) (outer inner : List (Pose ℝ))
    (components : List (Cut ℝ)) (unit : Option Amount) (comment : Option String) :
    ((Cut.group outer [.group inner components none none] unit comment).itinerary f).Raised
      ((Cut.group (Pose.products outer inner) components unit comment).itinerary f) := by
  have hremark := Itinerary.raised_remark (⟨rfl, le_rfl⟩ : f.Raised f) comment
  cases hu : f.inUnit unit with
  | error e =>
    rw [Cut.itinerary.eq_def, Cut.itinerary.eq_def]
    simp only [hu]
    exact hremark.append (Itinerary.raised_stopped _)
  | ok base =>
    rw [Cut.itinerary_group hu, Cut.itinerary_group hu]
    exact hremark.append (Itinerary.raised_products base outer inner components)

theorem Frame.rescaled_unnested (f : Frame ℝ) : Rescaled f.job f.job 1 1 f f.unnested :=
  have h := f.rescaled_one
  { pos := h.pos, job := rfl, job' := rfl, placement := h.placement, unit := h.unit,
    depthOffset := h.depthOffset, through := h.through }

/-- How deep a call is made does not show in what is seen of its frame. -/
theorem Call.rescaled_unnested (c : Call ℝ) :
    Rescaled c.frame.job c.frame.job 1 1 c c.unnested := by
  have hmatches (f : Frame ℝ) : f.Matches 1 1 f.unnested :=
    f.rescaled_unnested.matches f.job.rescaled_one
  cases c with
  | comment f text => exact ⟨rfl, rfl, .inl (.comment (hmatches f) text)⟩
  | trace f p =>
    have htrace := Matches.trace (hmatches f) p
    rw [Path.scaled_one] at htrace
    exact ⟨rfl, rfl, .inl htrace⟩
  | hole f diameter =>
    have hhole := Matches.hole (hmatches f) diameter
    rw [mul_one] at hhole
    exact ⟨rfl, rfl, .inl hhole⟩
  | pocket f p =>
    have hpocket := Matches.pocket (hmatches f) p
    rw [Pocket.scaled_one] at hpocket
    exact ⟨rfl, rfl, .inl hpocket⟩
  | pause f => exact ⟨rfl, rfl, .inl (.pause (hmatches f))⟩

/-- A backend that goes by anything but the depth cannot tell the two nodes apart. -/
theorem Backend.visit_eq_of_raised {σ ε : Type} {b : Backend ℝ σ ε} {f : Frame ℝ} {x y : Cut ℝ}
    (h : (x.itinerary f).Raised (y.itinerary f))
    (hdepth : ∀ limit, (x.itinerary f).stop ≠ some (.nestedTooDeep limit))
    (hb : ∀ c, b.make c.unnested = b.make c) : b.visit f y = b.visit f x := by
  obtain ⟨hcalls, hstop⟩ := h hdepth
  have hmake (l : List (Call ℝ)) : l.forM b.make = (l.map Call.unnested).forM b.make := by
    simp only [List.forM_eq_forM, List.forM_map, hb]
  rw [visit_eq_follow, visit_eq_follow, follow, follow, hstop, hmake, hcalls, ← hmake]

/-- Placements are composed as maps are, and determinants are multiplied, so that a chain of
placements that are not singular is a mirror image exactly if an odd number of them are. All frames
of a traversal are placed by such a chain: the poses and the changes of units on the way. A group
that is all that another one holds, and has neither unit nor comment, might as well not be there:
one group at the products of the poses makes the same calls, unless the limit on groups is met. -/
theorem placements_compose :
    (∀ (a b c : Placement ℝ) (p : Vec ℝ), (a * b).apply p = a.apply (b.apply p) ∧
      a * b * c = a * (b * c) ∧ .identity * a = a ∧ a * .identity = a ∧
      (a * b).determinant = a.determinant * b.determinant) ∧
    (∀ ts : List (Placement ℝ), (∀ t ∈ ts, t.determinant ≠ 0) →
      ((Placement.chain ts).isMirroring = true ↔ Odd (ts.countP Placement.isMirroring))) ∧
    (∀ (job : Job ℝ) (route : List (Leg ℝ)) f, (Frame.root job).along route = .ok f →
      f.IsPlacedBy ((Frame.root job).chain route) ∧
      ((∀ leg ∈ route, leg.unit = none) →
        (Frame.root job).chain route = route.map (·.pose.toPlacement))) ∧
    (∀ (job : Job ℝ) (σ ε : Type) (b : Backend ℝ σ ε) cuts s, ∀ c ∈ b.calls (.root job) cuts s,
      ∃ route, c.EndsRoute (.root job) cuts route ∧
        c.frame.IsPlacedBy ((Frame.root job).chain route)) ∧
    ∀ (f : Frame ℝ) (outer inner : List (Pose ℝ)) components unit comment nested merged,
      nested = Cut.group outer [.group inner components none none] unit comment →
      merged = Cut.group (Pose.products outer inner) components unit comment →
      (∀ limit, (nested.itinerary f).stop ≠ some (.nestedTooDeep limit)) →
        (merged.itinerary f).calls.map Call.unnested =
          (nested.itinerary f).calls.map Call.unnested ∧
        (merged.itinerary f).stop = (nested.itinerary f).stop ∧
        (∀ (σ ε : Type) (b : Backend ℝ σ ε), (∀ c, b.make c.unnested = b.make c) →
          b.visit f merged = b.visit f nested) ∧
        (∀ o, (Carve.backend o).visit f merged = (Carve.backend o).visit f nested) ∧
        Bounds.backend.visit f merged = Bounds.backend.visit f nested := by
  refine ⟨fun a b c p => ?_, fun ts => Placement.isMirroring_chain, fun job route f hf => ?_,
    fun job σ ε b cuts s c hc => ?_, ?_⟩
  · exact ⟨Placement.apply_mul a b p, Placement.mul_assoc a b c, Placement.identity_mul a,
      Placement.mul_identity a, Placement.determinant_mul a b⟩
  · exact ⟨Frame.isPlacedBy_along hf, Frame.chain_of_poses hf⟩
  · obtain ⟨route, hroute⟩ :=
      Cut.endsRoute_of_mem_calls ((b.prefix_itinerary (.root job) cuts s).subset hc)
    obtain ⟨f, hf, hframe⟩ := hroute.frame
    have hplacement : c.frame.placement = f.placement := by
      rcases hframe with hframe | ⟨depth, hframe⟩
      · rw [hframe]
      · rw [hframe, f.placement_sink]
    exact ⟨route, hroute, .of_placement (hplacement.trans (Frame.isPlacedBy_along hf).placement)⟩
  · rintro f outer inner components unit comment nested merged rfl rfl hdepth
    have hraised := Cut.raised_products f outer inner components unit comment
    obtain ⟨hcalls, hstop⟩ := hraised hdepth
    refine ⟨hcalls, hstop, fun σ ε b hb => Backend.visit_eq_of_raised hraised hdepth hb,
      fun o => Backend.visit_eq_of_raised hraised hdepth fun c => ?_,
      Backend.visit_eq_of_raised hraised hdepth fun c => ?_⟩
    · exact (Carve.make_eq_of_rescaled one_ne_zero o c.rescaled_unnested).symm
    · exact (Bounds.make_eq_of_rescaled c.rescaled_unnested).symm

/-- The mirror image from left to right. -/
def Pose.flip : Pose ℝ := .rows ⟨-1, 0, 0⟩ 0 ⟨0, 1, 0⟩ 0 ⟨0, 0, 1⟩ 0

theorem Pose.determinant_flip : flip.toPlacement.determinant = -1 := by
  norm_num [flip, toPlacement, Placement.determinant, Linear.determinant]

/-- Two mirror images in each other are none, and three are one. A hole in the two is a hole below
their product. -/
theorem placements_compose_flips :
    (Placement.chain [Pose.flip.toPlacement, Pose.flip.toPlacement]).isMirroring = false ∧
    (∃ f, (Frame.root (.quarterInch : Job ℝ)).along
      [⟨none, .flip⟩, ⟨none, .flip⟩, ⟨none, .flip⟩] = .ok f ∧ f.placement.isMirroring = true) ∧
    Bounds.backend.visit (.root .quarterInch)
        (.group (Pose.products [.flip] [.flip]) [.hole 1 .through none] none none) =
      Bounds.backend.visit (.root .quarterInch)
        (.group [.flip] [.group [.flip] [.hole 1 .through none] none none] none none) := by
  obtain ⟨-, hparity, halong, -, hmerged⟩ := placements_compose
  have hflip : Pose.flip.toPlacement.isMirroring = true := by
    rw [Placement.isMirroring_iff, Pose.determinant_flip]
    norm_num
  have hregular (n : ℕ) :
      ∀ t ∈ List.replicate n Pose.flip.toPlacement, t.determinant ≠ 0 := by
    intro t ht
    rw [List.eq_of_mem_replicate ht, Pose.determinant_flip]
    norm_num
  refine ⟨?_, ?_, ?_⟩
  · have htwo := hparity _ (hregular 2)
    rw [List.countP_replicate, if_pos hflip] at htwo
    rw [Bool.eq_false_iff, ne_eq]
    exact htwo.not.mpr (by decide)
  · have hroom : ∀ n < 3, n < Frame.nestingLimit := by decide
    obtain ⟨f, hf⟩ : ∃ f, (Frame.root (.quarterInch : Job ℝ)).along
        [⟨none, .flip⟩, ⟨none, .flip⟩, ⟨none, .flip⟩] = .ok f :=
      ⟨_, Frame.along_cons_eq_ok.mpr ⟨_, .plain (hroom 0 (by decide)),
        Frame.along_cons_eq_ok.mpr ⟨_, .plain (hroom 1 (by decide)),
          Frame.along_cons_eq_ok.mpr ⟨_, .plain (hroom 2 (by decide)), rfl⟩⟩⟩⟩
    obtain ⟨hplaced, hposes⟩ := halong _ _ f hf
    have hthree := hplaced.isMirroring
    rw [hposes (by simp)] at hthree
    refine ⟨f, hf, (hthree (hregular 3)).mpr ?_⟩
    change Odd ((List.replicate 3 Pose.flip.toPlacement).countP Placement.isMirroring)
    rw [List.countP_replicate, if_pos hflip]
    decide
  · have hsame := hmerged (.root .quarterInch) [.flip] [.flip] [.hole 1 .through none] none none
      _ _ rfl rfl (fun limit h => nomatch h)
    exact hsame.2.2.2.2

end Toolpath
