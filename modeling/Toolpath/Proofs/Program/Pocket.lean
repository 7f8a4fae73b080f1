import Toolpath.Proofs.Geometry.Exact
import Toolpath.Proofs.Plan.Rings
import Toolpath.Proofs.Program.Depth
import Toolpath.Proofs.Program.Sweep

/-! Pockets: the plan of one, and the full circles that it is swept in. -/
namespace Toolpath
open Scalar

namespace Frame
variable (job : Job ℝ) (v : Vec ℝ) (l : ℝ)

@[simp] theorem place_root : (root job).place v = v := Placement.identity_apply v

@[simp] theorem length_root : (root job).length l = l := by
  rw [length, root, Placement.lengthScale_identity, mul_one]

@[simp] theorem depth_root : (root job).depth l = l := by
  rw [depth, root, Placement.depthScale_identity, mul_one]

end Frame

theorem Job.tipWidth_quarterInch : (Job.quarterInch : Job ℝ).bit.tipWidth = 1 / 8 := by
  change (ofRatio 1 8 : ℝ) = 1 / 8
  norm_num [ofRatio_real]

namespace Carve
section Plan
variable {α : Type} [Scalar α]

/-- How much stock there is below the center of a pocket. -/
def stockBelow (f : Frame α) : α := (f.place .zero).z - f.job.floor

/-- The plan of a pocket. Neither its edge nor its bottom is deeper than the stock. -/
def pocketPlan (f : Frame α) (p : Pocket α) : Except (RangeError α) (PocketPlan α) :=
  PocketPlan.new (f.length p.diameter / two) (f.length p.bottomDiameter / two)
    (lesser (f.depth p.edgeDepth) (stockBelow f)) (pocketDepth f (stockBelow f) p.bottomDepth)
    (ringStep f.job.bit.tipWidth)

/-- The rings that a pocket is carved in. There are none where there is no stock, or no plan. -/
def carvedRings (f : Frame α) (p : Pocket α) : List (Ring α) :=
  if p.cutsBottom ∨ stockBelow f ≤ 0 then []
  else
    match pocketPlan f p with
    | .error _ => []
    | .ok plan => plan.rings

/-- A ring in the machine's coordinates, from its start all the way around. -/
def ringSweep (f : Frame α) (r : Ring α) : Sweep α :=
  ⟨ringStart f (f.place .zero) r, ringStart f (f.place .zero) r, f.place .zero⟩

theorem pocket_eq (o : Options α) (f : Frame α) (p : Pocket α) : pocket o f p =
    if p.cutsBottom then .fail .flatBottom
    else if stockBelow f ≤ 0 then pure ()
    else
      match pocketPlan f p with
      | .error e => .fail (.range e)
      | .ok plan => .issue (rings o f (f.place .zero) 0 plan.rings ++ toSafeHeight o) := rfl

theorem pocket_of_plan {f : Frame α} {p : Pocket α} {plan : PocketPlan α}
    (hopen : p.cutsBottom = false) (habove : ¬ stockBelow f ≤ 0)
    (hplan : pocketPlan f p = .ok plan) (o : Options α) :
    pocket o f p = .issue (rings o f (f.place .zero) 0 plan.rings ++ toSafeHeight o) := by
  rw [pocket_eq, if_neg (by simp [hopen]), if_neg habove, hplan]

theorem pocket_ok {f : Frame α} {p : Pocket α} {plan : PocketPlan α}
    (hopen : p.cutsBottom = false) (habove : ¬ stockBelow f ≤ 0)
    (hplan : pocketPlan f p = .ok plan) (o : Options α) : (pocket o f p).result = .ok () := by
  rw [pocket_of_plan hopen habove hplan, Block.result_issue]

theorem carvedRings_of_plan {f : Frame α} {p : Pocket α} {plan : PocketPlan α}
    (hopen : p.cutsBottom = false) (habove : ¬ stockBelow f ≤ 0)
    (hplan : pocketPlan f p = .ok plan) : carvedRings f p = plan.rings := by
  rw [carvedRings, if_neg (by simp [hopen, habove]), hplan]

/-- A pocket is carved by a plan that is in order, or not at all. -/
theorem pocket_cases (f : Frame α) (p : Pocket α) :
    (∃ plan, p.cutsBottom = false ∧ ¬ stockBelow f ≤ 0 ∧ pocketPlan f p = .ok plan) ∨
      carvedRings f p = [] ∧ ∀ o : Options α, (pocket o f p).commands = [] := by
  by_cases hflat : p.cutsBottom = true
  · exact .inr ⟨if_pos (.inl hflat), fun o => by rw [pocket_eq, if_pos hflat]; rfl⟩
  · by_cases hmost : stockBelow f ≤ 0
    · refine .inr ⟨if_pos (.inr hmost), fun o => ?_⟩
      rw [pocket_eq, if_neg hflat, if_pos hmost]
      rfl
    · cases hplan : pocketPlan f p with
      | ok plan => exact .inl ⟨plan, Bool.eq_false_iff.mpr hflat, hmost, rfl⟩
      | error e =>
        refine .inr ⟨?_, fun o => ?_⟩
        · rw [carvedRings, if_neg (not_or.mpr ⟨hflat, hmost⟩), hplan]
        · rw [pocket_eq, if_neg hflat, if_neg hmost, hplan]
          rfl

theorem commands_pocket_of_plan {f : Frame α} {p : Pocket α} {plan : PocketPlan α}
    (hopen : p.cutsBottom = false) (habove : ¬ stockBelow f ≤ 0)
    (hplan : pocketPlan f p = .ok plan) (o : Options α) : (pocket o f p).commands =
      rings o f (f.place .zero) 0 (carvedRings f p) ++ toSafeHeight o := by
  rw [pocket_of_plan hopen habove hplan, carvedRings_of_plan hopen habove hplan,
    Block.commands_issue]

end Plan

open Machine
variable {o : Options ℝ} {s : Style ℝ} {f : Frame ℝ} {p : Pocket ℝ} {plan : PocketPlan ℝ}

/-- The tool is at the start of a ring when it enters it. -/
theorem landed_ringEntry (o : Options ℝ) (s : Style ℝ) (m : Machine ℝ) (number : Nat)
    (start : Vec ℝ) : (m.run s (ringEntry o number start)).1.position = start := by
  unfold ringEntry
  split_ifs
  · exact landed_approach o s m start
  · rfl

@[simp] theorem sweeps_ringEntry (m : Machine ℝ) (number : Nat) (start : Vec ℝ) :
    m.sweeps s (ringEntry o number start) = [] := by
  unfold ringEntry
  split_ifs
  · exact sweeps_approach m start
  · rfl

theorem sweeps_rings (f : Frame ℝ) (number : Nat) (l : List (Ring ℝ)) (m : Machine ℝ) :
    m.sweeps s (rings o f (f.place .zero) number l) = l.map (ringSweep f) := by
  induction l generalizing number m with
  | nil => rfl
  | cons r rest ih =>
    have hentry := landed_ringEntry o s m number (ringStart f (f.place .zero) r)
    rw [rings_cons, sweeps_append, sweeps_append, ih, sweeps_ringEntry, List.nil_append,
      List.map_cons]
    change [(⟨(m.run s (ringEntry o number _)).1.position, _, _⟩ : Sweep ℝ)] ++ _ = _
    rw [hentry]
    rfl

theorem sweeps_pocket (o : Options ℝ) (s : Style ℝ) (m : Machine ℝ) (f : Frame ℝ) (p : Pocket ℝ) :
    m.sweeps s (pocket o f p).commands = (carvedRings f p).map (ringSweep f) := by
  rcases pocket_cases f p with ⟨plan, hopen, habove, hplan⟩ | ⟨hrings, hcommands⟩
  · rw [commands_pocket_of_plan hopen habove hplan, sweeps_append, sweeps_rings,
      sweeps_toSafeHeight, List.append_nil]
  · rw [hrings, hcommands]
    rfl

theorem radius_ringSweep (f : Frame ℝ) (r : Ring ℝ) : (ringSweep f r).radius = |r.radius| := by
  have hx : ((ringSweep f r).start - (ringSweep f r).center).x = 0 := sub_self _
  have hy : ((ringSweep f r).start - (ringSweep f r).center).y = -r.radius :=
    sub_sub_cancel_left _ _
  rw [Sweep.radius, Vec.normXY_real, hx, hy, mul_zero, zero_add, Real.sqrt_mul_self_eq_abs, abs_neg]

theorem finalRadius_ringSweep (f : Frame ℝ) (r : Ring ℝ) :
    (ringSweep f r).finalRadius = |r.radius| := radius_ringSweep f r

/-- Holding a depth to that of the stock is holding the height to the bottom face. -/
theorem sub_min_sub (c x floor : ℝ) : c - min x (c - floor) = max (c - x) floor := by
  rcases le_total x (c - floor) with h | h
  · rw [min_eq_left h, max_eq_left (by linarith)]
  · rw [min_eq_right h, max_eq_right (by linarith), sub_sub_cancel]

theorem stockBelow_quarterInch : stockBelow (.root (Job.quarterInch : Job ℝ)) = 1 / 4 := by
  rw [stockBelow, Frame.place_root]
  change (0 : ℝ) - (Job.quarterInch : Job ℝ).floor = 1 / 4
  rw [Job.floor_quarterInch]
  norm_num

theorem not_stockBelow_quarterInch_le : ¬ stockBelow (.root (Job.quarterInch : Job ℝ)) ≤ 0 := by
  rw [stockBelow_quarterInch]
  norm_num

theorem pocketPlan_quarterInch {diameter base : ℝ} (edge bottom : ℝ) (hbase : 0 ≤ base)
    (hrim : base ≤ diameter) :
    pocketPlan (.root .quarterInch) ⟨diameter, edge, base, .down bottom, false⟩ =
      .ok ⟨diameter / 2, base / 2, min edge (1 / 4), min bottom (1 / 4), 1 / 32⟩ := by
  have htip : (Frame.root (Job.quarterInch : Job ℝ)).job.bit.tipWidth = 1 / 8 :=
    Job.tipWidth_quarterInch
  have hstep : ringStep (1 / 8 : ℝ) = 1 / 32 := by
    unfold ringStep ofInt
    dsimp only
    rw [lesser_real, ofRatio_real, ofRatio_real]
    norm_num
  have hradii : ¬ (base / 2 < 0 ∨ diameter / 2 < base / 2) := by
    rw [not_or, not_lt, not_lt]
    constructor <;> linarith
  have hpositive : ¬ (isNaN (1 / 32 : ℝ) = true ∨ (1 / 32 : ℝ) ≤ 0) := by
    rw [isNaN_real]
    norm_num
  rw [pocketPlan, stockBelow_quarterInch, htip, hstep, pocketDepth, lesser_real, lesser_real,
    two_real]
  simp only [Frame.length_root, Frame.depth_root]
  rw [PocketPlan.new, if_neg hradii, if_neg hpositive]

theorem sound_of_pocketPlan (hplan : pocketPlan f p = .ok plan) : plan.Sound :=
  (PocketPlan.sound_of_new hplan).2

/-- No ring of a plan is deeper than the stock. -/
theorem depth_le_stockBelow (hplan : pocketPlan f p = .ok plan) {r : Ring ℝ}
    (hr : r ∈ plan.rings) : r.depth ≤ stockBelow f := by
  obtain ⟨hnew, hsound⟩ := PocketPlan.sound_of_new hplan
  obtain ⟨hin, hout, hdepth⟩ := PocketPlan.of_mem_rings hsound hr
  have hedge : plan.edgeDepth ≤ stockBelow f := by
    rw [hnew, lesser_real]
    exact min_le_right _ _
  have hbottom : plan.bottomDepth ≤ stockBelow f := by
    rw [hnew]
    change pocketDepth f (stockBelow f) p.bottomDepth ≤ stockBelow f
    cases p.bottomDepth with
    | through => exact le_rfl
    | down d => exact (lesser_real _ _).trans_le (min_le_right _ _)
  rw [hdepth]
  exact (PocketPlan.wallDepth_between hin hout).2.trans (max_le hedge hbottom)

/-- A ring is carved at its own depth: no ring has to be raised to the bottom face. -/
theorem height_ringStart (hplan : pocketPlan f p = .ok plan) {r : Ring ℝ} (hr : r ∈ plan.rings) :
    (ringStart f (f.place .zero) r).z = (f.place .zero).z - r.depth := by
  have hdepth := depth_le_stockBelow hplan hr
  unfold stockBelow at hdepth
  change f.aboveFloor ((f.place .zero).z - r.depth) = _
  unfold Frame.aboveFloor
  rw [greater_real]
  exact max_eq_left (by linarith)

end Carve
end Toolpath
