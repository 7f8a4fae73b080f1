import Mathlib.Data.Real.Basic
import Toolpath.Proofs.Program.Joined
import Toolpath.Proofs.Program.Pocket

/-! How much deeper each pass is than the ones before it. Passes along an outline go down by the set
step; the rings of a pocket go down by whatever its wall does. -/
namespace Toolpath
open Scalar

/-- No height is more than a limit below the lowest one before it, and the first one is not more
than that below the surface. -/
def StepsDown (limit surface : ℝ) (heights : List ℝ) : Prop :=
  ∀ before z after, heights = before ++ z :: after → before.min?.getD surface ≤ z + limit

section
variable {limit surface : ℝ} {heights : List ℝ}

theorem min?_le_of_mem {l : List ℝ} {x : ℝ} (h : x ∈ l) (y : ℝ) : l.min?.getD y ≤ x := by
  cases hmin : l.min? with
  | none => simp [List.min?_eq_none_iff.mp hmin] at h
  | some a => exact (List.min?_eq_some_iff.mp hmin).2 x h

/-- Neighbours decide, as the lowest height so far is not above the last one. -/
theorem stepsDown_of_isChain (hhead : ∀ z ∈ heights.head?, surface ≤ z + limit)
    (hchain : heights.IsChain fun a b => a ≤ b + limit) : StepsDown limit surface heights := by
  rintro before z after rfl
  rcases List.eq_nil_or_concat before with rfl | ⟨front, y, rfl⟩
  · exact hhead z rfl
  · have hmem : y ∈ front.concat y := by simp
    have hyz : y ≤ z + limit := by
      rw [List.concat_eq_append, List.append_assoc] at hchain
      exact (List.isChain_append_cons_cons.mp hchain).2.1
    exact (min?_le_of_mem hmem surface).trans hyz

theorem StepsDown.head (h : StepsDown limit surface heights) :
    ∀ z ∈ heights.head?, surface ≤ z + limit := by
  intro z hz
  obtain ⟨rest, rfl⟩ := List.head?_eq_some_iff.mp hz
  exact h [] z rest rfl

/-- In a list of heights that only goes down, or only up, neighbours follow from the lowest height
so far. -/
theorem StepsDown.isChain (h : StepsDown limit surface heights) (hlimit : 0 ≤ limit)
    (hmono : heights.IsChain (· ≥ ·) ∨ heights.IsChain (· ≤ ·)) :
    heights.IsChain fun a b => a ≤ b + limit := by
  rcases hmono with hdown | hup
  · rw [List.isChain_iff_forall_rel_of_append_cons_cons]
    intro a b before after hl
    have hle := h (before ++ [a]) b after (by rw [hl, List.append_assoc]; rfl)
    have hfront : ∀ x ∈ before ++ [a], a ≤ x := by
      have hpair := List.isChain_iff_pairwise.mp hdown
      rw [hl, List.pairwise_append] at hpair
      intro x hx
      rcases List.mem_append.mp hx with hx | hx
      · exact hpair.2.2 x hx a List.mem_cons_self
      · exact (List.mem_singleton.mp hx).ge
    have hmin : (before ++ [a]).min? = some a :=
      List.min?_eq_some_iff.mpr ⟨by simp, hfront⟩
    rwa [hmin, Option.getD_some] at hle
  · exact hup.imp fun a b hab => by linarith

theorem stepsDown_nil : StepsDown limit surface [] := fun before z after h => by simp at h

/-- Staying at a height for a while changes nothing. -/
theorem stepsDown_flatMap_replicate (hlimit : 0 ≤ limit)
    (hhead : ∀ z ∈ heights.head?, surface ≤ z + limit)
    (hchain : heights.IsChain fun a b => a ≤ b + limit) (n : Nat) :
    StepsDown limit surface (heights.flatMap (List.replicate n)) := by
  cases n with
  | zero =>
    have hnone : heights.flatMap (List.replicate 0) = [] := by simp
    exact hnone ▸ stepsDown_nil
  | succ n =>
    apply stepsDown_of_isChain
    · cases heights with
      | nil => simp
      | cons z rest => exact hhead
    · have hne : [] ∉ heights.map (List.replicate (n + 1)) := by simp
      rw [List.flatMap_def, List.isChain_flatten hne, List.isChain_map]
      constructor
      · simp only [List.mem_map]
        rintro l ⟨z, -, rfl⟩
        exact List.isChain_replicate_of_rel (n + 1) (by linarith)
      · refine hchain.imp fun a b hab x hx y hy => ?_
        obtain rfl := List.eq_of_mem_replicate (List.mem_of_getLast? hx)
        obtain rfl := List.eq_of_mem_replicate (List.mem_of_head? hy)
        exact hab

end

namespace Command
variable {α : Type}

/-- Whether a command cuts sideways: a feed along X or Y, or an arc. -/
def isSideways : Command α → Bool
  | .feed t => t.x.isSome || t.y.isSome
  | .arc _ _ _ => true
  | _ => false

end Command

namespace Machine
variable {α : Type} [Scalar α] {s : Style α}

/-- The heights of the cuts that go sideways, in order. -/
def lateralHeights (s : Style α) (m : Machine α) (l : List (Command α)) : List α :=
  m.gather s (fun m c => if c.isSideways then [(m.step s c).1.position.z] else []) l

@[simp] theorem lateralHeights_cons (m : Machine α) (c : Command α) (rest : List (Command α)) :
    m.lateralHeights s (c :: rest) =
      (if c.isSideways then [(m.step s c).1.position.z] else []) ++
        (m.step s c).1.lateralHeights s rest := rfl

theorem lateralHeights_append (m : Machine α) (a b : List (Command α)) :
    m.lateralHeights s (a ++ b) =
      m.lateralHeights s a ++ (m.run s a).1.lateralHeights s b := gather_append _ m a b

end Machine

namespace Carve
open Machine

section
variable {α : Type} [Scalar α] {o : Options α} {s : Style α}

@[simp] theorem lateralHeights_toSafeHeight (m : Machine α) :
    m.lateralHeights s (toSafeHeight o) = [] := rfl

@[simp] theorem lateralHeights_approach (m : Machine α) (v : Vec α) :
    m.lateralHeights s (approach o v) = [] := by
  unfold approach
  rw [lateralHeights_append]
  split_ifs <;> rfl

theorem lateralHeights_pecks (f : Frame α) (m : Machine α) :
    m.lateralHeights s (pecks o f) = [] :=
  gather_eq_nil (fun c hc m => by
    obtain ⟨z, rfl⟩ := exists_feedZ_of_mem_pecks hc
    rfl) m

theorem lateralHeights_cuts (f : Frame α) (p : Path α) (d : Direction) (l : List Segment)
    (m : Machine α) :
    m.lateralHeights s (l.map (cut f p d)) = List.replicate l.length m.position.z := by
  induction l generalizing m with
  | nil => rfl
  | cons t rest ih =>
    have hside : (cut f p d t).isSideways = true := by cases t <;> rfl
    have hlevel : (m.step s (cut f p d t)).1.position.z = m.position.z := by
      rw [position_cut]
      rfl
    rw [List.map_cons, lateralHeights_cons, ih, hlevel, if_pos hside]
    rfl

/-- Each pass cuts all of its segments at its own height. -/
theorem lateralHeights_contour (f : Frame α) (p : Path α) (number : Nat)
    (passes : List (α × Direction)) (m : Machine α) :
    m.lateralHeights s (contour f p number passes) =
      (passes.map Prod.fst).flatMap (List.replicate p.segments.length) := by
  induction passes generalizing number m with
  | nil => rfl
  | cons head rest ih =>
    obtain ⟨z, d⟩ := head
    have hdown : m.lateralHeights s (stepDown z d number) = [] := rfl
    rw [contour_cons, lateralHeights_append, lateralHeights_append, hdown, lateralHeights_cuts, ih,
      position_stepDown, (d.order_perm p.segments).length_eq, List.nil_append, List.map_cons,
      List.flatMap_cons]

end

variable {o : Options ℝ} {s : Style ℝ} {f : Frame ℝ} {limit : ℝ}

theorem lateralHeights_path {p : Path ℝ} (hp : p.check = .ok ()) {a : Vec ℝ}
    (ha : p.start? = some a) (hd : (descent o f a).passes ≠ []) (m : Machine ℝ) :
    m.lateralHeights s (path o f p).commands =
      (descent o f a).passes.flatMap (List.replicate p.segments.length) := by
  obtain ⟨b, hb⟩ := Path.exists_finish hp (Path.segments_ne_nil_of_start? ha)
  have hpasses := List.map_fst_zip
    (length_headings (f.place a) (f.place b) (descent o f a).passes .forward (f.place a)).ge
  rw [path_eq hp ha hb hd, Block.commands_issue, lateralHeights_append, lateralHeights_append,
    lateralHeights_approach, lateralHeights_contour, lateralHeights_toSafeHeight, hpasses,
    List.nil_append, List.append_nil]

/-- A path is followed in passes that each go down by one step. -/
theorem stepsDown_path {p : Path ℝ} (hs : 0 < o.stepDown) (hp : p.check = .ok ()) {a : Vec ℝ}
    (ha : p.start? = some a) (f : Frame ℝ) (m : Machine ℝ) :
    StepsDown (o.stepDown + Descent.tolerance) (f.place a).z
      (m.lateralHeights s (path o f p).commands) := by
  by_cases hd : (descent o f a).passes = []
  · rw [path_of_no_pass ha hd]
    exact stepsDown_nil
  · have hlimit : 0 ≤ o.stepDown + Descent.tolerance := add_nonneg hs.le Descent.tolerance_pos.le
    rw [lateralHeights_path hp ha hd]
    exact stepsDown_flatMap_replicate hlimit
      (descent o f a).surface_le_of_mem_head?_passes (descent o f a).isChain_passes _

theorem lateralHeights_peck (m : Machine ℝ) : m.lateralHeights s (peck o f).commands = [] := by
  by_cases hd : (f.place .zero).z ≤ f.bottom .zero
  · rw [peck_of_le hd]
    rfl
  · rw [peck_of_not_le hd, Block.commands_issue, lateralHeights_append, lateralHeights_append,
      lateralHeights_approach, lateralHeights_pecks, lateralHeights_toSafeHeight]
    rfl

/-- The heights that rings after the first are cut at: each one is reached sideways at the height of
the ring before it. -/
def ringHeights (above : ℝ) : List ℝ → List ℝ
  | [] => []
  | z :: rest => above :: z :: ringHeights z rest

theorem isChain_ringHeights {R : ℝ → ℝ → Prop} (hR : ∀ z, R z z) (above : ℝ) (l : List ℝ) :
    (above :: ringHeights above l).IsChain R ↔ (above :: l).IsChain R := by
  induction l generalizing above with
  | nil => rfl
  | cons z rest ih =>
    rw [ringHeights, List.isChain_cons_cons, List.isChain_cons_cons, ih, List.isChain_cons_cons]
    exact and_iff_right (hR above)

/-- Being reached sideways does not change how far down the next height is. -/
theorem stepsDown_ringHeights_iff {surface z : ℝ} {l : List ℝ} (hlimit : 0 ≤ limit)
    (hmono : (z :: l).IsChain (· ≥ ·) ∨ (z :: l).IsChain (· ≤ ·)) :
    StepsDown limit surface (z :: ringHeights z l) ↔
      surface ≤ z + limit ∧ (z :: l).IsChain fun a b => a ≤ b + limit := by
  have hself (x : ℝ) : x ≤ x + limit := by linarith
  constructor
  · intro h
    have hwhole : (z :: ringHeights z l).IsChain (· ≥ ·) ∨
        (z :: ringHeights z l).IsChain (· ≤ ·) :=
      hmono.imp (isChain_ringHeights (R := (· ≥ ·)) (fun _ => le_rfl) z l).mpr
        (isChain_ringHeights (R := (· ≤ ·)) (fun _ => le_rfl) z l).mpr
    exact ⟨h.head z rfl, (isChain_ringHeights hself z l).mp (h.isChain hlimit hwhole)⟩
  · rintro ⟨hhead, hchain⟩
    refine stepsDown_of_isChain (fun y hy => ?_) ((isChain_ringHeights hself z l).mpr hchain)
    exact Option.some.inj hy ▸ hhead

theorem lateralHeights_rings (center : Vec ℝ) {number : Nat} (hn : number ≠ 0)
    (l : List (Ring ℝ)) (m : Machine ℝ) :
    m.lateralHeights s (rings o f center number l) =
      ringHeights m.position.z (l.map fun r => (ringStart f center r).z) := by
  induction l generalizing number m with
  | nil => rfl
  | cons r rest ih =>
    rw [rings_cons, ringEntry, if_neg hn, lateralHeights_append, ih (Nat.succ_ne_zero number)]
    rfl

/-- The first ring is entered from above. -/
theorem lateralHeights_rings_zero (center : Vec ℝ) (r : Ring ℝ) (rest : List (Ring ℝ))
    (m : Machine ℝ) : m.lateralHeights s (rings o f center 0 (r :: rest)) =
      (ringStart f center r).z ::
        ringHeights (ringStart f center r).z (rest.map fun r => (ringStart f center r).z) := by
  have hround (m : Machine ℝ) : m.lateralHeights s
      [.enter (.cutting .forward 0), .arc true (ringStart f center r) center] =
        [m.position.z] := rfl
  have hend (m : Machine ℝ) : (m.run s [.enter (.cutting .forward 0),
      .arc true (ringStart f center r) center]).1.position.z = m.position.z := rfl
  rw [rings_cons, ringEntry, if_pos rfl, lateralHeights_append, lateralHeights_append,
    lateralHeights_approach, lateralHeights_rings center (Nat.succ_ne_zero 0), hround,
    fst_run_append, hend, landed_approach]
  rfl

/-- The heights of a pocket's cuts, each ring at its own depth below the center. -/
theorem lateralHeights_pocket {p : Pocket ℝ} {plan : PocketPlan ℝ} (hopen : p.cutsBottom = false)
    (habove : ¬ stockBelow f ≤ 0) (hplan : pocketPlan f p = .ok plan) {r : Ring ℝ}
    {rest : List (Ring ℝ)} (hrings : plan.rings = r :: rest) (m : Machine ℝ) :
    m.lateralHeights s (pocket o f p).commands =
      ((f.place .zero).z - r.depth) ::
        ringHeights ((f.place .zero).z - r.depth)
          (rest.map fun r => (f.place .zero).z - r.depth) := by
  have hz := List.map_congr_left fun r hr => height_ringStart hplan (r := r) hr
  rw [hrings, List.map_cons, List.map_cons, List.cons.injEq] at hz
  rw [commands_pocket_of_plan hopen habove hplan, carvedRings_of_plan hopen habove hplan,
    lateralHeights_append, hrings, lateralHeights_rings_zero, lateralHeights_toSafeHeight,
    List.append_nil, hz.1, hz.2]

/-- Each ring goes down by no more than a limit, the first one from the surface. -/
def RingsStepDown (limit : ℝ) (l : List (Ring ℝ)) : Prop :=
  (∀ r ∈ l.head?, r.depth ≤ limit) ∧ l.IsChain fun a b => b.depth ≤ a.depth + limit

/-- The wall of a pocket goes down all the way inward, or nowhere. -/
theorem isChain_depth_rings {plan : PocketPlan ℝ} (hp : plan.Sound) :
    (plan.rings.IsChain fun a b => a.depth ≤ b.depth) ∨
      plan.rings.IsChain fun a b => b.depth ≤ a.depth := by
  have hinward := PocketPlan.isChain_rings hp
  rcases le_total plan.edgeDepth plan.bottomDepth with hfall | hrise
  · refine .inl (hinward.imp_of_mem_imp fun a b ha hb hab => ?_)
    rw [(PocketPlan.of_mem_rings hp ha).2.2, (PocketPlan.of_mem_rings hp hb).2.2]
    exact PocketPlan.wallDepth_anti hfall hab.le
  · refine .inr (hinward.imp_of_mem_imp fun a b ha hb hab => ?_)
    rw [(PocketPlan.of_mem_rings hp ha).2.2, (PocketPlan.of_mem_rings hp hb).2.2]
    exact PocketPlan.wallDepth_mono hrise hab.le

/-- A pocket goes down by no more than a limit exactly when its rings do. -/
theorem stepsDown_pocket_iff (hlimit : 0 ≤ limit) (f : Frame ℝ) (p : Pocket ℝ) (m : Machine ℝ) :
    StepsDown limit (f.place .zero).z (m.lateralHeights s (pocket o f p).commands) ↔
      RingsStepDown limit (carvedRings f p) := by
  rcases pocket_cases f p with ⟨plan, hopen, habove, hplan⟩ | ⟨hrings, hcommands⟩
  · obtain ⟨rest, hrings⟩ := plan.exists_rings_eq_cons
    have hheights {R : ℝ → ℝ → Prop} {S : Ring ℝ → Ring ℝ → Prop}
        (h : ∀ a b, R ((f.place .zero).z - a.depth) ((f.place .zero).z - b.depth) ↔ S a b) :
        (((f.place .zero).z - plan.wallDepth plan.topRadius) ::
          rest.map fun r => (f.place .zero).z - r.depth).IsChain R ↔ plan.rings.IsChain S := by
      have hmap := List.isChain_map (R := R) (fun r : Ring ℝ => (f.place .zero).z - r.depth)
        (l := plan.rings)
      rw [hrings, List.map_cons] at hmap
      rw [hrings, hmap]
      exact List.IsChain.iff h
    have hmono := isChain_depth_rings (sound_of_pocketPlan hplan)
    rw [lateralHeights_pocket hopen habove hplan hrings, carvedRings_of_plan hopen habove hplan,
      stepsDown_ringHeights_iff hlimit, RingsStepDown]
    · refine and_congr ?_ (hheights fun a b => ?_)
      · rw [hrings, List.head?_cons]
        simp only [Option.mem_some_iff, forall_eq']
        constructor <;> intro h <;> linarith
      · constructor <;> intro h <;> linarith
    · refine hmono.imp (hheights fun a b => ?_).mpr (hheights fun a b => ?_).mpr
      · exact sub_le_sub_iff_left _
      · exact sub_le_sub_iff_left _
  · rw [hrings, hcommands]
    exact ⟨fun _ => ⟨by simp, .nil⟩, fun _ => stepsDown_nil⟩

end Carve

/-- The height that a call is carved down from. -/
def Call.surface {α : Type} [Scalar α] (c : Call α) : α := (c.frame.place (c.entry?.getD .zero)).z

namespace Carve
open Machine
variable {o : Options ℝ} {s : Style ℝ} {limit : ℝ}

theorem stepsDown_trace (hs : 0 < o.stepDown) {p : Path ℝ} (hp : p.check = .ok ()) (f : Frame ℝ)
    (m : Machine ℝ) : StepsDown (o.stepDown + Descent.tolerance)
      (f.place (p.start?.getD .zero)).z (m.lateralHeights s (path o f p).commands) := by
  cases ha : p.start? with
  | none =>
    rw [path_of_no_start ha]
    exact stepsDown_nil
  | some a => exact stepsDown_path hs hp ha f m

/-- Every call but a pocket goes down by one step at a time. -/
theorem stepsDown_block (hs : 0 < o.stepDown) {c : Call ℝ}
    (hc : ∀ f p, c = .trace f p → p.check = .ok ()) (hpocket : ∀ f p, c ≠ .pocket f p)
    (m : Machine ℝ) : StepsDown (o.stepDown + Descent.tolerance) c.surface
      (m.lateralHeights s (block o c).commands) := by
  cases c with
  | comment f text => exact stepsDown_nil
  | pause f => exact stepsDown_nil
  | pocket f p => exact absurd rfl (hpocket f p)
  | trace f p => exact stepsDown_trace hs (hc f p rfl) f m
  | hole f diameter =>
    rw [block, Call.surface, Call.entry?]
    by_cases hnarrow : f.length diameter - f.job.bit.tipWidth ≤ 0
    · rw [hole_of_narrow hnarrow, Block.issue_bind, lateralHeights_append, lateralHeights_peck]
      exact stepsDown_nil
    · rw [hole_of_wide hnarrow, Block.issue_bind, lateralHeights_append, if_neg hnarrow]
      exact stepsDown_trace hs (Path.check_circle _) f m

/-- In every run, each outline goes down by no more than the set step at a time. The rings of a
pocket do not depend on that step, and a pocket keeps to it exactly when its rings happen to. -/
theorem issued_stepsDown (o : Options ℝ) (ho : o.check = .ok ()) (job : Job ℝ)
    (cuts : List (Cut ℝ)) (s : Style ℝ) (m : Machine ℝ) :
    ∀ before c, before ++ [c] <+: made o job cuts →
      (setup o job).commands ++ work o (before ++ [c]) <+: issued o job cuts ∧
      ((∀ f p, c ≠ .pocket f p) → StepsDown (o.stepDown + 1 / 10 ^ 9) c.surface
        ((m.run s ((setup o job).commands ++ work o before)).1.lateralHeights s
          (block o c).commands)) ∧
      ∀ f p, c = .pocket f p →
        (StepsDown (o.stepDown + 1 / 10 ^ 9) c.surface
            ((m.run s ((setup o job).commands ++ work o before)).1.lateralHeights s
              (block o c).commands) ↔
          RingsStepDown (o.stepDown + 1 / 10 ^ 9) (carvedRings f p)) := by
  intro before c hpre
  have hr := (Options.inRange_of_check ho).stepDown
  have hlimit : o.stepDown + 1 / 10 ^ 9 = o.stepDown + Descent.tolerance := by
    rw [Descent.tolerance_real]
  have hcall := mem_itinerary_of_mem_made (hpre.subset (List.mem_append_right before (.head [])))
  have hcheck (f : Frame ℝ) (p : Path ℝ) (h : c = .trace f p) : p.check = .ok () :=
    Job.check_traced (h ▸ hcall)
  rw [hlimit]
  refine ⟨work_prefix_issued hpre (by simp), fun hpocket => stepsDown_block hr hcheck hpocket _, ?_⟩
  rintro f p rfl
  exact stepsDown_pocket_iff (add_nonneg hr.le Descent.tolerance_pos.le) f p _

/-- A cylinder a fifth of an inch deep, which is ten standard steps. -/
def cylinder {α : Type} [Scalar α] : Pocket α :=
  ⟨ofRatio 1 2, ofInt 0, ofRatio 1 2, .down (ofRatio 1 5), false⟩

theorem cylinder_real : (cylinder : Pocket ℝ) = ⟨1 / 2, 0, 1 / 2, .down (1 / 5), false⟩ := by
  norm_num [cylinder, ofInt, ofRatio_real]

theorem pocketPlan_cylinder : pocketPlan (.root .quarterInch) (cylinder : Pocket ℝ) =
    .ok ⟨1 / 4, 1 / 4, 0, 1 / 5, 1 / 32⟩ := by
  rw [cylinder_real, pocketPlan_quarterInch 0 (1 / 5) (by norm_num) le_rfl]
  norm_num

theorem made_cylinder (o : Options ℝ) :
    made o .quarterInch [.pocket cylinder none] = [.pocket (.root .quarterInch) cylinder] := by
  have hblock : (block o (.pocket (.root .quarterInch) cylinder)).result = .ok () :=
    pocket_ok rfl not_stockBelow_quarterInch_le pocketPlan_cylinder o
  exact reached_cons_of_ok hblock []

theorem surface_cylinder :
    Call.surface (.pocket (.root (Job.quarterInch : Job ℝ)) cylinder) = 0 :=
  congrArg Vec.z (Frame.place_root _ _)

/-- Its wall is upright, so a cylinder has one ring. -/
theorem rings_cylinder :
    PocketPlan.rings ⟨1 / 4, 1 / 4, 0, 1 / 5, 1 / 32⟩ = [(⟨1 / 4, 1 / 5⟩ : Ring ℝ)] := by
  have hnear : (1 / 4 : ℝ) ≤ 1 / 4 + PocketPlan.tolerance :=
    le_add_of_nonneg_right PocketPlan.tolerance_pos.le
  rw [PocketPlan.rings_of_le hnear, PocketPlan.ringAt, PocketPlan.wallDepth_of_le le_rfl]

/-- Whatever the step is, a cylinder is cut once around at its bottom. -/
theorem lateralHeights_cylinder (o : Options ℝ) (s : Style ℝ) (m : Machine ℝ) :
    m.lateralHeights s (block o (.pocket (.root .quarterInch) cylinder)).commands =
      [-1 / 5] := by
  rw [block, lateralHeights_pocket rfl not_stockBelow_quarterInch_le pocketPlan_cylinder
    rings_cylinder, Frame.place_root]
  norm_num [Vec.zero, ringHeights]

theorem lateralHeights_line_ne_nil (hs : 0 < o.stepDown) (s : Style ℝ) (m : Machine ℝ) :
    m.lateralHeights s (block o (.trace (.sink (.root .quarterInch) .through)
      ⟨[.zero, .unitX], [.straight 0 1]⟩)).commands ≠ [] := by
  have hpasses : (descent o (.sink (.root .quarterInch) .through) .zero).passes ≠ [] :=
    Descent.passes_ne_nil hs.not_ge floor_lt_quarterInch
  rw [block, lateralHeights_path rfl rfl hpasses]
  simpa using List.exists_mem_of_ne_nil _ hpasses

/-- A cylinder is entered at its bottom, where a line through the same stock goes down by steps. -/
theorem issued_stepsDown_cylinder :
    (Options.standard : Options ℝ).check = .ok () ∧
    made (Options.standard : Options ℝ) .quarterInch [.pocket cylinder none] =
      [.pocket (.root .quarterInch) cylinder] ∧
    ¬ StepsDown ((Options.standard : Options ℝ).stepDown + 1 / 10 ^ 9)
      (Call.surface (.pocket (.root .quarterInch) cylinder))
      ((Machine.initial.run .silent (setup Options.standard .quarterInch).commands).1.lateralHeights
        .silent (block Options.standard (.pocket (.root .quarterInch) cylinder)).commands) ∧
    ∃ c, made (Options.standard : Options ℝ) .quarterInch
        [.trace ⟨[.zero, .unitX], [.straight 0 1]⟩ .through .middle none] = [c] ∧
      ∃ heights, heights ≠ [] ∧
        (Machine.initial.run .silent (setup .standard .quarterInch).commands).1.lateralHeights
          .silent (block .standard c).commands = heights ∧
        StepsDown ((Options.standard : Options ℝ).stepDown + 1 / 10 ^ 9) c.surface heights := by
  have hcheck := Options.check_standard
  have hstep := (Options.inRange_of_check hcheck).stepDown
  have hsetup : (setup Options.standard Job.quarterInch).commands ++ work Options.standard [] =
      (setup (Options.standard : Options ℝ) Job.quarterInch).commands := List.append_nil _
  refine ⟨hcheck, made_cylinder _, fun h => ?_, _, made_line _, _,
    lateralHeights_line_ne_nil hstep _ _, rfl, ?_⟩
  · obtain ⟨-, -, hrings⟩ := issued_stepsDown .standard hcheck .quarterInch _ .silent .initial [] _
      ⟨[], (made_cylinder _).symm⟩
    rw [hsetup] at hrings
    have hfirst := ((hrings _ _ rfl).mp h).1
    rw [carvedRings_of_plan rfl not_stockBelow_quarterInch_le pocketPlan_cylinder,
      rings_cylinder] at hfirst
    have hdeep := hfirst _ rfl
    norm_num [Options.standard, ofRatio_real] at hdeep
  · obtain ⟨-, houtline, -⟩ := issued_stepsDown .standard hcheck .quarterInch _ .silent .initial []
      _ ⟨[], (made_line _).symm⟩
    rw [hsetup] at houtline
    exact houtline (by simp)

/-- Where all else is standard, steps of half the depth of the cylinder. -/
def halfwaySteps {α : Type} [Scalar α] : Options α :=
  { Options.standard with stepDown := ofRatio 1 10 }

/-- A cylinder that is two steps deep is carved in one pass. -/
theorem cylinder_not_stepsDown :
    (halfwaySteps : Options ℝ).check = .ok () ∧
    made (halfwaySteps : Options ℝ) .quarterInch [.pocket cylinder none] =
      [.pocket (.root .quarterInch) cylinder] ∧
    (setup halfwaySteps .quarterInch).commands ++
        (block halfwaySteps (.pocket (.root .quarterInch) cylinder)).commands <+:
      issued (halfwaySteps : Options ℝ) .quarterInch [.pocket cylinder none] ∧
    (Machine.initial.run .silent (setup halfwaySteps .quarterInch).commands).1.lateralHeights
      .silent (block halfwaySteps (.pocket (.root .quarterInch) cylinder)).commands =
        [(-1 / 5 : ℝ)] ∧
    ¬ StepsDown ((halfwaySteps : Options ℝ).stepDown + 1 / 10 ^ 9)
      (Call.surface (.pocket (.root .quarterInch) cylinder)) [-1 / 5] := by
  have hstep : (ofRatio 1 10 : ℝ) = 1 / 10 := by norm_num [ofRatio_real]
  have hpos : (0 : ℝ) < ofRatio 1 10 := by norm_num [hstep]
  have hcheck : (halfwaySteps : Options ℝ).check = .ok () := Options.check_standard_of_pos hpos
  have hmade := made_cylinder halfwaySteps
  have hprefix : [.pocket (.root .quarterInch) cylinder] <+:
      made (halfwaySteps : Options ℝ) .quarterInch [.pocket cylinder none] := ⟨[], hmade.symm⟩
  have hissued := work_prefix_issued hprefix (List.cons_ne_nil _ _)
  rw [work_cons, work, List.flatMap_nil, List.append_nil] at hissued
  refine ⟨hcheck, hmade, hissued, lateralHeights_cylinder _ _ _, fun h => ?_⟩
  have hdeep := h.head _ rfl
  rw [surface_cylinder, halfwaySteps, hstep] at hdeep
  norm_num at hdeep

end Carve
end Toolpath
