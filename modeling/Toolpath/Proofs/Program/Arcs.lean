import Toolpath.Proofs.Outline.Drawn
import Toolpath.Proofs.Program.Joined
import Toolpath.Proofs.Program.Pocket
import Toolpath.Proofs.Traversal.Plain

/-! The arcs of a run, by how far from their centers they start and end. Arcs along drawn outlines
run evenly about their centers, as the rings of pockets do. -/
namespace Toolpath
open Scalar

namespace Vec

theorem AlikeXY.eq_of_real {a b : Vec ℝ} (h : a.AlikeXY b) : a.x = b.x ∧ a.y = b.y :=
  ⟨of_decide_eq_true (beq_of_alike h.1 (isNaN_real _)),
    of_decide_eq_true (beq_of_alike h.2 (isNaN_real _))⟩

/-- Heights do not count in distances that are seen from above. -/
theorem AlikeXY.normXY_sub {a b : Vec ℝ} (h : a.AlikeXY b) (c : Vec ℝ) :
    (a - c).normXY = (b - c).normXY := by
  obtain ⟨hx, hy⟩ := h.eq_of_real
  rw [normXY_real, normXY_real, sub_x, sub_y, sub_x, sub_y, hx, hy]

end Vec

/-- A level map stretches all distances that are seen from above alike. -/
theorem Linear.IsLevel.normXY_apply {m : Linear ℝ} (hm : m.IsLevel) (v : Vec ℝ) :
    (m.apply v).normXY = √(v.x ^ 2 + v.y ^ 2) * m.columnX.norm := by
  have hsq : (m.apply v).x * (m.apply v).x + (m.apply v).y * (m.apply v).y =
      (v.x ^ 2 + v.y ^ 2) * (m.x.y ^ 2 + m.y.y ^ 2) := by
    simp only [apply, Vec.dot, hm.xz, hm.yz]
    linear_combination v.x ^ 2 * hm.conformal + 2 * v.x * v.y * hm.orthogonal
  rw [Vec.normXY_real, hsq, hm.norm_columnX, Real.sqrt_mul (by positivity)]

theorem Linear.PlaneSimilarity.norm_columnX_pos {m : Linear ℝ} {h : ℝ} (hm : m.PlaneSimilarity h) :
    0 < m.columnX.norm := by
  rw [hm.isLevel.norm_columnX, ← hm.conformal]
  exact Real.sqrt_pos.mpr hm.regular

theorem Frame.normXY_place_sub {f : Frame ℝ} (hf : f.placement.linear.IsLevel) (a c : Vec ℝ) :
    (f.place a - f.place c).normXY = √(a.reachSq c) * f.placement.lengthScale := by
  rw [place, place, Placement.apply_sub, hf.normXY_apply, Placement.lengthScale_eq]
  rfl

/-- Segments follow one another, and both ends of every arc are equally far from its center. -/
structure Path.IsEven (p : Path ℝ) : Prop where
  linked : p.segments.IsChain fun s t => s.finish = t.start
  even : ∀ r ∈ p.reaches, r.1 = r.2

theorem Path.IsDrawn.isEven {p : Path ℝ} (h : p.IsDrawn) : p.IsEven := by
  obtain ⟨start, moves, rfl⟩ := h
  exact ⟨(Cursor.linked_drawn start moves).chain, Cursor.even_drawn start moves⟩

theorem Path.isDrawn_circle (radius : ℝ) : (circle radius).IsDrawn :=
  ⟨⟨0, -radius, 0⟩, [.turn fullTurn radius .round, .close], rfl⟩

theorem Path.not_pinched_circle (radius : ℝ) : ¬ (circle radius).Pinched := by
  rintro ⟨r, hr, hzero⟩
  by_cases h : radius = 0
  · rw [h, circle_zero] at hr
    cases hr
  · rw [circle_eq h] at hr
    have hreach : r.1 = Vec.reachSq ⟨0, -radius, 0⟩ .zero := by
      rw [List.mem_singleton.mp hr]
      rfl
    have hsq : Vec.reachSq ⟨0, -radius, 0⟩ .zero = radius ^ 2 := by
      simp [Vec.reachSq, Vec.zero]
    rw [hreach, hsq] at hzero
    exact h (pow_eq_zero_iff two_ne_zero |>.mp hzero)

namespace Machine
variable {s : Style ℝ} {m : Machine ℝ} {a b : List (Command ℝ)} {q r : List ℝ}

/-- The arcs among some commands have given radii, each one from its start to its end. -/
def SweepsEvenly (s : Style ℝ) (m : Machine ℝ) (l : List (Command ℝ)) (radii : List ℝ) : Prop :=
  (m.sweeps s l).map (fun a => (a.radius, a.finalRadius)) = radii.map fun r => (r, r)

theorem SweepsEvenly.append (ha : m.SweepsEvenly s a q) (hb : (m.run s a).1.SweepsEvenly s b r) :
    m.SweepsEvenly s (a ++ b) (q ++ r) := by
  unfold SweepsEvenly at *
  rw [sweeps_append, List.map_append, List.map_append, ha, hb]

theorem sweepsEvenly_of_eq_nil (h : m.sweeps s a = []) : m.SweepsEvenly s a [] := by
  rw [SweepsEvenly, h]
  rfl

theorem SweepsEvenly.after (hb : (m.run s a).1.SweepsEvenly s b r) (ha : m.sweeps s a = []) :
    m.SweepsEvenly s (a ++ b) r := (sweepsEvenly_of_eq_nil ha).append hb

theorem SweepsEvenly.before (ha : m.SweepsEvenly s a q) (hb : (m.run s a).1.sweeps s b = []) :
    m.SweepsEvenly s (a ++ b) q := q.append_nil ▸ ha.append (sweepsEvenly_of_eq_nil hb)

theorem SweepsEvenly.even (h : m.SweepsEvenly s a r) :
    ∀ t ∈ m.sweeps s a, t.radius = t.finalRadius := by
  intro t ht
  have hmem := List.mem_map_of_mem (f := fun t : Sweep ℝ => (t.radius, t.finalRadius)) ht
  rw [h] at hmem
  obtain ⟨x, -, hx⟩ := List.mem_map.mp hmem
  obtain ⟨hstart, hfinish⟩ := Prod.mk.inj hx
  exact hstart.symm.trans hfinish

theorem SweepsEvenly.exists_iff (h : m.SweepsEvenly s a r) (x : ℝ) :
    (∃ t ∈ m.sweeps s a, t.radius = x) ↔ x ∈ r := by
  have hfst := congrArg (List.map Prod.fst) h
  rw [List.map_map, List.map_map] at hfst
  have hradii : (m.sweeps s a).map Sweep.radius = r := hfst.trans (List.map_id r)
  rw [← hradii, List.mem_map]

end Machine

namespace Carve
open Machine
variable {o : Options ℝ} {s : Style ℝ} {f : Frame ℝ} {p : Path ℝ}

/-- The radii of the arcs along a path, once it is placed. -/
noncomputable def placedRadii (f : Frame ℝ) (p : Path ℝ) : List ℝ :=
  p.reaches.map fun r => √r.1 * f.placement.lengthScale

/-- A placed arc is swept evenly in both directions. -/
theorem radii_cut_arc (hf : f.placement.linear.IsLevel) {start finish center : Nat} {sense : Sense}
    (heven : (p.vertex start).reachSq (p.vertex center) =
      (p.vertex finish).reachSq (p.vertex center)) {d : Direction} {position : Vec ℝ}
    (h : position.AlikeXY (f.place (p.vertex ((Segment.arc start finish center sense).entry d)))) :
    (position - f.place (p.vertex center)).normXY =
        √((p.vertex start).reachSq (p.vertex center)) * f.placement.lengthScale ∧
      (f.place (p.vertex ((Segment.arc start finish center sense).exit d)) -
        f.place (p.vertex center)).normXY =
        √((p.vertex start).reachSq (p.vertex center)) * f.placement.lengthScale := by
  rw [h.normXY_sub, Frame.normXY_place_sub hf, Frame.normXY_place_sub hf]
  cases d with
  | forward => exact ⟨rfl, by rw [heven]; rfl⟩
  | reverse => exact ⟨by rw [heven]; rfl, rfl⟩

/-- Cuts along segments sweep their arcs evenly, as long as each cut starts over the vertex that it
is to start from. -/
theorem sweepsEvenly_cuts (hf : f.placement.linear.IsLevel) (hp : ∀ r ∈ p.reaches, r.1 = r.2)
    (d : Direction) {l : List Segment} (hl : l ⊆ p.segments) {m : Machine ℝ}
    (h : ∀ done t rest, l = done ++ t :: rest →
      (m.run s (done.map (cut f p d))).1.position.AlikeXY (f.place (p.vertex (t.entry d)))) :
    m.SweepsEvenly s (l.map (cut f p d))
      ((l.filterMap (Segment.reaches? p)).map fun r => √r.1 * f.placement.lengthScale) := by
  induction l generalizing m with
  | nil => exact sweepsEvenly_of_eq_nil rfl
  | cons t rest ih =>
    obtain ⟨ht, hl⟩ := List.cons_subset.mp hl
    have hrest := ih hl (m := (m.step s (cut f p d t)).1) fun done u rest' hu =>
      h (t :: done) u rest' (congrArg (t :: ·) hu)
    cases t with
    | straight start finish => exact hrest
    | arc start finish center sense =>
      have heven : (p.vertex start).reachSq (p.vertex center) =
          (p.vertex finish).reachSq (p.vertex center) :=
        hp (_, _) (List.mem_filterMap.mpr ⟨_, ht, rfl⟩)
      obtain ⟨hradius, hfinal⟩ := radii_cut_arc hf heven (h [] _ rest rfl)
      exact congrArg₂ List.cons (Prod.ext hradius hfinal) hrest

/-- One pass along a path sweeps all of its arcs. -/
theorem sweepsEvenly_pass (hf : f.placement.linear.IsLevel) (hp : p.IsEven) {a b : Vec ℝ}
    (ha : p.start? = some a) (hb : p.finish? = some b) (d : Direction) {m : Machine ℝ}
    (hm : m.position.AlikeXY (d.origin (f.place a) (f.place b))) :
    m.SweepsEvenly s ((d.order p.segments).map (cut f p d)) (d.order (placedRadii f p)) := by
  have hmeets : p.segments.IsChain (Meets f p) := hp.linked.imp fun t u htu => by
    unfold Meets
    rw [htu]
    exact .refl _
  have hsub : d.order p.segments ⊆ p.segments := (d.order_perm p.segments).subset
  have hcuts := sweepsEvenly_cuts hf hp.even d hsub ((alikeXY_entry_iff s ha hb hm).mpr hmeets)
  have horder : ((d.order p.segments).filterMap (Segment.reaches? p)).map
      (fun r => √r.1 * f.placement.lengthScale) = d.order (placedRadii f p) := by
    cases d with
    | forward => rfl
    | reverse =>
      unfold placedRadii Path.reaches
      rw [Direction.order, Direction.order, List.filterMap_reverse, List.map_reverse]
  exact horder ▸ hcuts

/-- Passes sweep the arcs of a path once each, from wherever they start over their origin. -/
theorem sweepsEvenly_contour (hf : f.placement.linear.IsLevel) (hp : p.IsEven) {a b : Vec ℝ}
    (ha : p.start? = some a) (hb : p.finish? = some b) (passes : List (ℝ × Direction))
    (number : Nat) {m : Machine ℝ}
    (h : ∀ above z d below, passes = above ++ (z, d) :: below →
      (m.run s (contour f p number above)).1.position.AlikeXY
        (d.origin (f.place a) (f.place b))) :
    m.SweepsEvenly s (contour f p number passes)
      (passes.flatMap fun x => x.2.order (placedRadii f p)) := by
  induction passes generalizing number m with
  | nil => exact sweepsEvenly_of_eq_nil rfl
  | cons head rest ih =>
    obtain ⟨z, d⟩ := head
    have hdown : (m.run s (stepDown z d number)).1.position.AlikeXY
        (d.origin (f.place a) (f.place b)) := h [] z d rest rfl
    rw [contour_cons, List.flatMap_cons]
    refine ((sweepsEvenly_pass hf hp ha hb d hdown).after rfl).append
      (ih (number + 1) fun above y e below hbelow => ?_)
    rw [← fst_run_append, ← contour_cons]
    exact h ((z, d) :: above) y e below (congrArg ((z, d) :: ·) hbelow)

/-- The passes along a path between two local ends, each at its height and in its direction. -/
noncomputable def directedPasses (o : Options ℝ) (f : Frame ℝ) (a b : Vec ℝ) :
    List (ℝ × Direction) :=
  (descent o f a).passes.zip
    (headings (f.place a) (f.place b) (descent o f a).passes .forward (f.place a))

/-- The radii of the arcs that follow a path, pass by pass. -/
noncomputable def pathRadii (o : Options ℝ) (f : Frame ℝ) (p : Path ℝ) : List ℝ :=
  match p.start?, p.finish? with
  | some a, some b => (directedPasses o f a b).flatMap fun x => x.2.order (placedRadii f p)
  | _, _ => []

theorem sweepsEvenly_path (hf : f.placement.linear.IsLevel) (hcheck : p.check = .ok ())
    (hp : p.IsEven) (m : Machine ℝ) :
    m.SweepsEvenly s (path o f p).commands (pathRadii o f p) := by
  cases ha : p.start? with
  | none =>
    have hnone : pathRadii o f p = [] := by rw [pathRadii, ha]
    rw [path_of_no_start ha, hnone]
    exact sweepsEvenly_of_eq_nil rfl
  | some a =>
    obtain ⟨b, hb⟩ := Path.exists_finish hcheck (Path.segments_ne_nil_of_start? ha)
    unfold pathRadii
    rw [ha, hb]
    dsimp only
    by_cases hd : (descent o f a).passes = []
    · rw [path_of_no_pass ha hd, directedPasses, hd]
      exact sweepsEvenly_of_eq_nil rfl
    · have hforward : (f.place a).AlikeXY (Direction.forward.origin (f.place a) (f.place b)) :=
        .refl _
      have hcontour := sweepsEvenly_contour hf hp ha hb (directedPasses o f a b) 0
        (m := (m.run s (approach o (f.place a))).1) fun above z d below h =>
          alikeXY_origin s ha hb hforward h 0 (position_approach s m o (f.place a))
      rw [path_eq hcheck ha hb hd]
      exact (hcontour.after (sweeps_approach m _)).before (sweeps_toSafeHeight (o := o) _)

/-- The radii of the arcs that a call is carved in. -/
noncomputable def callRadii (o : Options ℝ) : Call ℝ → List ℝ
  | .trace f p => pathRadii o f p
  | .hole f diameter =>
    if f.length diameter - f.job.bit.tipWidth ≤ 0 then []
    else pathRadii o f (.circle (millRadius f diameter))
  | .pocket f p => (carvedRings f p).map Ring.radius
  | .comment _ _ => []
  | .pause _ => []

theorem sweeps_pecks (f : Frame ℝ) (m : Machine ℝ) : m.sweeps s (pecks o f) = [] :=
  gather_eq_nil (fun c hc m => by
    obtain ⟨z, rfl⟩ := exists_feedZ_of_mem_pecks hc
    rfl) m

theorem sweeps_peck (f : Frame ℝ) (m : Machine ℝ) : m.sweeps s (peck o f).commands = [] := by
  by_cases hd : (f.place .zero).z ≤ f.bottom .zero
  · rw [peck_of_le hd]
    rfl
  · rw [peck_of_not_le hd, Block.commands_issue, sweeps_append, sweeps_append, sweeps_approach,
      sweeps_pecks, sweeps_toSafeHeight]
    rfl

theorem sweepsEvenly_hole (hf : f.placement.linear.IsLevel) (diameter : ℝ) (m : Machine ℝ) :
    m.SweepsEvenly s (hole o f diameter).commands (callRadii o (.hole f diameter)) := by
  rw [callRadii]
  by_cases hnarrow : f.length diameter - f.job.bit.tipWidth ≤ 0
  · rw [hole_of_narrow hnarrow, Block.issue_bind, if_pos hnarrow]
    exact sweepsEvenly_of_eq_nil (sweeps_peck f _)
  · rw [hole_of_wide hnarrow, Block.issue_bind, if_neg hnarrow]
    have hcircle := sweepsEvenly_path (s := s) (o := o) hf (Path.check_circle _)
      (Path.isDrawn_circle (millRadius f diameter)).isEven
      (m.run s [.remark (.circled (f.length diameter) f.job.native.name)]).1
    exact hcircle.after rfl

theorem nonneg_of_mem_carvedRings {p : Pocket ℝ} {r : Ring ℝ} (h : r ∈ carvedRings f p) :
    0 ≤ r.radius := by
  rcases pocket_cases f p with ⟨plan, hopen, habove, hplan⟩ | ⟨hrings, -⟩
  · rw [carvedRings_of_plan hopen habove hplan] at h
    have hsound := sound_of_pocketPlan hplan
    exact hsound.bottom.trans (PocketPlan.of_mem_rings hsound h).1
  · rw [hrings] at h
    cases h

theorem sweepsEvenly_pocket (f : Frame ℝ) (p : Pocket ℝ) (m : Machine ℝ) :
    m.SweepsEvenly s (pocket o f p).commands ((carvedRings f p).map Ring.radius) := by
  rw [SweepsEvenly, sweeps_pocket, List.map_map, List.map_map]
  refine List.map_congr_left fun r hr => ?_
  have hradius := abs_of_nonneg (nonneg_of_mem_carvedRings hr)
  exact Prod.ext ((radius_ringSweep f r).trans hradius) ((finalRadius_ringSweep f r).trans hradius)

theorem sweepsEvenly_block {c : Call ℝ} (hcheck : ∀ f p, c = .trace f p → p.check = .ok ())
    (hc : c.Meets Frame.IsPlain Path.IsDrawn) (m : Machine ℝ) :
    m.SweepsEvenly s (block o c).commands (callRadii o c) := by
  obtain ⟨h, -, hsimilar⟩ := hc.1.placement
  cases c with
  | comment f text => exact sweepsEvenly_of_eq_nil rfl
  | pause f => exact sweepsEvenly_of_eq_nil rfl
  | trace f p => exact sweepsEvenly_path hsimilar.isLevel (hcheck f p rfl) (hc.2 f p rfl).isEven m
  | hole f diameter => exact sweepsEvenly_hole hsimilar.isLevel diameter m
  | pocket f p => exact sweepsEvenly_pocket f p m

theorem sweepsEvenly_work {calls : List (Call ℝ)}
    (h : ∀ c ∈ calls, (∀ f p, c = .trace f p → p.check = .ok ()) ∧
      c.Meets Frame.IsPlain Path.IsDrawn) (m : Machine ℝ) :
    m.SweepsEvenly s (work o calls) (calls.flatMap (callRadii o)) := by
  induction calls generalizing m with
  | nil => exact sweepsEvenly_of_eq_nil rfl
  | cons c rest ih =>
    obtain ⟨⟨hcheck, hc⟩, hrest⟩ := List.forall_mem_cons.mp h
    rw [work_cons, List.flatMap_cons]
    exact (sweepsEvenly_block hcheck hc m).append (ih hrest _)

theorem sweeps_setup (o : Options ℝ) (job : Job ℝ) (m : Machine ℝ) :
    m.sweeps s (setup o job).commands = [] := by
  unfold setup
  cases job.system with
  | error e => rfl
  | ok system => rfl

/-- All arcs of a run on plain legs are swept evenly, call by call. -/
theorem sweepsEvenly_issued {o : Options ℝ} {job : Job ℝ} {cuts : List (Cut ℝ)}
    (hcuts : Cut.EachAll (Leg.IsPlain job) Path.IsDrawn cuts) (s : Style ℝ) (m : Machine ℝ) :
    m.SweepsEvenly s (issued o job cuts) ((made o job cuts).flatMap (callRadii o)) := by
  have hmeets : ∀ c ∈ made o job cuts, (∀ f p, c = .trace f p → p.check = .ok ()) ∧
      c.Meets Frame.IsPlain Path.IsDrawn := by
    intro c hc
    have hcall := mem_itinerary_of_mem_made hc
    exact ⟨fun f p h => Job.check_traced (h ▸ hcall), Job.isPlain_of_mem hcuts hcall⟩
  rcases issued_eq_append o job cuts with ⟨hi, hm⟩ | ⟨-, tail, ht, hi⟩
  · rw [hi, hm]
    exact sweepsEvenly_of_eq_nil rfl
  · have htail (m : Machine ℝ) : m.sweeps s tail = [] := by
      rcases ht with rfl | rfl <;> rfl
    rw [hi]
    exact ((sweepsEvenly_work hmeets _).after (sweeps_setup o job m)).before (htail _)

/-- A call sweeps an arc of no radius: along a path that is pinched, or at the point of a cone. -/
def Pinches (o : Options ℝ) : Call ℝ → Prop
  | .trace f p => p.Pinched ∧ ∃ a, p.start? = some a ∧ (descent o f a).passes ≠ []
  | .pocket f p => p.cutsBottom = false ∧ f.job.floor < (f.place .zero).z ∧
    ∃ plan, pocketPlan f p = .ok plan ∧ plan.ReachesAxis
  | _ => False

theorem zero_mem_placedRadii_iff (hf : 0 < f.placement.lengthScale) :
    0 ∈ placedRadii f p ↔ p.Pinched := by
  have hzero : ∀ r ∈ p.reaches, √r.1 * f.placement.lengthScale = 0 ↔ r.1 = 0 := by
    intro r hr
    rw [mul_eq_zero, or_iff_left hf.ne', Real.sqrt_eq_zero]
    obtain ⟨t, -, ht⟩ := List.mem_filterMap.mp hr
    cases t with
    | straight start finish => cases ht
    | arc start finish center sense =>
      cases ht
      exact add_nonneg (sq_nonneg _) (sq_nonneg _)
  unfold placedRadii Path.Pinched
  rw [List.mem_map]
  exact exists_congr fun r => and_congr_right (hzero r)

theorem zero_mem_pathRadii_iff (hf : 0 < f.placement.lengthScale) (hcheck : p.check = .ok ()) :
    0 ∈ pathRadii o f p ↔ Pinches o (.trace f p) := by
  rw [Pinches, ← zero_mem_placedRadii_iff hf, pathRadii]
  cases ha : p.start? with
  | none => simp
  | some a =>
    obtain ⟨b, hb⟩ := Path.exists_finish hcheck (Path.segments_ne_nil_of_start? ha)
    rw [hb]
    have hmem (d : Direction) : 0 ∈ d.order (placedRadii f p) ↔ 0 ∈ placedRadii f p :=
      (d.order_perm _).mem_iff
    have hheights : (directedPasses o f a b).map Prod.fst = (descent o f a).passes :=
      List.map_fst_zip (length_headings _ _ _ _ _).ge
    have hsome : (∃ x, x ∈ directedPasses o f a b) ↔ (descent o f a).passes ≠ [] := by
      rw [← hheights, ne_eq, List.map_eq_nil_iff]
      constructor
      · rintro ⟨x, hx⟩
        exact List.ne_nil_of_mem hx
      · exact List.exists_mem_of_ne_nil _
    simp [hmem, ← hsome, and_comm]

theorem zero_mem_carvedRings_iff (f : Frame ℝ) (p : Pocket ℝ) :
    0 ∈ (carvedRings f p).map Ring.radius ↔ Pinches o (.pocket f p) := by
  rw [List.mem_map, Pinches]
  constructor
  · rintro ⟨r, hr, hzero⟩
    rcases pocket_cases f p with ⟨plan, hopen, habove, hplan⟩ | ⟨hrings, -⟩
    · rw [carvedRings_of_plan hopen habove hplan] at hr
      refine ⟨hopen, ?_, plan, hplan, ?_⟩
      · exact sub_pos.mp (not_le.mp habove)
      · exact (PocketPlan.exists_radius_eq_zero_iff (sound_of_pocketPlan hplan)).mp ⟨r, hr, hzero⟩
    · rw [hrings] at hr
      cases hr
  · rintro ⟨hopen, habove, plan, hplan, haxis⟩
    rw [carvedRings_of_plan hopen (not_le.mpr (sub_pos.mpr habove)) hplan]
    exact (PocketPlan.exists_radius_eq_zero_iff (sound_of_pocketPlan hplan)).mpr haxis

theorem zero_mem_callRadii_iff {c : Call ℝ} (hcheck : ∀ f p, c = .trace f p → p.check = .ok ())
    (hc : c.frame.IsPlain) : 0 ∈ callRadii o c ↔ Pinches o c := by
  obtain ⟨h, -, hsimilar⟩ := hc.placement
  have hscale : 0 < c.frame.placement.lengthScale :=
    (Placement.lengthScale_eq _).symm ▸ hsimilar.norm_columnX_pos
  cases c with
  | comment f text => simp [callRadii, Pinches]
  | pause f => simp [callRadii, Pinches]
  | trace f p => exact zero_mem_pathRadii_iff hscale (hcheck f p rfl)
  | pocket f p => exact zero_mem_carvedRings_iff f p
  | hole f diameter =>
    refine iff_of_false (fun hmem => ?_) id
    rw [callRadii] at hmem
    split_ifs at hmem
    · cases hmem
    · have hpinch := (zero_mem_pathRadii_iff hscale (Path.check_circle _)).mp hmem
      exact Path.not_pinched_circle _ hpinch.1

/-- Both ends of every arc of a run are equally far from its center, seen from above. They are away
from it exactly when no path is followed that is pinched, and no cone is carved to its point. A path
is pinched where a corner is rounded after a run straight up or down. -/
theorem issued_arcs {job : Job ℝ} {cuts : List (Cut ℝ)}
    (hcuts : Cut.EachAll (Leg.IsPlain job) Path.IsDrawn cuts) (o : Options ℝ) (s : Style ℝ)
    (m : Machine ℝ) :
    (∀ a ∈ m.sweeps s (issued o job cuts), a.radius = a.finalRadius) ∧
      ((∀ a ∈ m.sweeps s (issued o job cuts), 0 < a.radius) ↔
        ∀ c ∈ made o job cuts, ¬ Pinches o c) ∧
      ∀ start moves, (Cursor.drawn start moves).path.Pinched ↔ ∃ before angle radius after,
        moves = before ++ .turn angle radius .round :: after ∧ radius ≠ 0 ∧
          (Cursor.drawn start before).heading.x = 0 ∧
          (Cursor.drawn start before).heading.y = 0 := by
  have hevenly := sweepsEvenly_issued (o := o) hcuts s m
  refine ⟨hevenly.even, ?_, fun start moves => Cursor.pinched_drawn moves⟩
  have hpinches : ∀ c ∈ made o job cuts, 0 ∈ callRadii o c ↔ Pinches o c := by
    intro c hc
    have hcall := mem_itinerary_of_mem_made hc
    exact zero_mem_callRadii_iff (fun f p h => Job.check_traced (h ▸ hcall))
      (Job.isPlain_of_mem hcuts hcall).1
  have hpositive (a : Sweep ℝ) : 0 < a.radius ↔ a.radius ≠ 0 := (Real.sqrt_nonneg _).lt_iff_ne'
  have hzero := (hevenly.exists_iff 0).not
  rw [List.mem_flatMap] at hzero
  simp only [hpositive]
  push Not at hzero
  rw [hzero]
  exact forall₂_congr fun c hc => (hpinches c hc).not

/-- A cone with its point inside the stock. -/
def pointedPocket {α : Type} [Scalar α] : Pocket α :=
  ⟨ofRatio 1 8, ofInt 0, ofInt 0, .down (ofRatio 1 10), false⟩

theorem pointedPocket_real : (pointedPocket : Pocket ℝ) = ⟨1 / 8, 0, 0, .down (1 / 10), false⟩ := by
  norm_num [pointedPocket, ofInt, ofRatio_real]

theorem reachesAxis_pointed : PocketPlan.ReachesAxis
    ⟨1 / 8 / 2, 0 / 2, min 0 (1 / 4), min (1 / 10) (1 / 4), (1 / 32 : ℝ)⟩ where
  bottom := zero_div 2
  rim := by
    refine .inr ⟨?_, fun n hn => ?_⟩
    · norm_num [PocketPlan.tolerance, ofRatio_real]
    · -- the second step inward ends nearer to the axis than the tolerance
      rcases le_or_gt n 1 with hle | hgt
      · have hcast : (n : ℝ) ≤ 1 := by exact_mod_cast hle
        norm_num [PocketPlan.tolerance, ofRatio_real] at hn
        linarith
      · have hcast : (2 : ℝ) ≤ n := by exact_mod_cast hgt
        norm_num [PocketPlan.tolerance, ofRatio_real] at hn
        linarith

/-- At its point a cone is swept without a radius, whatever is cut beside it. -/
theorem issued_arcs_pointed : ∃ cuts : List (Cut ℝ),
    cuts = [.pocket pointedPocket none,
      .group [.position { x := 1, y := 0 }]
        [.trace (Cursor.drawn .zero [.lineTo .unitX]).path .through .middle none] none none] ∧
    Cut.EachAll (Leg.IsPlain .quarterInch) Path.IsDrawn cuts ∧
    ¬ ∀ a ∈ Machine.initial.sweeps .silent
      (issued .standard .quarterInch cuts), 0 < a.radius := by
  refine ⟨_, rfl, ?_⟩
  have hplain : ∀ pose ∈ [(.position { x := 1, y := 0 } : Pose ℝ)],
      Leg.IsPlain .quarterInch ⟨none, pose⟩ := by
    intro pose hpose
    obtain rfl := List.mem_singleton.mp hpose
    exact ⟨⟨_, rfl, by simp⟩, by simp⟩
  have hcuts : Cut.EachAll (Leg.IsPlain .quarterInch) Path.IsDrawn
      [.pocket pointedPocket none, .group [.position { x := 1, y := 0 }]
        [.trace (Cursor.drawn .zero [.lineTo .unitX]).path .through .middle none] none none] :=
    ⟨trivial, ⟨hplain, ⟨_, _, rfl⟩, trivial⟩, trivial⟩
  have hplan : pocketPlan (.root .quarterInch) (pointedPocket : Pocket ℝ) =
      .ok ⟨1 / 8 / 2, 0 / 2, min 0 (1 / 4), min (1 / 10) (1 / 4), 1 / 32⟩ := by
    rw [pointedPocket_real]
    exact pocketPlan_quarterInch 0 (1 / 10) le_rfl (by norm_num)
  have hblock : (block (Options.standard : Options ℝ)
      (.pocket (.root .quarterInch) pointedPocket)).result = .ok () :=
    pocket_ok rfl not_stockBelow_quarterInch_le hplan .standard
  refine ⟨hcuts, fun hpositive => ?_⟩
  have hpinches := ((issued_arcs hcuts .standard _ _).2.1.mp hpositive)
    (.pocket (.root .quarterInch) pointedPocket) ?_
  · exact hpinches ⟨rfl, floor_lt_quarterInch, _, hplan, reachesAxis_pointed⟩
  · change _ ∈ reached _ (.pocket (.root .quarterInch) pointedPocket :: _)
    rw [reached_cons_of_ok hblock]
    exact List.mem_cons_self

end Carve

end Toolpath
