import Mathlib.Data.Real.Basic
import Toolpath.Proofs.Bounds.Cover
import Toolpath.Proofs.Geometry.Level
import Toolpath.Proofs.Outline.Circle
import Toolpath.Proofs.Plan.Rings
import Toolpath.Proofs.Program.Joined
import Toolpath.Proofs.Program.Pocket

/-! Where the feed commands of a call end: inside every box that has taken in the points of the
call. -/
namespace Toolpath
open Scalar

/-- A command that, if it feeds, ends inside a box. -/
def Command.FeedsInto (b : Bounds ℝ) (s : Style ℝ) (m : Machine ℝ) (c : Command ℝ) : Prop :=
  c.isFeed = true → b.Contains (m.step s c).1.position

namespace Carve
open Machine
variable {o : Options ℝ} {s : Style ℝ} {b : Bounds ℝ} {m : Machine ℝ} {f : Frame ℝ} {p : Path ℝ}

theorem inside_of_forall_not_feed {l : List (Command ℝ)} (h : ∀ c ∈ l, c.isFeed = false) :
    m.Always s (Command.FeedsInto b s) l :=
  always_of_forall fun c hc _ hfeed => by
    rw [h c hc] at hfeed
    cases hfeed

@[simp] theorem inside_toSafeHeight : m.Always s (Command.FeedsInto b s) (toSafeHeight o) :=
  inside_of_forall_not_feed fun c hc => by
    simp only [toSafeHeight, List.mem_cons, List.not_mem_nil, or_false] at hc
    rcases hc with rfl | rfl | rfl <;> rfl

/-- A plunge feeds to its point only. -/
theorem inside_approach {v : Vec ℝ} (hv : b.Contains v) (m : Machine ℝ) :
    m.Always s (Command.FeedsInto b s) (approach o v) := by
  have hrapid : ∀ c ∈ [rapidXY v, .enter .plunging, rapidZ (greater o.minimumFastZ v.z)],
      c.isFeed = false := by
    simp [rapidXY, rapidZ, Command.isFeed]
  have hquiet : m.Always s (Command.FeedsInto b s)
      (toSafeHeight o ++ [rapidXY v, .enter .plunging, rapidZ (greater o.minimumFastZ v.z)]) :=
    always_append.mpr ⟨inside_toSafeHeight, inside_of_forall_not_feed hrapid⟩
  unfold approach
  rw [always_append]
  split_ifs
  · exact ⟨hquiet, trivial⟩
  · exact ⟨hquiet, fun _ => hv, trivial⟩

theorem containsXY_landing {d : Direction} {l : List Segment} {position : Vec ℝ}
    (hposition : b.ContainsXY position)
    (hl : ∀ t ∈ l, b.ContainsXY (f.place (p.vertex (t.exit d)))) :
    b.ContainsXY (landing f p d l position) := by
  unfold landing
  cases h : l.getLast? with
  | none => exact hposition
  | some t =>
    obtain ⟨hx, hy⟩ := hl t (List.mem_of_getLast? h)
    exact ⟨hx, hy⟩

theorem inside_cuts {d : Direction} {l : List Segment}
    (hl : ∀ t ∈ l, b.ContainsXY (f.place (p.vertex (t.exit d))))
    (hz : b.z.Contains m.position.z) :
    m.Always s (Command.FeedsInto b s) (l.map (cut f p d)) := by
  induction l generalizing m with
  | nil => trivial
  | cons t rest ih =>
    obtain ⟨ht, hrest⟩ := List.forall_mem_cons.mp hl
    have hstep := position_cut (f := f) (p := p) s m d t
    refine always_cons.mpr ⟨fun _ => ?_, ih hrest ?_⟩
    · rw [hstep]
      exact ⟨⟨ht.x, ht.y⟩, hz⟩
    · rw [hstep]
      exact hz

/-- Passes stay inside a box that is as high as they are and lies around the ends of all
segments. -/
theorem inside_contour
    (hends : ∀ t ∈ p.segments, ∀ d : Direction, b.ContainsXY (f.place (p.vertex (t.exit d))))
    {passes : List (ℝ × Direction)} (hz : ∀ x ∈ passes, b.z.Contains x.1) (number : Nat)
    (hm : b.ContainsXY m.position) :
    m.Always s (Command.FeedsInto b s) (contour f p number passes) := by
  induction passes generalizing number m with
  | nil => trivial
  | cons head rest ih =>
    obtain ⟨z, d⟩ := head
    obtain ⟨hz, hrest⟩ := List.forall_mem_cons.mp hz
    have hcuts : ∀ t ∈ d.order p.segments, b.ContainsXY (f.place (p.vertex (t.exit d))) :=
      fun t ht => hends t ((d.order_perm p.segments).mem_iff.mp ht) d
    rw [contour_cons, always_append, always_append]
    refine ⟨⟨?_, inside_cuts hcuts hz⟩, ih hrest (number + 1) ?_⟩
    · have hdown : b.Contains { m.position with z } := ⟨⟨hm.x, hm.y⟩, hz⟩
      simp [stepDown, Command.FeedsInto, Command.isFeed, feedZ, Machine.step, Machine.move, hdown]
    · rw [fst_run_append, position_cuts]
      exact containsXY_landing ⟨hm.x, hm.y⟩ hcuts

/-- A path stays inside a box around the ends of its segments that reaches from its surface down to
its bottom. -/
theorem inside_path (hp : p.check = .ok ())
    (hends : ∀ t ∈ p.segments, ∀ d : Direction, b.ContainsXY (f.place (p.vertex (t.exit d))))
    (hdepth : ∀ a, p.start? = some a →
      b.z.Contains (f.place a).z ∧ b.z.Contains (f.bottom a)) :
    m.Always s (Command.FeedsInto b s) (path o f p).commands := by
  cases ha : p.start? with
  | none =>
    rw [path_of_no_start ha]
    trivial
  | some a =>
    obtain ⟨htop, hbottom⟩ := hdepth a ha
    have hne := Path.segments_ne_nil_of_start? ha
    obtain ⟨e, he⟩ := Path.exists_finish hp hne
    obtain ⟨t, rest, ht⟩ := List.exists_cons_of_ne_nil hne
    have hstart : b.Contains (f.place a) := by
      have hxy := hends t (ht ▸ List.mem_cons_self) .reverse
      have horder : Direction.forward.order p.segments = t :: rest := ht
      have hentry : p.vertex (t.exit .reverse) = a := vertex_entry_head ha he horder
      rw [hentry] at hxy
      exact ⟨hxy, htop⟩
    by_cases hd : (descent o f a).passes = []
    · rw [path_of_no_pass ha hd]
      trivial
    · have hpasses : ∀ x ∈ (descent o f a).passes.zip
          (headings (f.place a) (f.place e) (descent o f a).passes .forward (f.place a)),
          b.z.Contains x.1 := fun x hx =>
        have hmem := (List.of_mem_zip hx).1
        hbottom.between htop (Descent.target_le_of_mem_passes hmem)
          (Descent.le_surface_of_mem_passes hmem)
      rw [path_eq hp ha he hd, Block.commands_issue, always_append, always_append]
      refine ⟨⟨inside_approach hstart m, inside_contour hends hpasses 0 ?_⟩, inside_toSafeHeight⟩
      rw [landed_approach]
      exact hstart.toContainsXY

theorem inside_trace (hp : p.check = .ok ())
    (h : ∀ q ∈ Bounds.tracePoints f p, b.Contains q) :
    m.Always s (Command.FeedsInto b s) (path o f p).commands := by
  have hends {t : Segment} (ht : t ∈ p.segments) {i : Nat} (hi : i = t.start ∨ i = t.finish) :
      b.Contains (f.place (p.vertex i)) ∧ b.z.Contains (f.bottom (p.vertex i)) := by
    have hpoints : ∀ q ∈ Bounds.segmentPoints f p.vertex t, b.Contains q := fun q hq =>
      h q (List.mem_flatMap.mpr ⟨t, ht, hq⟩)
    have hmem (q : Vec ℝ) (hq : q = f.place (p.vertex i) ∨
        q = { f.place (p.vertex i) with z := f.bottom (p.vertex i) }) :
        q ∈ Bounds.segmentPoints f p.vertex t := by
      unfold Bounds.segmentPoints
      rcases hi with rfl | rfl <;> rcases hq with rfl | rfl <;> cases t <;> simp
    exact ⟨hpoints _ (hmem _ (.inl rfl)), (hpoints _ (hmem _ (.inr rfl))).z⟩
  refine inside_path hp (fun t ht d => ?_) fun a ha => ?_
  · cases d with
    | forward => exact (hends ht (.inr rfl)).1.toContainsXY
    | reverse => exact (hends ht (.inl rfl)).1.toContainsXY
  · cases hs : p.segments with
    | nil =>
      rw [Path.start?, hs] at ha
      cases ha
    | cons t rest =>
      have hstart : p.vertex t.start = a := by
        rw [Path.start?, hs] at ha
        exact Path.vertex_eq ha
      obtain ⟨hplace, hbottom⟩ := hends (t := t) (hs ▸ List.mem_cons_self) (.inl rfl)
      rw [hstart] at hplace hbottom
      exact ⟨hplace.z, hbottom⟩

theorem inside_plunges {heights : List ℝ} (hz : ∀ z ∈ heights, b.z.Contains z)
    (hm : b.ContainsXY m.position) :
    m.Always s (Command.FeedsInto b s) (heights.map feedZ) := by
  induction heights generalizing m with
  | nil => trivial
  | cons z rest ih =>
    obtain ⟨hz, hrest⟩ := List.forall_mem_cons.mp hz
    exact ⟨fun _ => ⟨⟨hm.x, hm.y⟩, hz⟩, ih hrest ⟨hm.x, hm.y⟩⟩

theorem pecks_eq (o : Options ℝ) (f : Frame ℝ) : pecks o f =
    ((descent o f .zero).strokes.flatMap fun k => k.plunge :: k.retract.toList).map feedZ := by
  unfold pecks
  rw [List.map_flatMap]
  congr 1
  funext k
  cases k.retract <;> rfl

theorem inside_peck (hs : 0 < o.stepDown) (hxy : b.ContainsXY (f.place .zero))
    (htop : b.z.Contains (f.place .zero).z) (hbottom : b.z.Contains (f.bottom .zero)) :
    m.Always s (Command.FeedsInto b s) (peck o f).commands := by
  by_cases hd : (f.place .zero).z ≤ f.bottom .zero
  · rw [peck_of_le hd]
    trivial
  · rw [peck_of_not_le hd, Block.commands_issue, always_append, always_append, pecks_eq]
    refine ⟨⟨inside_approach ⟨hxy, htop⟩ m, inside_plunges (fun z hz => ?_) ?_⟩,
      inside_toSafeHeight⟩
    · obtain ⟨k, hk, hz⟩ := List.mem_flatMap.mp hz
      obtain ⟨hplunge, hretract⟩ := Descent.target_le_of_mem_strokes hs hk
      obtain ⟨hplunge', hretract'⟩ := Descent.le_surface_of_mem_strokes hs hk
      rcases List.mem_cons.mp hz with rfl | hz
      · exact hbottom.between htop hplunge hplunge'
      · have hz := Option.mem_toList.mp hz
        exact hbottom.between htop (hretract z hz) (hretract' z hz)
    · rw [landed_approach]
      exact hxy

theorem bottom_congr {v w : Vec ℝ} (h : (f.place v).z = (f.place w).z) :
    f.bottom v = f.bottom w := by
  unfold Frame.bottom
  rw [h]

theorem lengthScale_nonneg (t : Placement ℝ) : 0 ≤ t.lengthScale := by
  rw [Placement.lengthScale_eq, Vec.norm_real]
  exact Real.sqrt_nonneg _

/-- A wide hole is milled on a circle that is placed inside it. -/
theorem millRadius_pos (htip : 0 ≤ f.job.bit.tipWidth) {diameter : ℝ}
    (hwide : ¬ f.length diameter - f.job.bit.tipWidth ≤ 0) :
    0 < millRadius f diameter ∧
      2 * (millRadius f diameter * f.placement.lengthScale) ≤ f.length diameter := by
  have hpos : 0 < f.length diameter - f.job.bit.tipWidth := not_le.mp hwide
  have hscale : 0 < f.placement.lengthScale := by
    rcases (lengthScale_nonneg f.placement).eq_or_lt with hzero | hlt
    · have hnone : f.length diameter = 0 := by
        rw [Frame.length, ← hzero, mul_zero]
      linarith
    · exact hlt
  unfold millRadius
  rw [two_real]
  refine ⟨div_pos (by linarith) hscale, ?_⟩
  rw [div_mul_cancel₀ _ hscale.ne']
  linarith

theorem inside_hole (hs : 0 < o.stepDown) (hlevel : f.placement.linear.IsLevel)
    (htip : 0 ≤ f.job.bit.tipWidth) {diameter : ℝ}
    (h : ∀ q ∈ Bounds.holePoints f diameter, b.Contains q) :
    m.Always s (Command.FeedsInto b s) (hole o f diameter).commands := by
  have htop := Bounds.contains_top_of_disc h
  have hbottom := Bounds.contains_bottom_of_disc h
  by_cases hwide : f.length diameter - f.job.bit.tipWidth ≤ 0
  · have hcenter : b.ContainsXY (f.place .zero) :=
      Bounds.containsXY_of_disc h (by simp) (by simp)
    rw [hole_of_narrow hwide, Block.issue_bind, always_append]
    exact ⟨inside_of_forall_not_feed (by simp [Command.isFeed]),
      inside_peck hs hcenter htop hbottom⟩
  · obtain ⟨hradius, hreach⟩ := millRadius_pos htip hwide
    obtain ⟨hx, hy, hz⟩ := Frame.place_along_y hlevel (-millRadius f diameter)
    rw [abs_neg, abs_of_pos hradius] at hx hy
    have hwithin : millRadius f diameter * f.placement.lengthScale ≤
        |f.length diameter / two| := by
      rw [two_real]
      refine le_trans ?_ (le_abs_self _)
      linarith
    have hstart : b.ContainsXY (f.place ⟨0, -millRadius f diameter, 0⟩) :=
      Bounds.containsXY_of_disc h (hx.trans hwithin) (hy.trans hwithin)
    rw [hole_of_wide hwide, Block.issue_bind, always_append]
    refine ⟨inside_of_forall_not_feed (by simp [Command.isFeed]),
      inside_path (Path.check_circle _) (fun t ht d => ?_) fun a ha => ?_⟩
    · rw [Path.circle_eq hradius.ne', List.mem_singleton] at ht
      rw [Path.circle_eq hradius.ne', ht]
      cases d <;> exact hstart
    · rw [Path.circle_eq hradius.ne'] at ha
      obtain rfl : (⟨0, -millRadius f diameter, 0⟩ : Vec ℝ) = a := Option.some.inj ha
      rw [hz, bottom_congr hz]
      exact ⟨htop, hbottom⟩

/-- Rings stay inside a box that all of them start in. -/
theorem inside_rings (center : Vec ℝ) (number : Nat) {l : List (Ring ℝ)}
    (hl : ∀ r ∈ l, b.Contains (ringStart f center r))
    (hm : number ≠ 0 → b.z.Contains m.position.z) :
    m.Always s (Command.FeedsInto b s) (rings o f center number l) := by
  induction l generalizing number m with
  | nil => trivial
  | cons r rest ih =>
    obtain ⟨hr, hrest⟩ := List.forall_mem_cons.mp hl
    have hentry :
        m.Always s (Command.FeedsInto b s) (ringEntry o number (ringStart f center r)) := by
      unfold ringEntry
      split_ifs with hn
      · exact inside_approach hr m
      · exact ⟨fun hfeed => (by cases hfeed), fun _ => ⟨⟨hr.x, hr.y⟩, hm hn⟩, fun _ => hr, trivial⟩
    have hround : ((m.run s (ringEntry o number (ringStart f center r))).1.run s
        [.enter (.cutting .forward number),
          .arc true (ringStart f center r) center]).1.position = ringStart f center r := by
      simp only [run_cons, run_nil, Machine.step, Machine.arc]
      rw [landed_ringEntry]
    rw [rings_cons, always_append, always_append]
    refine ⟨⟨hentry, fun hfeed => (by cases hfeed), fun _ => ?_, trivial⟩, ih _ hrest fun _ => ?_⟩
    · exact (congrArg b.Contains hround).mpr hr
    · rw [fst_run_append, hround]
      exact hr.z

/-- The depth of a pocket in a plan leads down to the bottom of its box. -/
theorem sub_pocketDepth (f : Frame ℝ) (c : ℝ) (depth : Depth ℝ) :
    c - pocketDepth f (c - f.job.floor) depth = Bounds.pocketBottom f c depth := by
  cases depth with
  | through => exact sub_sub_cancel _ _
  | down d =>
    simp only [pocketDepth, Bounds.pocketBottom, Frame.aboveFloor, lesser_real, greater_real]
    exact sub_min_sub _ _ _

theorem floor_le_pocketBottom (f : Frame ℝ) (c : ℝ) (depth : Depth ℝ) :
    f.job.floor ≤ Bounds.pocketBottom f c depth := by
  cases depth with
  | through => exact le_rfl
  | down d =>
    rw [Bounds.pocketBottom, Frame.aboveFloor, greater_real]
    exact le_max_right _ _

/-- A height between the edge and the bottom of a wall, both held above a floor, is between the
bottom and the edge as it was drawn. -/
theorem ring_height {center edge bottom floor edgeDepth bottomDepth depth : ℝ}
    (hedge : center - edgeDepth = max edge floor) (hbottom : center - bottomDepth = bottom)
    (hfloor : floor ≤ bottom) (hshallow : min edgeDepth bottomDepth ≤ depth)
    (hdeep : depth ≤ max edgeDepth bottomDepth) :
    min edge bottom ≤ max (center - depth) floor ∧
      max (center - depth) floor ≤ max edge bottom := by
  constructor
  · apply le_max_of_le_left
    rcases le_max_iff.mp hdeep with hd | hd
    · have hup : edge ≤ center - edgeDepth := hedge ▸ le_max_left edge floor
      exact (min_le_left edge bottom).trans (by linarith)
    · exact (min_le_right edge bottom).trans (by linarith)
  · refine max_le ?_ (hfloor.trans (le_max_right _ _))
    rcases min_le_iff.mp hshallow with hd | hd
    · have hdown : center - edgeDepth ≤ max edge bottom :=
        hedge ▸ max_le_max_left edge hfloor
      linarith
    · exact le_max_of_le_right (by linarith)

/-- The box goes up to the edge of the wall also where that is outside the stock; rings do not. -/
theorem contains_ringStart {pocket : Pocket ℝ}
    (h : ∀ q ∈ Bounds.pocketPoints f pocket, b.Contains q) {plan : PocketPlan ℝ}
    (hplan : pocketPlan f pocket = .ok plan) {r : Ring ℝ} (hr : r ∈ plan.rings) :
    b.Contains (ringStart f (f.place .zero) r) := by
  obtain ⟨hnew, hsound⟩ := PocketPlan.sound_of_new hplan
  obtain ⟨hin, hout, hdepth⟩ := PocketPlan.of_mem_rings hsound hr
  obtain ⟨hshallow, hdeep⟩ := PocketPlan.wallDepth_between hin hout
  have hradius : |r.radius| ≤ |f.length pocket.diameter / two| := by
    have htop : plan.topRadius = f.length pocket.diameter / two := by rw [hnew]
    rw [abs_of_nonneg (hsound.bottom.trans hin), ← htop]
    exact hout.trans (le_abs_self _)
  have hxy : b.ContainsXY (ringStart f (f.place .zero) r) := by
    apply Bounds.containsXY_of_disc h
    · simp [ringStart]
    · simpa [ringStart] using hradius
  have hupper : (f.place .zero).z - plan.edgeDepth =
      max ((f.place .zero).z - f.depth pocket.edgeDepth) f.job.floor := by
    rw [hnew, lesser_real, stockBelow, sub_min_sub]
  have hlower : (f.place .zero).z - plan.bottomDepth =
      Bounds.pocketBottom f (f.place .zero).z pocket.bottomDepth := by
    rw [hnew, stockBelow, sub_pocketDepth]
  have hfloor := floor_le_pocketBottom f (f.place .zero).z pocket.bottomDepth
  obtain ⟨hlow, hhigh⟩ := ring_height hupper hlower hfloor hshallow hdeep
  rw [← hdepth, ← greater_real] at hlow hhigh
  have hedge := Bounds.contains_top_of_disc h
  have hbottom := Bounds.contains_bottom_of_disc h
  exact ⟨hxy, hedge.within hbottom hlow hhigh⟩

theorem inside_pocket {pocket : Pocket ℝ} (h : ∀ q ∈ Bounds.pocketPoints f pocket, b.Contains q) :
    m.Always s (Command.FeedsInto b s) (Carve.pocket o f pocket).commands := by
  rcases pocket_cases f pocket with ⟨plan, hopen, habove, hplan⟩ | ⟨-, hcommands⟩
  · rw [pocket_of_plan hopen habove hplan, Block.commands_issue, always_append]
    exact ⟨inside_rings _ 0 (fun r hr => contains_ringStart h hplan hr) fun hn => absurd rfl hn,
      inside_toSafeHeight⟩
  · rw [hcommands]
    trivial

end Carve
end Toolpath
