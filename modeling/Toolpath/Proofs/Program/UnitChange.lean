import Toolpath.Proofs.Program.Scaled
import Toolpath.Bounds

/-! The unit that a group is written in makes no difference to what comes of it. Through nested
groups only the innermost unit counts. -/
namespace Toolpath
open Scalar

namespace Bounds
variable {k : ℝ} {f g : Frame ℝ}

theorem segmentPoints_scaled (h : f.Matches 1 k g) (vertex : Nat → Vec ℝ) (s : Segment) :
    segmentPoints g (fun i => (vertex i).scale k) s = segmentPoints f vertex s := by
  unfold segmentPoints
  simp only [h.place_eq, h.bottom_eq]

theorem tracePoints_scaled (h : f.Matches 1 k g) (p : Path ℝ) :
    tracePoints g (p.scaled k) = tracePoints f p := by
  have hvertex : ∀ i, (p.scaled k).vertices.getD i .zero = (p.vertices.getD i .zero).scale k := by
    intro i
    rw [List.getD_eq_getElem?_getD, List.getD_eq_getElem?_getD, p.getElem?_scaled]
    cases p.vertices[i]? with
    | none => exact (Vec.zero_scale k).symm
    | some v => rfl
  unfold tracePoints
  simp only [hvertex]
  exact congrArg p.segments.flatMap (funext (segmentPoints_scaled h _))

theorem holePoints_scaled (h : f.Matches 1 k g) (diameter : ℝ) :
    holePoints g (diameter * k) = holePoints f diameter := by
  unfold holePoints
  rw [h.place_zero, h.length_eq, h.bottom_zero]

theorem pocketPoints_scaled (h : f.Matches 1 k g) (p : Pocket ℝ) :
    pocketPoints g (p.scaled k) = pocketPoints f p := by
  have hbottom : ∀ z, pocketBottom g z (p.bottomDepth.scaled k) =
      pocketBottom f z p.bottomDepth := by
    intro z
    cases p.bottomDepth with
    | through => exact h.floor.trans (mul_one _)
    | down d =>
      change g.aboveFloor (z - g.depth (d * k)) = f.aboveFloor (z - f.depth d)
      rw [h.depth_eq, h.aboveFloor_eq]
  unfold pocketPoints
  simp only [Pocket.scaled, h.place_zero, h.length_eq, h.depth_eq, hbottom]

theorem make_eq_of_matches {a b : Call ℝ} (h : Call.Matches 1 k a b) :
    backend.make b = backend.make a := by
  cases h with
  | comment h text => rfl
  | trace h p => exact congrArg collect (tracePoints_scaled h p)
  | hole h diameter => exact congrArg collect (holePoints_scaled h diameter)
  | pocket h p => exact congrArg collect (pocketPoints_scaled h p)
  | pause h => rfl

end Bounds

/-- A linear map after the poses on a route, which are taken without their shifts. -/
noncomputable def Linear.posed (m : Linear ℝ) (route : List (Leg ℝ)) : Linear ℝ :=
  route.foldl (fun m leg => m.mul leg.pose.toPlacement.linear) m

namespace Frame

theorem Leads.linear {f g : Frame ℝ} {leg : Leg ℝ} {m : Linear ℝ} {s : ℝ}
    (hden : f.unitScale.den ≠ 0)
    (hf : f.placement.linear.scale s = m.scale f.unitScale.toScalar) (hg : f.Leads leg g) :
    g.unitScale.den ≠ 0 ∧ g.placement.linear.scale s =
      (m.mul leg.pose.toPlacement.linear).scale g.unitScale.toScalar := by
  cases hg with
  | @plain pose room =>
    refine ⟨hden, ?_⟩
    change (f.placement.linear.mul pose.toPlacement.linear).scale s = _
    rw [← Linear.scale_mul, hf, Linear.scale_mul]
  | @inUnit a pose unit ratio room decoded divided =>
    have hne := Ratio.ne_zero_of_div divided hden
    refine ⟨Amount.den_ne_zero_of_decode decoded, ?_⟩
    change ((f.placement * .scale ratio.toScalar).linear.mul pose.toPlacement.linear).scale s =
      (m.mul pose.toPlacement.linear).scale unit.toScalar
    rw [Placement.mul_scale_linear, ← Linear.scale_mul, Linear.scale_scale, mul_comm,
      ← Linear.scale_scale, hf, Linear.scale_scale, Ratio.of_div divided, mul_div_cancel₀ _ hne,
      Linear.scale_mul]

/-- The units on a route cancel but for the first and the last. -/
theorem linear_along {route : List (Leg ℝ)} {f g : Frame ℝ} {m : Linear ℝ} {s : ℝ}
    (hden : f.unitScale.den ≠ 0)
    (hf : f.placement.linear.scale s = m.scale f.unitScale.toScalar)
    (hg : f.along route = .ok g) :
    g.placement.linear.scale s = (m.posed route).scale g.unitScale.toScalar := by
  induction route generalizing f m with
  | nil => exact Except.ok.inj hg ▸ hf
  | cons leg rest ih =>
    obtain ⟨child, hchild, hrest⟩ := along_cons_eq_ok.mp hg
    obtain ⟨hden', hlinear⟩ := hchild.linear hden hf
    exact ih hden' hlinear hrest

/-- The unit at the end of a route is the innermost one that is declared. -/
theorem unitScale_along {route : List (Leg ℝ)} {f g : Frame ℝ} (hg : f.along route = .ok g) :
    match (route.filterMap Leg.unit).getLast? with
    | none => g.unitScale = f.unitScale
    | some a => f.job.decode a = .ok g.unitScale := by
  induction route generalizing f with
  | nil => exact congrArg unitScale (Except.ok.inj hg).symm
  | cons leg rest ih =>
    obtain ⟨child, hchild, hrest⟩ := along_cons_eq_ok.mp hg
    have hinner := ih hrest
    cases hchild with
    | plain room => exact hinner
    | @inUnit a pose unit ratio room decoded divided =>
      have hcons : (Leg.mk (some a) pose :: rest).filterMap Leg.unit =
          a :: rest.filterMap Leg.unit := rfl
      rw [hcons, List.getLast?_cons]
      cases hlast : (rest.filterMap Leg.unit).getLast? with
      | none =>
        rw [hlast] at hinner
        exact hinner ▸ decoded
      | some b =>
        rw [hlast] at hinner
        exact hinner

end Frame

theorem Job.rescaled_one (job : Job ℝ) : job.Rescaled 1 job where
  pos := one_pos
  floor := (mul_one _).symm
  decode a u v hu hv := by
    rw [Except.ok.inj (hu.symm.trans hv), mul_one]

theorem Frame.rescaled_one (f : Frame ℝ) : Frame.Rescaled f.job f.job 1 1 f f where
  pos := one_pos
  job := rfl
  job' := rfl
  placement := by
    refine Placement.ext ?_ ?_
    · rw [Placement.mul_scale_linear, Placement.scale_mul_linear]
    · rw [Placement.mul_scale_offset, Placement.scale_mul_offset, Vec.scale_one]
  unit := rfl
  depthOffset := (mul_one _).symm
  through := rfl

theorem Backend.forM_make_congr {σ ε : Type} {b : Backend ℝ σ ε} {r : Call ℝ → Call ℝ → Prop}
    {l l' : List (Call ℝ)} (h : List.Forall₂ r l l') (hb : ∀ x y, r x y → b.make x = b.make y) :
    l.forM b.make = l'.forM b.make := by
  induction h with
  | nil => rfl
  | @cons x y rest rest' hxy _ ih =>
    change (b.make x >>= fun _ => rest.forM b.make) = (b.make y >>= fun _ => rest'.forM b.make)
    rw [hb x y hxy, ih]

theorem Backend.visit_eq_of_alike {σ ε : Type} {b : Backend ℝ σ ε} {r : Call ℝ → Call ℝ → Prop}
    {f : Frame ℝ} {x y : Cut ℝ} (h : (x.itinerary f).Alike r (y.itinerary f))
    (hx : (x.itinerary f).stop = none) (hy : (y.itinerary f).stop = none)
    (hb : ∀ c d, r c d → b.make c = b.make d) : b.visit f x = b.visit f y := by
  rw [visit_eq_follow, visit_eq_follow, follow_of_stop_eq_none _ hx, follow_of_stop_eq_none _ hy]
  exact forM_make_congr (h hx hy) hb

theorem Carve.make_eq_of_rescaled {job : Job ℝ} {k : ℝ} (hk : k ≠ 0) (o : Options ℝ)
    {c d : Call ℝ} (h : Call.Rescaled job job 1 k c d) :
    (Carve.backend o).make c = (Carve.backend o).make d := by
  have hjob : d.frame.job = c.frame.job := h.job'.trans h.job.symm
  rw [make_backend, make_backend]
  rcases h.agree with h | h
  · rw [block_eq_of_matches h hk hjob]
  · rw [block_eq_of_matches h one_ne_zero hjob]

theorem Bounds.make_eq_of_rescaled {job : Job ℝ} {k : ℝ} {c d : Call ℝ}
    (h : Call.Rescaled job job 1 k c d) : Bounds.backend.make c = Bounds.backend.make d := by
  rcases h.agree with h | h
  · exact (make_eq_of_matches h).symm
  · exact (make_eq_of_matches h).symm

variable {f : Frame ℝ} {u v : Amount} {m n : Ratio} {k : ℝ} {poses : List (Pose ℝ)}
  {components : List (Cut ℝ)} {comment : Option String}

/-- A group, and the group in another unit, make matching calls. -/
theorem Cut.alike_unit_change (hu : f.job.decode u = .ok m) (hv : f.job.decode v = .ok n)
    (hk : 0 < k) (hmn : (n.toScalar : ℝ) * k = m.toScalar) :
    ((Cut.group poses components (some u) comment).itinerary f).Alike
      (Call.Rescaled f.job f.job 1 k)
      ((Cut.group (poses.map (·.scaled k)) (Cut.scaledAll k components) (some v)
        comment).itinerary f) := by
  have hj := f.job.rescaled_one
  have hf := f.rescaled_one
  cases ha : f.inUnit (some u) with
  | error e => exact fun hstop => absurd hstop (Cut.stop_itinerary_of_inUnit ha _ _ _)
  | ok base =>
    cases hb : f.inUnit (some v) with
    | error e => exact fun _ hstop => absurd hstop (Cut.stop_itinerary_of_inUnit hb _ _ _)
    | ok base' =>
      have hbase : Frame.Rescaled f.job f.job 1 k base base' := by
        obtain ⟨m', hm', ha⟩ := Frame.inUnit_some_eq_ok.mp ha
        obtain ⟨n', hn', hb⟩ := Frame.inUnit_some_eq_ok.mp hb
        obtain rfl := Except.ok.inj (hu.symm.trans hm')
        obtain rfl := Except.ok.inj (hv.symm.trans hn')
        exact hf.rebase hj hk (hmn.trans (mul_one _).symm) ha hb
      rw [Cut.itinerary_group ha, Cut.itinerary_group hb]
      refine (Itinerary.alike_remark (fun text => (hf.comment hj text).of_one k) comment).append ?_
      exact hbase.alike_repeated (fun _ _ h => Cut.itineraryAll_scaled hj h components) poses

/-- The unit that a group is written in does not matter to any backend that goes by what it reads
off the frames, and so not to programs and bounds. Of the units on a route only the innermost one is
left in the placement. -/
theorem Cut.visit_unit_change (hu : f.job.decode u = .ok m) (hv : f.job.decode v = .ok n)
    (hm : 0 < (m.toScalar : ℝ)) (hn : 0 < (n.toScalar : ℝ)) (hk : k = m.toScalar / n.toScalar)
    {a b : Cut ℝ} (ha : a = .group poses components (some u) comment)
    (hb : b = .group (poses.map (·.scaled k)) (Cut.scaledAll k components) (some v) comment)
    (hs : (a.itinerary f).stop = none) (hs' : (b.itinerary f).stop = none) :
    List.Forall₂ (Call.Rescaled f.job f.job 1 k) (a.itinerary f).calls (b.itinerary f).calls ∧
    (∀ (σ ε : Type) (backend : Backend ℝ σ ε),
      (∀ x y, Call.Rescaled f.job f.job 1 k x y → backend.make x = backend.make y) →
      backend.visit f a = backend.visit f b) ∧
    (∀ o, (Carve.backend o).visit f a = (Carve.backend o).visit f b) ∧
    Bounds.backend.visit f a = Bounds.backend.visit f b ∧
    (f = .root f.job → ∀ o before after,
      Carve.generate o f.job (before ++ a :: after) =
        Carve.generate o f.job (before ++ b :: after) ∧
      Bounds.ofCuts f.job (before ++ a :: after) = Bounds.ofCuts f.job (before ++ b :: after)) ∧
    ∀ route g, f.unitScale.den ≠ 0 → f.along route = .ok g →
      g.placement.linear.scale f.unitScale.toScalar =
        (f.placement.linear.posed route).scale g.unitScale.toScalar ∧
      match (route.filterMap Leg.unit).getLast? with
      | none => g.unitScale = f.unitScale
      | some a => f.job.decode a = .ok g.unitScale := by
  have hpos : 0 < k := hk ▸ div_pos hm hn
  have hmn : (n.toScalar : ℝ) * k = m.toScalar := by rw [hk, mul_div_cancel₀ _ hn.ne']
  have halike : (a.itinerary f).Alike (Call.Rescaled f.job f.job 1 k) (b.itinerary f) := by
    subst ha hb
    exact Cut.alike_unit_change hu hv hpos hmn
  have hcarve : ∀ o, (Carve.backend o).visit f a = (Carve.backend o).visit f b := fun o =>
    Backend.visit_eq_of_alike halike hs hs' fun _ _ => Carve.make_eq_of_rescaled hpos.ne' o
  have hbounds : Bounds.backend.visit f a = Bounds.backend.visit f b :=
    Backend.visit_eq_of_alike halike hs hs' fun _ _ => Bounds.make_eq_of_rescaled
  refine ⟨halike hs hs', fun σ ε backend hmake => Backend.visit_eq_of_alike halike hs hs' hmake,
    hcarve, hbounds, fun hroot o before after => ⟨?_, ?_⟩,
    fun route g hden hg => ⟨Frame.linear_along hden rfl hg, Frame.unitScale_along hg⟩⟩
  · unfold Carve.generate
    rw [Backend.visitAll_congr _ (hroot ▸ hcarve o)]
  · unfold Bounds.ofCuts
    rw [Backend.visitAll_congr _ (hroot ▸ hbounds)]

/-- A hole of an inch is a hole of 25.4 millimeters. -/
theorem Cut.visit_unit_change_hole :
    Carve.generate .standard (.quarterInch : Job ℝ)
        [.group [.identity] [.hole 1 .through none] (some (.single .inch 1)) none] =
      Carve.generate .standard .quarterInch
        [.group [.identity] [.hole (127 / 5) .through none] (some (.single .millimeter 1))
          none] := by
  have hinch : (Job.quarterInch : Job ℝ).decode (.single .inch 1) = .ok 1 := rfl
  have hmillimeter : (Job.quarterInch : Job ℝ).decode (.single .millimeter 1) = .ok ⟨5, 127⟩ := rfl
  have hm : ((1 : Ratio).toScalar : ℝ) = 1 := Ratio.toScalar_one
  have hn : ((⟨5, 127⟩ : Ratio).toScalar : ℝ) = 5 / 127 := by
    rw [Ratio.toScalar_real]
    norm_num
  have hk : (127 / 5 : ℝ) = (1 : Ratio).toScalar / (⟨5, 127⟩ : Ratio).toScalar := by
    rw [hm, hn]
    norm_num
  have hother : Cut.group [.identity] [.hole (127 / 5) .through none]
      (some (.single .millimeter 1)) none =
      .group ([.identity].map (Pose.scaled (127 / 5)))
        (Cut.scaledAll (127 / 5) [.hole (1 : ℝ) .through none]) (some (.single .millimeter 1))
        none := by
    simp [Pose.identity, Pose.scaled, Position.scaled, Cut.scaledAll, Cut.scaled, Depth.scaled]
  obtain ⟨f, hf⟩ := Cut.exists_itinerary_hole hinch rfl .identity (1 : ℝ) .through
  obtain ⟨g, hg⟩ := Cut.exists_itinerary_hole hmillimeter rfl .identity (127 / 5 : ℝ) .through
  obtain ⟨-, -, -, -, hroot, -⟩ := Cut.visit_unit_change (f := .root .quarterInch) hinch hmillimeter
    (by rw [hm]; norm_num) (by rw [hn]; norm_num) hk rfl hother (congrArg Itinerary.stop hf)
    (congrArg Itinerary.stop hg)
  exact (hroot rfl .standard [] []).1

end Toolpath
