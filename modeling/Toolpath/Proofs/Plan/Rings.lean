import Mathlib.Analysis.Convex.Segment
import Mathlib.Analysis.Normed.Group.AddTorsor
import Mathlib.LinearAlgebra.AffineSpace.Ordered
import Toolpath.Plan.Pocket
import Toolpath.Proofs.Plan.Unrolling
import Toolpath.Proofs.Scalar.Exact

/-! Exact rings stay between the rim and the bottom of a pocket, in their radius and in their depth.
They get smaller until they end, at the bottom or within the tolerance of it. -/
namespace Toolpath
open Scalar

namespace PocketPlan

/-- A plan whose bottom lies within its rim and whose rings get smaller. -/
structure Sound (p : PocketPlan ℝ) : Prop where
  bottom : 0 ≤ p.bottomRadius
  rim : p.bottomRadius ≤ p.topRadius
  step : 0 < p.step

section
variable {α : Type} [Scalar α] {q : PocketPlan α} {radius : α}

/-- The ring at a radius. -/
def ringAt (q : PocketPlan α) (radius : α) : Ring α := ⟨radius, q.wallDepth radius⟩

theorem nextRing?_of_le (h : radius ≤ q.bottomRadius + tolerance) :
    q.nextRing? (some radius) = some (q.ringAt radius, none) := by
  rw [nextRing?, if_pos h, ringAt]

theorem nextRing?_of_not_le (h : ¬ radius ≤ q.bottomRadius + tolerance) :
    q.nextRing? (some radius) = some (q.ringAt radius, some (q.inner radius)) := by
  rw [nextRing?, if_neg h, ringAt]

/-- Neighbours are a ring that is not the last and the one a step inward. -/
theorem isChain_rings_of {R : Ring α → Ring α → Prop}
    (h : ∀ radius, ¬ radius ≤ q.bottomRadius + tolerance →
      R (q.ringAt radius) (q.ringAt (q.inner radius))) : q.rings.IsChain R := by
  refine isChain_unfold (fun radius ring next ring' next' hring hnext => ?_) _ _
  cases radius with
  | none => cases hring
  | some radius =>
    by_cases hlast : radius ≤ q.bottomRadius + tolerance
    · cases hring.symm.trans (nextRing?_of_le hlast)
      cases hnext
    · cases hring.symm.trans (nextRing?_of_not_le hlast)
      cases hnext
      exact h radius hlast

end

variable {p : PocketPlan ℝ}

theorem exists_fuel_eq {α : Type} [Scalar α] (p : PocketPlan α) : ∃ n, p.fuel = n + 1 + 1 := by
  have hsize : UInt64.size ≤ p.fuel := Nat.le_add_left _ _
  exact Nat.exists_eq_add_of_le' ((by decide : 2 ≤ UInt64.size).trans hsize)

/-- The first ring is at the rim. -/
theorem exists_rings_eq_cons {α : Type} [Scalar α] (p : PocketPlan α) :
    ∃ rest, p.rings = ⟨p.topRadius, p.wallDepth p.topRadius⟩ :: rest := by
  obtain ⟨n, hfuel⟩ := p.exists_fuel_eq
  rw [rings, hfuel, unfold_succ_of_some rfl]
  exact ⟨_, rfl⟩

/-- A rim that is hardly wider than the bottom is the only ring. -/
theorem rings_of_le {α : Type} [Scalar α] {p : PocketPlan α}
    (h : p.topRadius ≤ p.bottomRadius + tolerance) : p.rings = [p.ringAt p.topRadius] := by
  obtain ⟨n, hfuel⟩ := p.exists_fuel_eq
  rw [rings, hfuel, unfold_succ_of_some (nextRing?_of_le h), unfold_of_none rfl]

/-- The second ring is one step inward. -/
theorem exists_rings_eq_cons_cons {α : Type} [Scalar α] {p : PocketPlan α}
    (h : ¬ p.topRadius ≤ p.bottomRadius + tolerance) :
    ∃ rest, p.rings = ⟨p.topRadius, p.wallDepth p.topRadius⟩ ::
      ⟨p.inner p.topRadius, p.wallDepth (p.inner p.topRadius)⟩ :: rest := by
  have hfirst : p.nextRing? (some p.topRadius) =
      some (⟨p.topRadius, p.wallDepth p.topRadius⟩, some (p.inner p.topRadius)) := by
    rw [nextRing?, if_neg h]
  obtain ⟨n, hfuel⟩ := p.exists_fuel_eq
  rw [rings, hfuel, unfold_succ_of_some hfirst, unfold_succ_of_some rfl]
  exact ⟨_, rfl⟩

theorem sound_of_new {top bottom edge depth step : ℝ}
    (h : PocketPlan.new top bottom edge depth step = .ok p) :
    p = ⟨top, bottom, edge, depth, step⟩ ∧ p.Sound := by
  unfold PocketPlan.new at h
  split_ifs at h with hradii hstep
  obtain rfl := Except.ok.inj h
  obtain ⟨hbottom, hrim⟩ := not_or.mp hradii
  exact ⟨rfl, not_lt.mp hbottom, not_lt.mp hrim, not_le.mp (not_or.mp hstep).2⟩

theorem tolerance_real : (tolerance : ℝ) = 1 / 10 ^ 9 := by
  unfold tolerance
  rw [ofRatio_real]
  norm_num

theorem tolerance_pos : (0 : ℝ) < tolerance := by
  rw [tolerance_real]
  norm_num

/-- One step inward is the radius of the bottom, or a full step and still outside it. -/
theorem inner_cases (p : PocketPlan ℝ) (radius : ℝ) : p.inner radius = p.bottomRadius ∨
    p.inner radius = radius - p.step ∧ p.bottomRadius ≤ radius - p.step := by
  have ht := tolerance_pos
  unfold inner
  split_ifs with h
  · exact .inl rfl
  · exact .inr ⟨rfl, by linarith⟩

theorem bottom_le_inner (p : PocketPlan ℝ) (radius : ℝ) : p.bottomRadius ≤ p.inner radius := by
  rcases p.inner_cases radius with hi | ⟨hi, hle⟩
  · exact hi.ge
  · exact hi ▸ hle

/-- Every ring lies between the bottom and the rim, at the depth of the wall there. -/
theorem of_mem_rings (hp : p.Sound) {r : Ring ℝ} (h : r ∈ p.rings) :
    p.bottomRadius ≤ r.radius ∧ r.radius ≤ p.topRadius ∧ r.depth = p.wallDepth r.radius := by
  have hstep := hp.step
  refine forall_mem_unfold
    (I := fun radius => ∀ x ∈ radius, p.bottomRadius ≤ x ∧ x ≤ p.topRadius)
    (Q := fun r => p.bottomRadius ≤ r.radius ∧ r.radius ≤ p.topRadius ∧
      r.depth = p.wallDepth r.radius)
    (fun radius ring next hradius hn => ?_) (by simpa using hp.rim) r h
  cases radius with
  | none => cases hn
  | some x =>
    obtain ⟨hlow, hhigh⟩ := hradius x rfl
    cases hn
    refine ⟨⟨hlow, hhigh, rfl⟩, ?_⟩
    split_ifs
    · simp
    · intro y hy
      obtain rfl : p.inner x = y := Option.some.inj hy
      rcases p.inner_cases x with hi | ⟨hi, hle⟩
      · rw [hi]
        exact ⟨le_rfl, hp.rim⟩
      · rw [hi]
        exact ⟨hle, by linarith⟩

/-- Rings get smaller. -/
theorem isChain_rings (hp : p.Sound) : p.rings.IsChain fun a b => b.radius < a.radius := by
  have hstep := hp.step
  have ht := tolerance_pos
  refine isChain_rings_of fun radius hlast => ?_
  change p.inner radius < radius
  rcases p.inner_cases radius with hi | ⟨hi, -⟩
  · rw [hi]
    linarith
  · rw [hi]
    linarith

theorem Sound.pairwise_rings (hp : p.Sound) :
    p.rings.Pairwise fun a b => b.radius < a.radius := by
  have hradii : (p.rings.map Ring.radius).IsChain (· > ·) :=
    (List.isChain_map _).mpr (isChain_rings hp)
  exact List.pairwise_map.mp (List.isChain_iff_pairwise.mp hradii)

/-- How far inward a radius is, as a part of the way from the rim to the bottom. -/
noncomputable def inward (p : PocketPlan ℝ) (radius : ℝ) : ℝ :=
  (p.topRadius - radius) / (p.topRadius - p.bottomRadius)

theorem wallDepth_of_le (h : p.topRadius ≤ p.bottomRadius) (radius : ℝ) :
    p.wallDepth radius = p.bottomDepth := if_pos (sub_nonpos.mpr h)

/-- The wall goes straight from its edge to its bottom. -/
theorem wallDepth_of_lt (h : p.bottomRadius < p.topRadius) (radius : ℝ) : p.wallDepth radius =
    AffineMap.lineMap p.edgeDepth p.bottomDepth (p.inward radius) := by
  unfold wallDepth inward
  dsimp only
  rw [if_neg (sub_pos.mpr h).not_ge, AffineMap.lineMap_apply_ring']
  ring

section
variable {a b : ℝ}

theorem inward_lt_inward (hspan : p.bottomRadius < p.topRadius) (hab : b < a) :
    p.inward a < p.inward b :=
  div_lt_div_of_pos_right (sub_lt_sub_left hab _) (sub_pos.mpr hspan)

/-- A wall gets deeper inward exactly if its bottom is below its edge. -/
theorem wallDepth_lt_iff (hspan : p.bottomRadius < p.topRadius) (hab : b < a) :
    p.wallDepth a < p.wallDepth b ↔ p.edgeDepth < p.bottomDepth := by
  rw [wallDepth_of_lt hspan, wallDepth_of_lt hspan]
  exact lineMap_lt_lineMap_iff_of_lt (inward_lt_inward hspan hab)

/-- A wall gets deeper outward exactly if its edge is below its bottom. -/
theorem lt_wallDepth_iff (hspan : p.bottomRadius < p.topRadius) (hab : b < a) :
    p.wallDepth b < p.wallDepth a ↔ p.bottomDepth < p.edgeDepth := by
  rw [wallDepth_of_lt hspan, wallDepth_of_lt hspan]
  exact lt_iff_lt_of_le_iff_le (lineMap_le_lineMap_iff_of_lt (inward_lt_inward hspan hab))

/-- A wall whose bottom is below its edge goes down inward. -/
theorem wallDepth_anti (h : p.edgeDepth ≤ p.bottomDepth) (hab : b ≤ a) :
    p.wallDepth a ≤ p.wallDepth b := by
  rcases le_or_gt p.topRadius p.bottomRadius with hcylinder | hspan
  · rw [wallDepth_of_le hcylinder, wallDepth_of_le hcylinder]
  · rcases hab.eq_or_lt with rfl | hlt
    · exact le_rfl
    · exact not_lt.mp (mt (lt_wallDepth_iff hspan hlt).mp h.not_gt)

/-- A wall whose bottom is not below its edge does not go down inward. -/
theorem wallDepth_mono (h : p.bottomDepth ≤ p.edgeDepth) (hab : b ≤ a) :
    p.wallDepth b ≤ p.wallDepth a := by
  rcases le_or_gt p.topRadius p.bottomRadius with hcylinder | hspan
  · rw [wallDepth_of_le hcylinder, wallDepth_of_le hcylinder]
  · rcases hab.eq_or_lt with rfl | hlt
    · exact le_rfl
    · exact not_lt.mp (mt (wallDepth_lt_iff hspan hlt).mp h.not_gt)

end

/-- The wall between the rim and the bottom is no higher than the upper one of the two, and no lower
than the lower one. -/
theorem wallDepth_between {radius : ℝ} (hlow : p.bottomRadius ≤ radius)
    (hhigh : radius ≤ p.topRadius) :
    min p.edgeDepth p.bottomDepth ≤ p.wallDepth radius ∧
      p.wallDepth radius ≤ max p.edgeDepth p.bottomDepth := by
  rcases le_or_gt p.topRadius p.bottomRadius with hcylinder | hspan
  · rw [wallDepth_of_le hcylinder]
    exact ⟨min_le_right _ _, le_max_right _ _⟩
  · have hpos := sub_pos.mpr hspan
    have hinward : p.inward radius ∈ Set.Icc 0 1 :=
      ⟨div_nonneg (by linarith) hpos.le, (div_le_one hpos).mpr (by linarith)⟩
    have hmem := lineMap_mem_segment ℝ p.edgeDepth p.bottomDepth hinward
    rw [wallDepth_of_lt hspan]
    rwa [segment_eq_uIcc] at hmem

theorem wallDepth_bottom (p : PocketPlan ℝ) : p.wallDepth p.bottomRadius = p.bottomDepth := by
  rcases le_or_gt p.topRadius p.bottomRadius with hcylinder | hspan
  · exact wallDepth_of_le hcylinder _
  · rw [wallDepth_of_lt hspan, inward, div_self (sub_pos.mpr hspan).ne',
      AffineMap.lineMap_apply_one]

/-- Rings from a radius inward end on the axis. A radius that is some steps outside the tolerance
stops short of it, as the ring at the tolerance is the last one. -/
def EndsOnAxis (step radius : ℝ) : Prop :=
  radius = 0 ∨ tolerance < radius ∧ ∀ n : ℕ, radius ≠ tolerance + n * step

/-- Less than a step outside the tolerance, the next radius is held at the axis. -/
theorem endsOnAxis_of_lt {step radius : ℝ} (hstep : 0 < step) (hfar : tolerance < radius)
    (hnear : radius < tolerance + step) : EndsOnAxis step radius := by
  refine .inr ⟨hfar, fun n hn => ?_⟩
  cases n with
  | zero =>
    rw [Nat.cast_zero] at hn
    linarith
  | succ n =>
    have hmul : 0 ≤ (n : ℝ) * step := by positivity
    rw [Nat.cast_succ] at hn
    linarith

theorem endsOnAxis_sub_step {step radius : ℝ} (h : tolerance ≤ radius - step) (hstep : 0 < step) :
    EndsOnAxis step (radius - step) ↔ EndsOnAxis step radius := by
  have ht := tolerance_pos
  have hfar : radius - step ≠ 0 := by linarith
  have hfar' : radius ≠ 0 := by linarith
  unfold EndsOnAxis
  rw [or_iff_right hfar, or_iff_right hfar']
  constructor
  · rintro ⟨hlt, hne⟩
    refine ⟨by linarith, fun n hn => ?_⟩
    cases n with
    | zero => rw [Nat.cast_zero] at hn; linarith
    | succ n =>
      rw [Nat.cast_succ] at hn
      exact hne n (by linarith)
  · rintro ⟨-, hne⟩
    refine ⟨h.lt_of_ne fun heq => hne 1 ?_, fun n hn => hne (n + 1) ?_⟩
    · rw [Nat.cast_one]
      linarith
    · rw [Nat.cast_succ]
      linarith

section
variable {α : Type} [Scalar α] {q : PocketPlan α} {radius : α}

/-- Rings that end are a last one alone, or one ring and those from the radius after it. -/
theorem rings_induction {motive : α → List (Ring α) → Prop}
    (last : ∀ radius, radius ≤ q.bottomRadius + tolerance → motive radius [q.ringAt radius])
    (next : ∀ radius l, ¬ radius ≤ q.bottomRadius + tolerance → motive (q.inner radius) l →
      motive radius (q.ringAt radius :: l)) {l : List (Ring α)}
    (h : Unrolls q.nextRing? (some radius) l) : motive radius l := by
  obtain ⟨s, hs⟩ : ∃ s, s = some radius := ⟨_, rfl⟩
  rw [← hs] at h
  induction h generalizing radius with
  | done hdone =>
    subst hs
    cases hdone
  | step hstep rest ih =>
    subst hs
    by_cases hlast : radius ≤ q.bottomRadius + tolerance
    · cases hstep.symm.trans (nextRing?_of_le hlast)
      cases rest with
      | done _ => exact last radius hlast
      | step h _ => cases h
    · cases hstep.symm.trans (nextRing?_of_not_le hlast)
      exact next radius _ hlast (ih rfl)

end

/-- From a radius within some steps of the bottom, rings end after at most that many more. -/
theorem Sound.exists_unrolls (hp : p.Sound) (n : ℕ) {radius : ℝ}
    (hn : radius - p.bottomRadius ≤ n * p.step) :
    ∃ l, Unrolls p.nextRing? (some radius) l ∧ l.length ≤ n + 1 := by
  have ht := tolerance_pos
  have hstep := hp.step
  induction n generalizing radius with
  | zero =>
    rw [Nat.cast_zero, zero_mul] at hn
    have hlast : radius ≤ p.bottomRadius + tolerance := by linarith
    exact ⟨[p.ringAt radius], .step (nextRing?_of_le hlast) (.done rfl), le_rfl⟩
  | succ n ih =>
    by_cases hlast : radius ≤ p.bottomRadius + tolerance
    · exact ⟨[p.ringAt radius], .step (nextRing?_of_le hlast) (.done rfl), by simp⟩
    · have hinner : p.inner radius - p.bottomRadius ≤ n * p.step := by
        rcases p.inner_cases radius with hi | ⟨hi, -⟩
        · rw [hi, sub_self]
          positivity
        · rw [Nat.cast_succ] at hn
          rw [hi]
          linarith
      obtain ⟨l, hl, hlength⟩ := ih hinner
      exact ⟨p.ringAt radius :: l, .step (nextRing?_of_not_le hlast) hl,
        Nat.succ_le_succ hlength⟩

/-- Exact rings end, and the fuel of a plan is enough for all of them. -/
theorem Sound.unrolls_rings (hp : p.Sound) : Unrolls p.nextRing? (some p.topRadius) p.rings := by
  have hceil : (p.topRadius - p.bottomRadius) / p.step ≤
      ⌈(p.topRadius - p.bottomRadius) / p.step⌉₊ := Nat.le_ceil _
  obtain ⟨l, hl, hlength⟩ := hp.exists_unrolls _ ((div_le_iff₀ hp.step).mp hceil)
  have hfuel : l.length ≤ p.fuel := by
    have hsize : 1 ≤ UInt64.size := by decide
    rw [fuel, ceiling_real]
    omega
  rwa [rings, hl.unfold_eq hfuel]

/-- Where the rings from a radius inward end: at the bottom, or else at the last radius that is
still taken to be there. -/
noncomputable def finalRadius (p : PocketPlan ℝ) (radius : ℝ) : ℝ :=
  open Classical in
  if EndsOnAxis p.step (radius - p.bottomRadius) then p.bottomRadius
  else min radius (p.bottomRadius + tolerance)

theorem finalRadius_of_le {radius : ℝ} (hradius : p.bottomRadius ≤ radius)
    (h : radius ≤ p.bottomRadius + tolerance) : p.finalRadius radius = radius := by
  unfold finalRadius
  split_ifs with hends
  · rcases hends with hzero | ⟨hfar, -⟩
    · linarith
    · linarith
  · exact min_eq_left h

/-- Going one step inward does not change where the rings end. -/
theorem finalRadius_inner (hstep : 0 < p.step) {radius : ℝ}
    (h : p.bottomRadius + tolerance < radius) :
    p.finalRadius (p.inner radius) = p.finalRadius radius := by
  have ht := tolerance_pos
  unfold inner
  split_ifs with hheld
  · have hends : EndsOnAxis p.step (radius - p.bottomRadius) :=
      endsOnAxis_of_lt hstep (by linarith) (by linarith)
    rw [finalRadius_of_le le_rfl (by linarith), finalRadius, if_pos hends]
  · classical
    have hfar := not_lt.mp hheld
    have hsub : radius - p.step - p.bottomRadius = radius - p.bottomRadius - p.step := by ring
    have hiff : EndsOnAxis p.step (radius - p.step - p.bottomRadius) ↔
        EndsOnAxis p.step (radius - p.bottomRadius) := by
      rw [hsub]
      exact endsOnAxis_sub_step (by linarith) hstep
    unfold finalRadius
    rw [min_eq_right hfar, min_eq_right h.le]
    exact if_congr hiff rfl rfl

/-- Rings end with one at their final radius. -/
theorem getLast?_of_unrolls (hp : p.Sound) {radius : ℝ} {l : List (Ring ℝ)}
    (h : Unrolls p.nextRing? (some radius) l) (hradius : p.bottomRadius ≤ radius) :
    l.getLast? = some (p.ringAt (p.finalRadius radius)) := by
  refine rings_induction (motive := fun radius l => p.bottomRadius ≤ radius →
    l.getLast? = some (p.ringAt (p.finalRadius radius))) (fun radius hlast hradius => ?_)
    (fun radius l hlast ih _ => ?_) h hradius
  · rw [finalRadius_of_le hradius hlast, List.getLast?_singleton]
  · rw [List.getLast?_cons, ih (p.bottom_le_inner radius),
      finalRadius_inner hp.step (not_le.mp hlast)]
    rfl

/-- The last ring of a plan. -/
theorem Sound.getLast?_rings (hp : p.Sound) :
    p.rings.getLast? = some (p.ringAt (p.finalRadius p.topRadius)) :=
  getLast?_of_unrolls hp hp.unrolls_rings hp.rim

theorem Sound.finalRadius_le (hp : p.Sound) {r : Ring ℝ} (hr : r ∈ p.rings) :
    p.finalRadius p.topRadius ≤ r.radius := by
  obtain ⟨before, hrings⟩ := List.getLast?_eq_some_iff.mp hp.getLast?_rings
  have hsmaller := hp.pairwise_rings
  rw [hrings] at hsmaller hr
  obtain ⟨-, -, hbefore⟩ := List.pairwise_append.mp hsmaller
  rcases List.mem_append.mp hr with hr | hr
  · exact (hbefore r hr _ (List.mem_singleton_self _)).le
  · exact (congrArg Ring.radius (List.mem_singleton.mp hr)).ge

theorem finalRadius_eq_bottom_iff (hrim : p.bottomRadius ≤ p.topRadius) :
    p.finalRadius p.topRadius = p.bottomRadius ↔
      EndsOnAxis p.step (p.topRadius - p.bottomRadius) := by
  have ht := tolerance_pos
  refine ⟨fun h => ?_, fun h => if_pos h⟩
  by_contra hends
  rw [finalRadius, if_neg hends] at h
  refine hends (.inl ?_)
  rcases min_choice p.topRadius (p.bottomRadius + tolerance) with hmin | hmin
  · linarith
  · linarith

/-- The plan of a cone that is carved to its point. -/
structure ReachesAxis (p : PocketPlan ℝ) : Prop where
  bottom : p.bottomRadius = 0
  rim : EndsOnAxis p.step p.topRadius

/-- There is a ring of no radius exactly in a cone that is carved to its point. -/
theorem exists_radius_eq_zero_iff (hp : p.Sound) :
    (∃ r ∈ p.rings, r.radius = 0) ↔ p.ReachesAxis := by
  have hlast := List.mem_of_getLast? hp.getLast?_rings
  have hends := finalRadius_eq_bottom_iff hp.rim
  constructor
  · rintro ⟨r, hr, hzero⟩
    have hbottom : p.bottomRadius = 0 :=
      ((of_mem_rings hp hr).1.trans_eq hzero).antisymm hp.bottom
    have hleast : p.finalRadius p.topRadius ≤ p.bottomRadius :=
      (hp.finalRadius_le hr).trans_eq (hzero.trans hbottom.symm)
    have hrim := hends.mp (hleast.antisymm (of_mem_rings hp hlast).1)
    rw [hbottom, sub_zero] at hrim
    exact ⟨hbottom, hrim⟩
  · rintro ⟨hbottom, hrim⟩
    rw [hbottom, sub_zero] at hends
    exact ⟨_, hlast, hends.mpr hrim⟩

end PocketPlan
end Toolpath
