import Mathlib.LinearAlgebra.AffineSpace.AffineSubspace.Basic
import Toolpath.Proofs.Plan.Rings

/-! The shape that exact rings give a pocket, and whether the last of them is its bottom. -/
namespace Toolpath
open Scalar

namespace PocketPlan
variable {p : PocketPlan ℝ}

/-- A step leads no further inward than its size, but for what is left of the way. -/
theorem le_inner_add (p : PocketPlan ℝ) (radius : ℝ) :
    radius ≤ p.inner radius + (p.step + tolerance) := by
  have ht := tolerance_pos
  unfold inner
  split_ifs with h
  · linarith
  · linarith

theorem wallDepth_top (h : p.bottomRadius < p.topRadius) :
    p.wallDepth p.topRadius = p.edgeDepth := by
  rw [wallDepth_of_lt h, inward, sub_self, zero_div, AffineMap.lineMap_apply_zero]

/-- The wall is on the line between its ends, which is upright if they are at one radius. -/
theorem wallDepth_mem_line {radius : ℝ} (hlow : p.bottomRadius ≤ radius)
    (hhigh : radius ≤ p.topRadius) : (radius, p.wallDepth radius) ∈
      line[ℝ, (p.topRadius, p.edgeDepth), (p.bottomRadius, p.bottomDepth)] := by
  rcases le_or_gt p.topRadius p.bottomRadius with hcylinder | hspan
  · have hbottom : radius = p.bottomRadius := (hhigh.trans hcylinder).antisymm hlow
    rw [hbottom, wallDepth_bottom]
    exact right_mem_affineSpan_pair ℝ _ _
  · have hradius : AffineMap.lineMap p.topRadius p.bottomRadius (p.inward radius) = radius := by
      have hpos := (sub_pos.mpr hspan).ne'
      rw [AffineMap.lineMap_apply_ring', inward]
      field_simp
      ring
    have hpoint : (radius, p.wallDepth radius) = AffineMap.lineMap (p.topRadius, p.edgeDepth)
        (p.bottomRadius, p.bottomDepth) (p.inward radius) := by
      rw [wallDepth_of_lt hspan]
      exact Prod.ext (by rw [AffineMap.fst_lineMap, hradius]) (by rw [AffineMap.snd_lineMap])
    rw [hpoint]
    exact AffineMap.lineMap_mem_affineSpan_pair _ _ _

/-- Rings that go inward from the rim to within 10⁻⁹ of the bottom, along the wall. -/
structure Tapers (p : PocketPlan ℝ) (rings : List (Ring ℝ)) : Prop where
  rim : rings.head?.map Ring.radius = some p.topRadius
  base : ∀ r ∈ rings.getLast?, r.radius - p.bottomRadius ≤ 1 / 10 ^ 9
  outside : ∀ r ∈ rings, p.bottomRadius ≤ r.radius
  shrink : rings.Pairwise fun a b => b.radius < a.radius
  pitch : rings.IsChain fun a b => a.radius - b.radius ≤ p.step + 1 / 10 ^ 9
  wall : ∀ r ∈ rings, (r.radius, r.depth) ∈
    line[ℝ, (p.topRadius, p.edgeDepth), (p.bottomRadius, p.bottomDepth)]
  cylinder : p.topRadius = p.bottomRadius → ∀ r ∈ rings, r.depth = p.bottomDepth
  between : ∀ r ∈ rings, r.depth ∈ Set.uIcc p.edgeDepth p.bottomDepth
  falls : p.edgeDepth < p.bottomDepth → rings.Pairwise fun a b => a.depth < b.depth
  rises : p.bottomDepth < p.edgeDepth → rings.Pairwise fun a b => b.depth < a.depth
  level : p.edgeDepth = p.bottomDepth → ∀ r ∈ rings, r.depth = p.bottomDepth

theorem isChain_rings_pitch (p : PocketPlan ℝ) :
    p.rings.IsChain fun a b => a.radius - b.radius ≤ p.step + 1 / 10 ^ 9 := by
  refine isChain_rings_of fun radius _ => ?_
  rw [← tolerance_real, sub_le_iff_le_add']
  exact p.le_inner_add radius

theorem finalRadius_le_add (p : PocketPlan ℝ) (radius : ℝ) :
    p.finalRadius radius ≤ p.bottomRadius + tolerance := by
  unfold finalRadius
  split_ifs
  · exact le_add_of_nonneg_right tolerance_pos.le
  · exact min_le_right _ _

/-- Two rings are at two radii, and so the wall at one is deeper than at the other. -/
theorem Sound.pairwise_depth (hp : p.Sound) {R : ℝ → ℝ → Prop}
    (h : p.bottomRadius < p.topRadius → ∀ {a b}, b < a → R (p.wallDepth a) (p.wallDepth b)) :
    p.rings.Pairwise fun a b => R a.depth b.depth := by
  refine hp.pairwise_rings.imp_of_mem fun {a b} ha hb hlt => ?_
  obtain ⟨-, hrim, hdepth⟩ := of_mem_rings hp ha
  obtain ⟨hbottom, -, hdepth'⟩ := of_mem_rings hp hb
  rw [hdepth, hdepth']
  exact h (hbottom.trans_lt (hlt.trans_le hrim)) hlt

theorem Sound.tapers (hp : p.Sound) : p.Tapers p.rings where
  rim := by
    obtain ⟨rest, hrings⟩ := p.exists_rings_eq_cons
    rw [hrings]
    rfl
  base r hr := by
    obtain rfl := Option.some.inj (hp.getLast?_rings.symm.trans hr)
    rw [← tolerance_real]
    exact sub_le_iff_le_add'.mpr (p.finalRadius_le_add _)
  outside r hr := (of_mem_rings hp hr).1
  shrink := hp.pairwise_rings
  pitch := p.isChain_rings_pitch
  wall r hr := by
    obtain ⟨hlow, hhigh, hdepth⟩ := of_mem_rings hp hr
    rw [hdepth]
    exact wallDepth_mem_line hlow hhigh
  cylinder h r hr := (of_mem_rings hp hr).2.2.trans (wallDepth_of_le h.le _)
  between r hr := by
    obtain ⟨hlow, hhigh, hdepth⟩ := of_mem_rings hp hr
    rw [hdepth]
    exact wallDepth_between hlow hhigh
  falls h := hp.pairwise_depth (R := (· < ·)) fun hspan _ _ hlt =>
    (wallDepth_lt_iff hspan hlt).mpr h
  rises h := hp.pairwise_depth (R := (· > ·)) fun hspan _ _ hlt =>
    (lt_wallDepth_iff hspan hlt).mpr h
  level h r hr := by
    obtain ⟨hlow, hhigh, hdepth⟩ := of_mem_rings hp hr
    have hbetween := wallDepth_between hlow hhigh
    rw [h, min_self, max_self] at hbetween
    rw [hdepth]
    exact hbetween.2.antisymm hbetween.1

/-- The rings of an accepted plan end, and they taper from its rim to its bottom. -/
theorem rings_taper {top bottom edge depth step : ℝ}
    (h : PocketPlan.new top bottom edge depth step = .ok p) :
    p = ⟨top, bottom, edge, depth, step⟩ ∧
      Unrolls p.nextRing? (some p.topRadius) p.rings ∧ p.Tapers p.rings := by
  obtain ⟨hplan, hp⟩ := sound_of_new h
  exact ⟨hplan, hp.unrolls_rings, hp.tapers⟩

theorem rings_taper_cone : ∃ p : PocketPlan ℝ,
    PocketPlan.new (1 / 4) (1 / 10) 0 (1 / 10) (1 / 16) = .ok p ∧ p.Tapers p.rings := by
  have hnew : PocketPlan.new (1 / 4 : ℝ) (1 / 10) 0 (1 / 10) (1 / 16) =
      .ok ⟨1 / 4, 1 / 10, 0, 1 / 10, 1 / 16⟩ := by
    unfold PocketPlan.new
    rw [if_neg (by norm_num), if_neg (by norm_num [Scalar.isNaN])]
  exact ⟨_, hnew, (rings_taper hnew).2.2⟩

/-- The last ring of an accepted plan is the bottom exactly if the rim is at the radius of the
bottom, or is further outside it than the tolerance and not by a number of full steps. A rim within
the tolerance is carved at the depth of the edge alone. From further out the last ring stays at the
tolerance, at the depth of the wall there. -/
theorem last_ring_eq_bottom_iff {top bottom edge depth step : ℝ}
    (h : PocketPlan.new top bottom edge depth step = .ok p) :
    Unrolls p.nextRing? (some top) p.rings ∧
      (p.rings.getLast? = some ⟨bottom, depth⟩ ↔ EndsOnAxis step (top - bottom)) ∧
      (¬ EndsOnAxis step (top - bottom) → top ≤ bottom + tolerance → p.rings = [⟨top, edge⟩]) ∧
      (¬ EndsOnAxis step (top - bottom) → bottom + tolerance < top →
        p.rings.getLast? = some ⟨bottom + tolerance, p.wallDepth (bottom + tolerance)⟩) := by
  obtain ⟨rfl, hp⟩ := sound_of_new h
  have hlast := hp.getLast?_rings
  have hends := finalRadius_eq_bottom_iff hp.rim
  refine ⟨hp.unrolls_rings, ?_, fun hmiss hnear => ?_, fun hmiss hfar => ?_⟩
  · rw [hlast, ← hends]
    constructor
    · intro hring
      exact congrArg Ring.radius (Option.some.inj hring)
    · intro hradius
      rw [hradius, ringAt, wallDepth_bottom]
  · have hspan : bottom < top := hp.rim.lt_of_ne fun heq => hmiss (.inl (sub_eq_zero.mpr heq.symm))
    rw [rings_of_le hnear, ringAt, wallDepth_top hspan]
  · rw [hlast, finalRadius, if_neg hmiss, min_eq_right hfar.le]
    rfl

/-- A pocket of depth 1/10 with an almost upright wall is not carved at all. -/
theorem last_ring_ne_bottom : ∃ p : PocketPlan ℝ,
    PocketPlan.new (1 / 5) (1 / 5 - 1 / 2000000000) 0 (1 / 10) (1 / 16) = .ok p ∧
      p.rings = [⟨1 / 5, 0⟩] ∧
      p.rings.getLast? ≠ some ⟨1 / 5 - 1 / 2000000000, 1 / 10⟩ := by
  have hnew : PocketPlan.new (1 / 5 : ℝ) (1 / 5 - 1 / 2000000000) 0 (1 / 10) (1 / 16) =
      .ok ⟨1 / 5, 1 / 5 - 1 / 2000000000, 0, 1 / 10, 1 / 16⟩ := by
    unfold PocketPlan.new
    rw [if_neg (by norm_num), if_neg (by norm_num [Scalar.isNaN])]
  obtain ⟨-, hiff, hnear, -⟩ := last_ring_eq_bottom_iff hnew
  have hmiss : ¬ EndsOnAxis (1 / 16 : ℝ) (1 / 5 - (1 / 5 - 1 / 2000000000)) := by
    unfold EndsOnAxis
    rw [tolerance_real]
    norm_num
  have hclose : (1 / 5 : ℝ) ≤ 1 / 5 - 1 / 2000000000 + tolerance := by
    rw [tolerance_real]
    norm_num
  exact ⟨_, hnew, hnear hmiss hclose, mt hiff.mp hmiss⟩

end PocketPlan
end Toolpath
