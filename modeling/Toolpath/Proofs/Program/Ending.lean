import Toolpath.Proofs.Plan.Termination
import Toolpath.Proofs.Program.Carving

/-! Whether the plans of a program end, for the settings and the plans that are accepted. A step
that is too small for the heights around it is lost to rounding, and then nothing ends. -/
namespace Toolpath
open Scalar Binary

/-- Every pass that is reached is below the one before. -/
def Descent.PassesFall (d : Descent Float) : Prop :=
  ∀ z, Reaches d.nextPass? d.surface z → d.target < z → d.lower z < z

/-- Every stroke that is reached and is not the last ends with the bit below where it was. -/
def Descent.StrokesFall (d : Descent Float) : Prop :=
  ∀ z, Reaches d.nextStroke? (some d.surface) (some z) → d.target < z ∧ ¬ d.lower z ≤ d.target →
    d.lower z + d.retreat < z

/-- Every ring that is reached and is not the last is followed by a smaller one. -/
def PocketPlan.RingsShrink (p : PocketPlan Float) : Prop :=
  ∀ r, Reaches p.nextRing? (some p.topRadius) (some r) → ¬ r ≤ p.bottomRadius + tolerance →
    p.inner r < r

theorem Options.finite_of_checkPositive {name : String} {v : Float}
    (h : checkPositive name v = .ok ()) : isFinite v = true := by
  unfold checkPositive at h
  split_ifs at h with hv
  exact (Bool.and_eq_true_iff.mp hv).1

theorem Options.finite_stepDown {o : Options Float} (h : o.check = .ok ()) :
    isFinite o.stepDown = true := by
  obtain ⟨_, hs, -⟩ := exists_of_bind_eq_ok h
  exact finite_of_checkPositive hs

theorem PocketPlan.accepted {p : PocketPlan Float} (h : PocketPlan.new p.topRadius p.bottomRadius
    p.edgeDepth p.bottomDepth p.step = .ok p) (hstep : isFinite p.step = true) :
    0 < p.step ∧ ¬ p.bottomRadius < 0 ∧ ¬ p.topRadius < p.bottomRadius := by
  unfold PocketPlan.new at h
  split_ifs at h with hradii hpositive
  obtain ⟨s, hs, -⟩ := isFinite_iff.mp hstep
  refine ⟨?_, (not_or.mp hradii).1, (not_or.mp hradii).2⟩
  have hle := (not_or.mp hpositive).2
  rw [le_iff hs units?_zero] at hle
  exact (lt_iff units?_zero hs).mpr (not_le.mp hle)

/-- For all accepted settings and all bounded heights, passes and strokes end exactly if each of
them is lower than the one before, and so they do where a step is more than one part in 2⁵⁰ of the
heights. Rings of an accepted plan end exactly if they get smaller, and so they do where a step is
more than one part in 2⁵³ of the rim. -/
theorem plans_end_iff (o : Options Float) (ho : o.check = .ok ()) :
    (∀ d : Descent Float, d.step = o.stepDown → isFinite d.surface = true →
      isFinite d.target = true →
        (Unrolls d.nextPass? d.surface d.passes ↔ d.PassesFall) ∧
        (Unrolls d.nextStroke? (some d.surface) d.strokes ↔ d.StrokesFall) ∧
        (max |units d.surface| |units d.target| < 2 ^ 50 * units d.step →
          d.PassesFall ∧ d.StrokesFall)) ∧
    ∀ p : PocketPlan Float,
      PocketPlan.new p.topRadius p.bottomRadius p.edgeDepth p.bottomDepth p.step = .ok p →
      isFinite p.topRadius = true → isFinite p.bottomRadius = true → isFinite p.step = true →
        (Unrolls p.nextRing? (some p.topRadius) p.rings ↔ p.RingsShrink) ∧
        (units p.topRadius < 2 ^ 53 * units p.step → p.RingsShrink) := by
  constructor
  · intro d hd hsurface htarget
    have hpositive : 0 < d.step := hd ▸ (Options.inRange_of_check ho).stepDown
    obtain ⟨t, s, e, h⟩ :=
      Descent.exists_measured htarget (hd ▸ Options.finite_stepDown ho) hpositive
    obtain ⟨x, hx, hrange⟩ := isFinite_iff.mp hsurface
    have hpasses := h.exists_unrolls_passes_iff (isNumber_of_units hx)
    have hstrokes := h.exists_unrolls_strokes_iff (isNumber_of_units hx)
    refine ⟨h.unrolls_passes.trans hpasses, h.unrolls_strokes.trans hstrokes, fun hstep => ?_⟩
    rw [units_eq hx, units_eq h.target, units_eq h.step] at hstep
    have hm : -max |x| |t| ≤ t ∧ x ≤ max |x| |t| :=
      ⟨neg_le.mp ((neg_le_abs t).trans (le_max_right _ _)), (le_abs_self x).trans (le_max_left _ _)⟩
    have hs := h.step_pos
    exact ⟨hpasses.mp (h.exists_unrolls_passes hx hrange hm (by omega)),
      hstrokes.mp (h.exists_unrolls_strokes hx hrange hm hstep)⟩
  · intro p hp htop hbottom hstep
    obtain ⟨hpositive, hnonneg, hrim⟩ := PocketPlan.accepted hp hstep
    obtain ⟨t, s, e, h⟩ := Descent.exists_measured (d := p.descent) hbottom hstep hpositive
    obtain ⟨x, hx, hrange⟩ := isFinite_iff.mp htop
    have hrings := PocketPlan.exists_unrolls_rings_iff h (isNumber_of_units hx)
    refine ⟨p.unrolls_rings.trans hrings, fun hsmall => ?_⟩
    have hs : units? p.step = some s := h.step
    have ht : units? p.bottomRadius = some t := h.target
    rw [units_eq hx, units_eq hs] at hsmall
    rw [lt_iff ht units?_zero] at hnonneg
    rw [lt_iff hx ht] at hrim
    exact hrings.mp (PocketPlan.exists_unrolls_rings h hx hrange (m := x) (by omega) hsmall)

/-- A surface so high that a step of one unit from it is lost to rounding. -/
def Descent.tooHigh : Descent Float := ⟨10000000000000000, 9999999999999998, 1⟩

/-- A rim so wide that a step of one unit from it is lost to rounding. -/
def PocketPlan.tooWide : PocketPlan Float := ⟨10000000000000000, 9999999999999998, 0, 1, 1⟩

theorem plans_end_iff_lost :
    ({ Options.standard with stepDown := 1 } : Options Float).check = .ok () ∧
    ¬ Unrolls Descent.tooHigh.nextPass? Descent.tooHigh.surface Descent.tooHigh.passes ∧
    ¬ Unrolls Descent.tooHigh.nextStroke? (some Descent.tooHigh.surface) Descent.tooHigh.strokes ∧
    ¬ Unrolls PocketPlan.tooWide.nextRing? (some PocketPlan.tooWide.topRadius)
      PocketPlan.tooWide.rings := by
  have hcheck : ({ Options.standard with stepDown := 1 } : Options Float).check = .ok () := rfl
  obtain ⟨hdescents, hplans⟩ := plans_end_iff _ hcheck
  obtain ⟨hpasses, hstrokes, -⟩ := hdescents .tooHigh rfl (by decide +kernel) (by decide +kernel)
  obtain ⟨hrings, -⟩ :=
    hplans .tooWide rfl (by decide +kernel) (by decide +kernel) (by decide +kernel)
  refine ⟨hcheck, fun h => ?_, fun h => ?_, fun h => ?_⟩
  · exact absurd (hpasses.mp h _ .start (by decide +kernel)) (by decide +kernel)
  · exact absurd (hstrokes.mp h _ .start (by decide +kernel)) (by decide +kernel)
  · exact absurd (hrings.mp h _ .start (by decide +kernel)) (by decide +kernel)

end Toolpath
