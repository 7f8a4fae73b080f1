import Toolpath.Proofs.Outline.Drawn

/-! The angles that the arcs of a path sweep. A rounded turn of up to a full turn sweeps the angle
that it was asked for, where that is not close to a whole number of quarter turns, and that number
of quarter turns where it is. -/
namespace Toolpath
open Scalar

namespace Vec

theorem turned_eq (v : Vec ℝ) (angle : ℝ) :
    v.turned angle = (Linear.planar (snapped angle)).apply v := by
  unfold turned
  rw [unitAt_eq]
  ext <;> simp [Linear.apply, Linear.planar, dot] <;> ring

/-- Seen from above, a point turns out of its place unless the angle is a number of full turns. -/
theorem swung_eq_swung {start center : Vec ℝ} (h : start.x ≠ center.x ∨ start.y ≠ center.y)
    {a b : ℝ} : start.swung center a = start.swung center b ↔ ∃ n : ℤ, a = b + n * fullTurn := by
  constructor
  · intro heq
    have hx := congrArg Vec.x heq
    have hy := congrArg Vec.y heq
    simp only [swung, Linear.apply, Linear.planar, dot, add_x, add_y, sub_x, sub_y, sub_z] at hx hy
    have hreach := reachSq_pos h
    have hcos : start.reachSq center * Real.cos (a - b) = start.reachSq center := by
      have hunit := Real.cos_sq_add_sin_sq b
      rw [Real.cos_sub]
      simp only [reachSq, sub_x, sub_y]
      linear_combination
        ((start.x - center.x) * Real.cos b - (start.y - center.y) * Real.sin b) * hx +
        ((start.x - center.x) * Real.sin b + (start.y - center.y) * Real.cos b) * hy +
        ((start.x - center.x) ^ 2 + (start.y - center.y) ^ 2) * hunit
    obtain ⟨n, hn⟩ := (Real.cos_eq_one_iff _).mp ((mul_eq_left₀ hreach.ne').mp hcos)
    refine ⟨n, ?_⟩
    rw [fullTurn_real]
    linarith
  · intro h
    obtain ⟨n, hn⟩ := h
    unfold swung Linear.planar
    rw [hn, fullTurn_real, Real.cos_add_int_mul_two_pi, Real.sin_add_int_mul_two_pi]

/-- Turning keeps a vector off the Z axis. -/
theorem turned_off {v : Vec ℝ} (h : v.x ≠ 0 ∨ v.y ≠ 0) (angle : ℝ) :
    (v.turned angle).x ≠ 0 ∨ (v.turned angle).y ≠ 0 := by
  rw [← not_and_or]
  intro hnone
  have hlong := v.turned_sq angle
  rw [hnone.1, hnone.2] at hlong
  rcases h with hx | hy
  · have hpos : 0 < v.x ^ 2 := by positivity
    linarith [sq_nonneg v.y]
  · have hpos : 0 < v.y ^ 2 := by positivity
    linarith [sq_nonneg v.x]

end Vec

section
variable {start center finish : Vec ℝ} {sense : Sense} {angle : ℝ}

theorem arcMotion_zero (start center : Vec ℝ) (sense : Sense) :
    arcMotion start center sense .forward 0 = start := by
  unfold arcMotion Vec.swung
  rw [mul_zero, Linear.planar_zero, Linear.identity_apply]
  ext <;> simp

theorem arcMotion_fullTurn (h : start.x ≠ center.x ∨ start.y ≠ center.y) (sense : Sense) :
    arcMotion start center sense .forward fullTurn = start := by
  refine Eq.trans ?_ (arcMotion_zero start center sense)
  refine (Vec.swung_eq_swung h).mpr ⟨sense.turn .forward, ?_⟩
  rw [mul_zero, zero_add]

/-- On the way along an arc no place comes twice within a full turn. -/
theorem isLeast_arcMotion (h : start.x ≠ center.x ∨ start.y ≠ center.y) (sense : Sense)
    (hpos : 0 < angle) (hle : angle ≤ fullTurn) :
    IsLeast {t | 0 < t ∧ arcMotion start center sense .forward t =
      arcMotion start center sense .forward angle} angle := by
  constructor
  · exact ⟨hpos, rfl⟩
  · intro t ht
    obtain ⟨htpos, hmotion⟩ := ht
    obtain ⟨n, hn⟩ := (Vec.swung_eq_swung h).mp hmotion
    -- whichever way the arc turns, the two angles are a number of full turns apart
    obtain ⟨m, hm⟩ : ∃ m : ℤ, t = angle + m * fullTurn := by
      rcases sense.turn_cases .forward with hturn | hturn
      · refine ⟨n, ?_⟩
        rw [hturn] at hn
        simpa using hn
      · refine ⟨-n, ?_⟩
        rw [hturn] at hn
        push_cast at hn ⊢
        linarith
    have hmore : (-1 : ℝ) < m := by
      refine lt_of_mul_lt_mul_right ?_ fullTurn_pos.le
      linarith
    have hwhole : -1 < m := by exact_mod_cast hmore
    have hnonneg : (0 : ℝ) ≤ m := by exact_mod_cast Int.le_of_sub_one_lt hwhole
    rw [hm]
    exact le_add_of_nonneg_right (mul_nonneg hnonneg fullTurn_pos.le)

/-- An arc from a start to a finish sweeps an angle: the least after which it is at the finish, and
that of a full circle if it starts there. -/
structure SweepsTo (start finish center : Vec ℝ) (sense : Sense) (angle : ℝ) : Prop where
  circle : start = finish → angle = fullTurn
  least : start ≠ finish → IsLeast {t | 0 < t ∧ arcMotion start center sense .forward t = finish}
    angle

theorem SweepsTo.unique {other : ℝ} (h : SweepsTo start finish center sense angle)
    (hother : SweepsTo start finish center sense other) : angle = other := by
  by_cases hback : start = finish
  · rw [h.circle hback, hother.circle hback]
  · exact (h.least hback).unique (hother.least hback)

theorem sweepsTo_circle (start center : Vec ℝ) (sense : Sense) :
    SweepsTo start start center sense fullTurn := ⟨fun _ => rfl, fun hne => absurd rfl hne⟩

/-- To the point that the way along an arc leads to by an angle, the arc sweeps this angle. -/
theorem sweepsTo_arcMotion (h : start.x ≠ center.x ∨ start.y ≠ center.y) (sense : Sense)
    (hpos : 0 < angle) (hle : angle ≤ fullTurn) :
    SweepsTo start (arcMotion start center sense .forward angle) center sense angle := by
  constructor
  · intro hback
    have hcircle := isLeast_arcMotion h sense fullTurn_pos le_rfl
    rw [arcMotion_fullTurn h] at hcircle
    exact le_antisymm hle (hcircle.2 ⟨hpos, hback.symm⟩)
  · intro _
    exact isLeast_arcMotion h sense hpos hle

end

/-- The angle that a segment of a path sweeps, if it is an arc. -/
def Segment.Sweeps (p : Path ℝ) : Segment → ℝ → Prop
  | .straight _ _, _ => False
  | .arc start finish center sense, angle =>
    SweepsTo (p.vertex start) (p.vertex finish) (p.vertex center) sense angle

theorem Segment.sweeps_arc {p : Path ℝ} {start finish center : Nat} {a b c : Vec ℝ} {sense : Sense}
    {angle : ℝ} (hstart : p.vertex start = a) (hfinish : p.vertex finish = b)
    (hcenter : p.vertex center = c) (h : SweepsTo a b c sense angle) :
    (Segment.arc start finish center sense).Sweeps p angle := by
  rw [Sweeps, hstart, hfinish, hcenter]
  exact h

namespace Cursor
variable {b : Cursor ℝ} {angle radius : ℝ}

/-- A rounded turn adds one segment, which sweeps an angle. -/
def TurnSweeps (b : Cursor ℝ) (angle radius swept : ℝ) : Prop :=
  ∃ s, (b.turn angle radius .round).segments = b.segments ++ [s] ∧
    s.Sweeps (b.turn angle radius .round).path swept

theorem TurnSweeps.unique {swept other : ℝ} (h : b.TurnSweeps angle radius swept)
    (hother : b.TurnSweeps angle radius other) : swept = other := by
  obtain ⟨s, hs, hswept⟩ := h
  obtain ⟨s', hs', hother⟩ := hother
  obtain rfl : s = s' := List.singleton_inj.mp (List.append_cancel_left (hs.symm.trans hs'))
  cases s with
  | straight start finish => exact hswept.elim
  | arc start finish center sense => exact hswept.unique hother

/-- The sense of a turn leads to where the angle does, if it is swept without its sign. -/
theorem turn_ofAngle (angle : ℝ) :
    ((Sense.ofAngle angle).turn .forward : ℝ) * |snapped angle| = snapped angle := by
  rcases lt_or_ge angle 0 with hneg | hnonneg
  · have hsense : Sense.ofAngle angle = .clockwise := if_pos hneg
    have hside : snapped angle ≤ 0 := by
      have hopposite := snapped_nonneg (neg_nonneg.mpr hneg.le)
      rwa [snapped_neg, neg_nonneg] at hopposite
    rw [hsense, abs_of_nonpos hside]
    simp [Sense.turn, Sense.sign, Direction.sign]
  · have hsense : Sense.ofAngle angle = .counterClockwise := if_neg hnonneg.not_gt
    rw [hsense, abs_of_nonneg (snapped_nonneg hnonneg)]
    simp [Sense.turn, Sense.sign, Direction.sign]

/-- The far end of a corner lies on the way along its arc. -/
theorem finish_cutCorner (position toCenter : Vec ℝ) (angle : ℝ) :
    position + toCenter - toCenter.turned angle =
      arcMotion position (position + toCenter) (.ofAngle angle) .forward |snapped angle| := by
  have hstart : position - (position + toCenter) = .zero - toCenter := by
    ext <;> simp [Vec.zero]
  unfold arcMotion Vec.swung
  rw [turn_ofAngle, Vec.turned_eq, hstart, Linear.apply_sub]
  ext <;> simp [Linear.apply, Vec.dot, Vec.zero] <;> ring

/-- The way to the center of a turn, which is to the left for positive angles. -/
noncomputable def toCenter (b : Cursor ℝ) (angle radius : ℝ) : Vec ℝ :=
  (b.heading.scale radius).turned (if 0 < angle then quarterTurn else -quarterTurn)

/-- What the arc of a rounded corner sweeps, from where the cursor is to the far end, the turn
does. -/
theorem turnSweeps_of_corner (h : b.Sound) (hradius : radius ≠ 0) {swept : ℝ}
    (hswept : SweepsTo b.position
      (b.position + b.toCenter angle radius - (b.toCenter angle radius).turned angle)
      (b.position + b.toCenter angle radius) (.ofAngle angle) swept) :
    b.TurnSweeps angle radius swept := by
  obtain ⟨-, hstart, hcenter, hfinish⟩ := vertices_corner h (b.position + b.toCenter angle radius)
    (b.position + b.toCenter angle radius - (b.toCenter angle radius).turned angle)
  have hsegments := ((b.vertex _).2.vertex_spec
    (b.position + b.toCenter angle radius - (b.toCenter angle radius).turned angle)).2.1.trans
      (b.vertex_spec (b.position + b.toCenter angle radius)).2.1
  unfold TurnSweeps
  rw [turn_of_radius (beq_eq_false_iff_ne.mpr hradius)]
  exact ⟨_, congrArg (· ++ [_]) hsegments, Segment.sweeps_arc hstart hfinish hcenter hswept⟩

/-- A rounded turn sweeps the angle that its own is taken for, and a full turn if that is zero. -/
theorem turnSweeps_snapped (h : b.Sound) (hheading : b.heading.x ≠ 0 ∨ b.heading.y ≠ 0)
    (hradius : radius ≠ 0) (hangle : |angle| ≤ fullTurn) :
    b.TurnSweeps angle radius (if snapped angle = 0 then fullTurn else |snapped angle|) := by
  have hbounds := abs_le.mp hangle
  have hle : |snapped angle| ≤ fullTurn := by
    refine abs_le'.mpr ⟨snapped_le hbounds.2, ?_⟩
    rw [← snapped_neg]
    exact snapped_le (neg_le.mp hbounds.1)
  have hoff : (b.toCenter angle radius).x ≠ 0 ∨ (b.toCenter angle radius).y ≠ 0 :=
    Vec.turned_off (hheading.imp (mul_ne_zero · hradius) (mul_ne_zero · hradius)) _
  apply turnSweeps_of_corner h hradius
  rw [finish_cutCorner]
  split_ifs with hzero
  · rw [hzero, abs_zero, arcMotion_zero]
    exact sweepsTo_circle _ _ _
  · refine sweepsTo_arcMotion ?_ _ (abs_pos.mpr hzero) hle
    rwa [Vec.add_x, Vec.add_y, Ne, Ne, left_eq_add, left_eq_add]

/-- Close to a whole number of quarter turns, other than zero, that number is swept. -/
theorem turnSweeps_near (h : b.Sound) (hheading : b.heading.x ≠ 0 ∨ b.heading.y ≠ 0)
    (hradius : radius ≠ 0) (hangle : |angle| ≤ fullTurn) {n : ℤ} (hzero : n ≠ 0)
    (hn : IsNear angle n) : b.TurnSweeps angle radius (|(n : ℝ)| * quarterTurn) := by
  have hswept := turnSweeps_snapped h hheading hradius hangle
  have hturns : (n : ℝ) * quarterTurn ≠ 0 :=
    mul_ne_zero (Int.cast_ne_zero.mpr hzero) quarterTurn_pos.ne'
  rwa [hn.snapped_eq, if_neg hturns, abs_mul, abs_of_pos quarterTurn_pos] at hswept

/-- A rounded turn by zero comes back to where it starts. -/
theorem turnSweeps_zero (h : b.Sound) (hheading : b.heading.x ≠ 0 ∨ b.heading.y ≠ 0)
    (hradius : radius ≠ 0) : b.TurnSweeps 0 radius fullTurn := by
  have hswept := turnSweeps_snapped h hheading hradius (abs_zero.trans_le fullTurn_pos.le)
  rwa [if_pos snapped_zero] at hswept

theorem heading_lineTo (h : b.Sound) {target : Vec ℝ} (hne : target ≠ b.position) :
    (b.lineTo target).heading = (target - b.position).normalize := by
  have hthere := position_append_vertex h target
    (s := .straight b.current (b.vertex target).1) rfl
  unfold lineTo
  rw [if_neg ((Vec.beq_eq_true _ _).not.mpr hne)]
  exact congrArg (fun p => (p - b.position).normalize) hthere

theorem heading_lineTo_upright (h : b.Sound) {target : Vec ℝ} (hne : target ≠ b.position)
    (hx : target.x = b.position.x) (hy : target.y = b.position.y) :
    (b.lineTo target).heading.x = 0 ∧ (b.lineTo target).heading.y = 0 := by
  rw [heading_lineTo h hne, Vec.normalize]
  split_ifs
  · exact ⟨sub_eq_zero.mpr hx, sub_eq_zero.mpr hy⟩
  · simp [Vec.divide, hx, hy]

/-- After a run straight up or down, a rounded turn comes back to where it starts. -/
theorem turnSweeps_upright (h : b.Sound) (hx : b.heading.x = 0) (hy : b.heading.y = 0)
    (hradius : radius ≠ 0) (angle : ℝ) : b.TurnSweeps angle radius fullTurn := by
  have hcenter : b.toCenter angle radius = b.heading.scale radius := by
    ext <;> simp [toCenter, Vec.turned, hx, hy]
  have hback : b.position + b.heading.scale radius - (b.heading.scale radius).turned angle =
      b.position := by
    ext <;> simp [Vec.turned, hx, hy]
  apply turnSweeps_of_corner h hradius
  rw [hcenter, hback]
  exact sweepsTo_circle _ _ _

/-- A rounded turn of up to a full turn sweeps its angle, if that is not zero, nor close to a whole
number of quarter turns without being it. Close to a number other than zero it sweeps this number of
quarter turns. -/
theorem turn_sweeps (h : b.Sound) (hheading : b.heading.x ≠ 0 ∨ b.heading.y ≠ 0)
    (hradius : 0 < radius) (hangle : |angle| ≤ fullTurn) :
    (angle ≠ 0 → (∀ n : ℤ, IsNear angle n → angle = n * quarterTurn) →
      b.TurnSweeps angle radius |angle|) ∧
    ∀ n : ℤ, n ≠ 0 → IsNear angle n → b.TurnSweeps angle radius (|(n : ℝ)| * quarterTurn) := by
  constructor
  · intro hzero hexact
    have hself : snapped angle = angle := by
      by_cases hnear : ∃ n, IsNear angle n
      · obtain ⟨n, hn⟩ := hnear
        rw [hn.snapped_eq, ← hexact n hn]
      · exact snapped_eq_self (not_exists.mp hnear)
    have hswept := turnSweeps_snapped h hheading hradius.ne' hangle
    rwa [hself, if_neg hzero] at hswept
  · intro n hzero hn
    exact turnSweeps_near h hheading hradius.ne' hangle hzero hn

/-- An eighth of a turn to the right sweeps an eighth of a turn. -/
theorem turn_sweeps_eighth : |-(quarterTurn / 2 : ℝ)| ≤ fullTurn ∧
    (Cursor.new (.zero : Vec ℝ)).TurnSweeps (-(quarterTurn / 2)) 1 |-(quarterTurn / 2)| := by
  have hpos : (0 : ℝ) < quarterTurn := quarterTurn_pos
  have hangle : |-(quarterTurn / 2 : ℝ)| ≤ fullTurn := by
    rw [abs_neg, abs_of_pos (half_pos hpos), fullTurn_eq]
    linarith
  have hfar (n : ℤ) : ¬ IsNear (-(quarterTurn / 2)) n := by
    have hhalf : -(quarterTurn / 2) / quarterTurn = (-(1 / 2) : ℝ) := by
      field_simp
    unfold IsNear
    rw [hhalf, abs_lt]
    intro hnear
    have hlow : (-1 : ℝ) < n := by linarith
    have hhigh : (n : ℝ) < 0 := by linarith
    have hwhole : -1 < n ∧ n < 0 := ⟨by exact_mod_cast hlow, by exact_mod_cast hhigh⟩
    omega
  refine ⟨hangle, (turn_sweeps (sound_new .zero) (.inl one_ne_zero) one_pos hangle).1 ?_ ?_⟩
  · exact neg_ne_zero.mpr (half_pos hpos).ne'
  · exact fun n hn => absurd hn (hfar n)

/-- An angle of little more than a quarter turn sweeps a quarter turn. An angle of zero, and one
after a run straight up, sweeps a full circle. -/
theorem turn_sweeps_other :
    (Cursor.new (.zero : Vec ℝ)).TurnSweeps (quarterTurn + quarterTurn / (2 * 10 ^ 12)) 1
      quarterTurn ∧
    ¬ (Cursor.new (.zero : Vec ℝ)).TurnSweeps (quarterTurn + quarterTurn / (2 * 10 ^ 12)) 1
      |quarterTurn + quarterTurn / (2 * 10 ^ 12)| ∧
    (Cursor.new (.zero : Vec ℝ)).TurnSweeps 0 1 fullTurn ∧
    ¬ (Cursor.new (.zero : Vec ℝ)).TurnSweeps 0 1 |0| ∧
    ((Cursor.new (.zero : Vec ℝ)).lineTo .unitZ).TurnSweeps quarterTurn 1 fullTurn ∧
    ¬ ((Cursor.new (.zero : Vec ℝ)).lineTo .unitZ).TurnSweeps quarterTurn 1 |quarterTurn| := by
  have hsound := sound_new (.zero : Vec ℝ)
  have hlevel : (Cursor.new (.zero : Vec ℝ)).heading.x ≠ 0 ∨
      (Cursor.new (.zero : Vec ℝ)).heading.y ≠ 0 := .inl one_ne_zero
  have hpos : (0 : ℝ) < quarterTurn := quarterTurn_pos
  have hmore : (0 : ℝ) < quarterTurn / (2 * 10 ^ 12) := by positivity
  have hquarter : (Cursor.new (.zero : Vec ℝ)).TurnSweeps
      (quarterTurn + quarterTurn / (2 * 10 ^ 12)) 1 quarterTurn := by
    have hnear : IsNear (quarterTurn + quarterTurn / (2 * 10 ^ 12)) 1 := by
      rw [isNear_iff, Int.cast_one, one_mul, add_sub_cancel_left, abs_of_pos hmore]
      exact div_lt_div_of_pos_left hpos (by norm_num) (by norm_num)
    have hangle : |quarterTurn + quarterTurn / (2 * 10 ^ 12)| ≤ (fullTurn : ℝ) := by
      rw [abs_of_pos (add_pos hpos hmore), fullTurn_eq]
      linarith [div_le_self hpos.le (by norm_num : (1 : ℝ) ≤ 2 * 10 ^ 12)]
    simpa using turnSweeps_near hsound hlevel one_ne_zero hangle one_ne_zero hnear
  have hcircle := turnSweeps_zero hsound hlevel one_ne_zero
  have hup : ((Cursor.new (.zero : Vec ℝ)).lineTo .unitZ).TurnSweeps quarterTurn 1 fullTurn := by
    have hne : (.unitZ : Vec ℝ) ≠ (Cursor.new .zero).position := by
      intro heq
      exact one_ne_zero (congrArg Vec.z heq)
    obtain ⟨hx, hy⟩ := heading_lineTo_upright hsound hne rfl rfl
    exact turnSweeps_upright (hsound.lineTo .unitZ) hx hy one_ne_zero _
  refine ⟨hquarter, fun h => ?_, hcircle, fun h => ?_, hup, fun h => ?_⟩
  · have heq := hquarter.unique h
    rw [abs_of_pos (add_pos hpos hmore)] at heq
    exact hmore.ne' (left_eq_add.mp heq)
  · have heq := hcircle.unique h
    rw [abs_zero] at heq
    exact fullTurn_pos.ne' heq
  · have heq := hup.unique h
    rw [abs_of_pos hpos, fullTurn_eq] at heq
    linarith

end Cursor
end Toolpath
