import Toolpath.Proofs.Outline.Pen

/-! Fillets. A run to where the fillet of a corner starts, and then the turn, lead to the next edge,
as far behind the corner as the fillet starts before it. -/
namespace Toolpath
open Scalar

/-- How far from the corner between two edges a fillet starts, and ends. -/
noncomputable def filletLength (angle radius : ℝ) : ℝ :=
  radius * (unitAt |angle|).2 / (1 + (unitAt |angle|).1)

section
variable {angle radius : ℝ}

/-- Only a turn back leaves no edge to end on. -/
theorem one_add_cos_pos (hs : 0 < (unitAt |angle|).2) : 0 < 1 + (unitAt |angle|).1 := by
  have hunit := unitAt_sq |angle|
  by_contra hneg
  nlinarith

/-- The two equations for the length of a fillet, one for each edge. -/
theorem filletLength_mul (radius : ℝ) (hs : 0 < (unitAt |angle|).2) :
    filletLength angle radius * (1 + (unitAt |angle|).1) = radius * (unitAt |angle|).2 ∧
      filletLength angle radius * (unitAt |angle|).2 = radius * (1 - (unitAt |angle|).1) := by
  have hpos := one_add_cos_pos hs
  have hunit := unitAt_sq |angle|
  have hlength : filletLength angle radius * (1 + (unitAt |angle|).1) =
      radius * (unitAt |angle|).2 := div_mul_cancel₀ _ hpos.ne'
  refine ⟨hlength, mul_right_cancel₀ hpos.ne' ?_⟩
  linear_combination (unitAt |angle|).2 * hlength + radius * hunit

theorem tangentLength_eq (hs : 0 < (unitAt |angle|).2) (hradius : 0 ≤ radius) {run : ℝ}
    (hrun : filletLength angle radius ≤ run) :
    Cursor.tangentLength angle radius run = filletLength angle radius := by
  have hpos := one_add_cos_pos hs
  unfold Cursor.tangentLength
  dsimp only
  rw [abs_real, abs_real, lesser_real, abs_of_nonneg hradius]
  split_ifs with hzero hback
  · have hr : radius = 0 := of_decide_eq_true hzero
    rw [filletLength, hr, zero_mul, zero_div]
  · exact absurd hback hpos.not_ge
  · exact min_eq_left hrun

end

namespace Vec
variable {f : Vec ℝ}

theorem normalize_scale (hf : f.norm = 1) {k : ℝ} (hk : 0 < k) : (f.scale k).normalize = f := by
  have hnorm : (f.scale k).norm = k := by
    rw [norm_scale _ _ hk.le, hf, one_mul]
  have hne : ¬ (k == 0) = true := by simpa using hk.ne'
  unfold normalize
  rw [hnorm, if_neg hne]
  ext <;> simp [divide, hk.ne']

theorem add_scale_eq_self (hf : f.norm = 1) (a : Vec ℝ) {k : ℝ} (hk : 0 ≤ k) :
    a + f.scale k = a ↔ k = 0 := by
  constructor
  · intro hself
    have hnone : f.scale k = zero := by
      rw [← add_sub_self a (f.scale k), hself]
      ext <;> simp [zero]
    have hlength := norm_scale f k hk
    rw [hnone, norm_eq_zero.mpr rfl, hf, one_mul] at hlength
    exact hlength.symm
  · intro hzero
    rw [hzero]
    ext <;> simp

end Vec

namespace Pen
variable (p : Pen) {f corner : Vec ℝ} {run angle radius : ℝ}

/-- A run straight ahead keeps the heading, also if it has no length. -/
theorem lineTo_ahead (hf : f.norm = 1) {k : ℝ} (hk : 0 ≤ k) (hheading : 0 < k ∨ p.heading = f) :
    p.lineTo (p.position + f.scale k) = ⟨p.first, p.position + f.scale k, f,
      p.edges ++ Edge.run p.position (p.position + f.scale k)⟩ := by
  have hthere := Vec.add_scale_eq_self hf p.position hk
  unfold lineTo Edge.run
  by_cases hzero : k = 0
  · have hself := hthere.mpr hzero
    have hahead : p.heading = f := hheading.resolve_left fun hpos => hpos.ne' hzero
    rw [if_pos hself, if_pos hself.symm, List.append_nil, hself, ← hahead]
  · have hpos : 0 < k := lt_of_le_of_ne hk (Ne.symm hzero)
    rw [if_neg (hthere.not.mpr hzero), if_neg fun hself => hzero (hthere.mp hself.symm),
      Vec.add_sub_self, Vec.normalize_scale hf hpos]

/-- A run towards a corner leads to where the fillet starts. -/
theorem lineToCorner_ahead (hf : f.norm = 1) (hcorner : corner = p.position + f.scale run)
    (hs : 0 < (unitAt |angle|).2) (hradius : 0 ≤ radius) (hrun : 0 < run)
    (hfits : filletLength angle radius ≤ run)
    (hheading : filletLength angle radius < run ∨ p.heading = f) :
    p.lineToCorner corner angle radius = ⟨p.first, corner - f.scale (filletLength angle radius), f,
      p.edges ++ Edge.run p.position (corner - f.scale (filletLength angle radius))⟩ := by
  have hforward : corner - p.position = f.scale run := by
    rw [hcorner, Vec.add_sub_self]
  have hnorm : (f.scale run).norm = run := by
    rw [Vec.norm_scale _ _ hrun.le, hf, one_mul]
  have htarget : corner - f.scale (filletLength angle radius) =
      p.position + f.scale (run - filletLength angle radius) := by
    rw [hcorner]
    ext <;> simp <;> ring
  unfold lineToCorner
  dsimp only
  rw [hforward, hnorm, Vec.normalize_scale hf hrun, tangentLength_eq hs hradius hfits, htarget]
  exact p.lineTo_ahead hf (sub_nonneg.mpr hfits) (hheading.imp_left sub_pos.mpr)

/-- From where the fillet starts, the turn leads to the next edge. -/
theorem finish_fillet (hlevel : p.heading.z = 0)
    (hposition : p.position = corner - p.heading.scale (filletLength angle radius))
    (hs : 0 < (unitAt |angle|).2) :
    p.finish angle radius =
      corner + (p.heading.turned angle).scale (filletLength angle radius) := by
  obtain ⟨hfirst, hsecond⟩ := filletLength_mul radius hs
  unfold finish center Vec.aside Vec.turned
  rw [hposition]
  -- the side that the center is on and the sign of the sine change together
  split_ifs with hpos
  · rw [abs_of_pos hpos] at hfirst hsecond
    ext
    · simp only [Vec.add_x, Vec.sub_x, Vec.scale_x, Vec.scale_y]
      linear_combination (-p.heading.x) * hfirst + p.heading.y * hsecond
    · simp only [Vec.add_y, Vec.sub_y, Vec.scale_x, Vec.scale_y]
      linear_combination (-p.heading.y) * hfirst - p.heading.x * hsecond
    · simp [hlevel]
  · rw [abs_of_nonpos (not_lt.mp hpos), unitAt_neg] at hfirst hsecond
    ext
    · simp only [Vec.add_x, Vec.sub_x, Vec.scale_x, Vec.scale_y]
      linear_combination (-p.heading.x) * hfirst - p.heading.y * hsecond
    · simp only [Vec.add_y, Vec.sub_y, Vec.scale_x, Vec.scale_y]
      linear_combination (-p.heading.y) * hfirst + p.heading.x * hsecond
    · simp [hlevel]

/-- A run towards a corner and the turn, from anywhere with any heading, or from where the fillet
starts if the heading is towards the corner. -/
theorem fillet (hf : f.norm = 1) (hlevel : f.z = 0) (hcorner : corner = p.position + f.scale run)
    (hs : 0 < (unitAt |angle|).2) (hradius : 0 ≤ radius) (hrun : 0 < run)
    (hfits : filletLength angle radius ≤ run)
    (hheading : filletLength angle radius < run ∨ p.heading = f) (style : Corner) :
    (p.lineToCorner corner angle radius).turn angle radius style =
      ⟨p.first, corner + (f.turned angle).scale (filletLength angle radius), f.turned angle,
        p.edges ++ Edge.run p.position (corner - f.scale (filletLength angle radius)) ++
          if radius = 0 then []
          else [style.edge (corner - f.scale (filletLength angle radius))
            (corner + (f.turned angle).scale (filletLength angle radius))
            (corner - f.scale (filletLength angle radius) + (f.scale radius).aside angle)
            (.ofAngle angle)]⟩ := by
  rw [p.lineToCorner_ahead hf hcorner hs hradius hrun hfits hheading, turn,
    finish_fillet _ hlevel rfl hs]
  rfl

end Pen

namespace Cursor
variable {b : Cursor ℝ} {f corner : Vec ℝ} {angle radius : ℝ}

/-- After a run towards a corner that is far enough away, and the turn with a radius, the cursor is
on the next edge, as far behind the corner as the fillet is long, and is heading along that edge. -/
theorem lineToCorner_turn (h : b.Sound) (hcorner : corner.z = b.position.z) (hf : f.norm = 1)
    (hahead : corner - b.position = f.scale (corner - b.position).norm)
    (hs : 0 < (unitAt |angle|).2) (hradius : 0 < radius)
    (hfar : radius * (unitAt |angle|).2 / (1 + (unitAt |angle|).1) < (corner - b.position).norm)
    (style : Corner) :
    ((b.lineToCorner corner angle radius).turn angle radius style).position =
      corner + ((Linear.planar (snapped angle)).apply f).scale
        (radius * (unitAt |angle|).2 / (1 + (unitAt |angle|).1)) ∧
    ((b.lineToCorner corner angle radius).turn angle radius style).heading =
      (Linear.planar (snapped angle)).apply f := by
  have hlength : 0 < filletLength angle radius :=
    div_pos (mul_pos hradius hs) (one_add_cos_pos hs)
  have hrun : 0 < (corner - b.position).norm := hlength.trans hfar
  have hlevel : f.z = 0 := by
    have hz := congrArg Vec.z hahead
    rw [Vec.sub_z, hcorner, sub_self, Vec.scale_z] at hz
    exact (mul_eq_zero.mp hz.symm).resolve_right hrun.ne'
  have hto : corner = b.pen.position + f.scale (corner - b.position).norm := by
    rw [← hahead]
    ext <;> simp [pen]
  have hpen : ((b.lineToCorner corner angle radius).turn angle radius style).pen =
      (b.pen.lineToCorner corner angle radius).turn angle radius style := by
    rw [← pen_lineToCorner h]
    exact pen_turn (h.draw (.lineToCorner corner angle radius)) angle radius style
  rw [b.pen.fillet hf hlevel hto hs hradius.le hrun hfar.le (.inl hfar)] at hpen
  obtain ⟨-, hposition, hheading, -⟩ := (Pen.mk.injEq ..).mp hpen
  rw [Vec.turned_eq] at hposition hheading
  exact ⟨hposition, hheading⟩

/-- A right turn at the far corner of a triangle with the sides 3, 4 and 5. -/
theorem lineToCorner_turn_triangle :
    let b := Cursor.new (.zero : Vec ℝ)
    let corner : Vec ℝ := ⟨3, 4, 0⟩
    let f : Vec ℝ := ⟨3 / 5, 4 / 5, 0⟩
    corner.z = b.position.z ∧ f.norm = 1 ∧
    corner - b.position = f.scale (corner - b.position).norm ∧
    0 < (unitAt |(-quarterTurn : ℝ)|).2 ∧ (0 : ℝ) < 1 ∧
    1 * (unitAt |(-quarterTurn : ℝ)|).2 / (1 + (unitAt |(-quarterTurn : ℝ)|).1) <
      (corner - b.position).norm ∧
    ((b.lineToCorner corner (-quarterTurn) 1).turn (-quarterTurn) 1 .round).position =
      ⟨19 / 5, 17 / 5, 0⟩ := by
  intro b corner f
  have hunit : unitAt |(-quarterTurn : ℝ)| = (0, 1) := by
    rw [abs_neg, abs_of_pos quarterTurn_pos, unitAt_quarterTurn]
  have hnorm : (corner - b.position).norm = 5 := by
    have hsq : (3 - 0 : ℝ) * (3 - 0) + (4 - 0) * (4 - 0) + (0 - 0) * (0 - 0) = 5 * 5 := by norm_num
    change √((3 - 0 : ℝ) * (3 - 0) + (4 - 0) * (4 - 0) + (0 - 0) * (0 - 0)) = 5
    rw [hsq, Real.sqrt_mul_self (by norm_num)]
  have hf : f.norm = 1 := by
    have hsq : (3 / 5 : ℝ) * (3 / 5) + 4 / 5 * (4 / 5) + 0 * 0 = 1 := by norm_num
    rw [Vec.norm_real, hsq, Real.sqrt_one]
  have hahead : corner - b.position = f.scale (corner - b.position).norm := by
    rw [hnorm]
    ext <;> simp [f, corner, b, position, new, vertices, Vec.zero]
  have hs : 0 < (unitAt |(-quarterTurn : ℝ)|).2 := by
    rw [hunit]
    exact one_pos
  have hfar : 1 * (unitAt |(-quarterTurn : ℝ)|).2 / (1 + (unitAt |(-quarterTurn : ℝ)|).1) <
      (corner - b.position).norm := by
    rw [hnorm, hunit]
    norm_num
  have hz : corner.z = b.position.z := rfl
  have hposition := (lineToCorner_turn (sound_new .zero) hz hf hahead hs one_pos hfar .round).1
  refine ⟨hz, hf, hahead, hs, one_pos, hfar, hposition.trans ?_⟩
  rw [hunit, ← Vec.turned_eq, Vec.turned_neg_quarterTurn]
  ext <;> simp [f, corner] <;> norm_num

end Cursor
end Toolpath
