import Toolpath.Proofs.Outline.Rectangle

/-! Boxes by the radius of their corners. The outline stays in the box exactly if the corners fit.
A side that is too short for its corners is not run along at all, and the turn at its end, which
keeps the whole radius, leads out of the box. -/
namespace Toolpath
open Scalar

theorem Vec.normalize_scale_norm (a : Vec ℝ) : a.normalize.scale a.norm = a := by
  unfold normalize
  split_ifs with hnone
  · have hzero := norm_eq_zero.mp (of_decide_eq_true hnone)
    rw [hzero, zero_scale]
  · have hne : a.norm ≠ 0 := fun h => hnone (decide_eq_true h)
    ext <;> simp [divide, div_mul_cancel₀ _ hne]

/-- A run that is no longer than the fillet is taken away as a whole. -/
theorem tangentLength_of_le {angle radius run : ℝ} (hradius : 0 ≤ radius) (hrun : 0 ≤ run)
    (hle : run ≤ filletLength angle radius) :
    Cursor.tangentLength angle radius run = run := by
  unfold Cursor.tangentLength
  dsimp only
  rw [abs_real, abs_real, lesser_real, abs_of_nonneg hradius]
  split_ifs with hzero
  · have hr : radius = 0 := of_decide_eq_true hzero
    rw [filletLength, hr, zero_mul, zero_div] at hle
    exact le_antisymm hrun hle
  · rfl
  · exact min_eq_right hle

namespace BoxSide
variable (s : BoxSide) {radius : ℝ}

/-- The point so far along a side, and so far to the left of it. -/
noncomputable def spot (along inward : ℝ) : Vec ℝ :=
  s.corner + s.along.scale along + s.along.left.scale inward

theorem runStart_eq_spot : s.runStart radius = s.spot radius 0 := by
  ext <;> simp [runStart, spot]

theorem runFinish_eq_spot : s.runFinish radius = s.spot (s.length - radius) 0 := by
  ext <;> simp [runFinish, finish, spot] <;> ring

theorem turnFinish_eq_spot : s.turnFinish radius = s.spot s.length radius := rfl

variable {s} in
theorem not_fits (hlength : 0 < s.length) : ¬ s.Fits radius ↔ s.length < 2 * radius := by
  rw [Fits, not_and, not_le]
  constructor
  · intro h
    linarith [h hlength]
  · intro h _
    linarith

end BoxSide

namespace Pen
variable {angle radius : ℝ}

/-- What is drawn stays. -/
theorem edges_prefix_draw (p : Pen) (move : Move ℝ) : p.edges <+: (p.draw move).edges := by
  have hline : ∀ target, p.edges <+: (p.lineTo target).edges := by
    intro target
    unfold lineTo
    split_ifs
    · exact List.prefix_rfl
    · exact List.prefix_append _ _
  cases move with
  | lineTo target => exact hline target
  | turn angle radius corner => exact List.prefix_append _ _
  | lineToCorner corner angle radius => exact hline _
  | close => exact hline _

theorem edges_prefix_foldl (p : Pen) (moves : List (Move ℝ)) :
    p.edges <+: (moves.foldl draw p).edges := by
  induction moves generalizing p with
  | nil => exact List.prefix_rfl
  | cons move rest ih => exact (p.edges_prefix_draw move).trans (ih _)

/-- Nothing is left of a run to a corner that is as near as the fillet is long. -/
theorem lineToCorner_near (p : Pen) {corner : Vec ℝ} (hradius : 0 ≤ radius)
    (hnear : (corner - p.position).norm ≤ filletLength angle radius) :
    p.lineToCorner corner angle radius = p := by
  have hback : corner - (corner - p.position) = p.position := by
    ext <;> simp
  have hnorm : 0 ≤ (corner - p.position).norm := Real.sqrt_nonneg _
  unfold lineToCorner
  dsimp only
  rw [tangentLength_of_le hradius hnorm hnear, Vec.normalize_scale_norm, hback]
  exact if_pos rfl

/-- From the start of a side that is too short, the turn leads as far along it as both corners
reach together. -/
theorem short_side (p : Pen) {s : BoxSide} (hlength : 0 < s.length)
    (hshort : s.length < 2 * radius) (hposition : p.position = s.runStart radius)
    (hheading : p.heading = s.along) (style : Corner) :
    ∃ e ∈ ((p.lineToCorner s.finish quarterTurn radius).turn quarterTurn radius style).edges,
      e.finish = s.spot (2 * radius) radius := by
  have hradius : 0 < radius := by linarith
  have hs : 0 < (unitAt |(quarterTurn : ℝ)|).2 := by
    rw [abs_of_pos quarterTurn_pos, unitAt_quarterTurn]
    exact one_pos
  have hway : (s.finish - p.position).norm ≤ filletLength quarterTurn radius := by
    have hforward : s.finish - p.position = s.along.scale (s.length - radius) := by
      rw [hposition]
      ext <;> simp [BoxSide.finish, BoxSide.runStart] <;> ring
    have hnorm : (s.along.scale (s.length - radius)).norm = |s.length - radius| := by
      rw [Vec.norm_real, ← Real.sqrt_sq_eq_abs]
      congr 1
      simp only [Vec.scale_x, Vec.scale_y, Vec.scale_z, s.level]
      linear_combination (s.length - radius) ^ 2 * s.unit_sq
    rw [hforward, hnorm, filletLength_quarterTurn, abs_le]
    constructor <;> linarith
  have hfinish : p.finish quarterTurn radius = s.spot (2 * radius) radius := by
    have hlevel : p.heading.z = 0 := hheading ▸ s.level
    have hstart : p.position = s.spot (2 * radius) 0 -
        p.heading.scale (filletLength quarterTurn radius) := by
      rw [hposition, hheading, filletLength_quarterTurn, BoxSide.runStart_eq_spot]
      ext <;> simp [BoxSide.spot] <;> ring
    rw [p.finish_fillet hlevel hstart hs, hheading, filletLength_quarterTurn,
      Vec.turned_quarterTurn]
    ext <;> simp [BoxSide.spot, Vec.left]
  rw [p.lineToCorner_near hradius.le hway, turn, if_neg hradius.ne', hfinish]
  exact ⟨_, List.mem_append_right _ (List.mem_singleton_self _), Corner.finish_edge ..⟩

/-- Of sides that go on from each other, the first one that is too short is overrun. -/
theorem exists_overrun {b : BoxShape ℝ} (hradius : 0 ≤ b.radius) (sides : List BoxSide)
    (hturns : sides.IsChain BoxSide.Turns) (hpos : ∀ s ∈ sides, 0 < s.length)
    (hcramped : ∃ s ∈ sides, ¬ s.Fits b.radius) (p : Pen)
    (hstart : ∀ s ∈ sides.head?, p.position = s.runStart b.radius ∧ p.heading = s.along) :
    ∃ s ∈ sides, s.length < 2 * b.radius ∧
      ∃ e ∈ ((b.moves (sides.map BoxSide.finish)).foldl draw p).edges,
        e.finish = s.spot (2 * b.radius) b.radius := by
  induction sides generalizing p with
  | nil => simp at hcramped
  | cons s rest ih =>
    obtain ⟨hlength, hrest⟩ := List.forall_mem_cons.mp hpos
    obtain ⟨hposition, hheading⟩ := hstart s rfl
    by_cases hfits : s.Fits b.radius
    · obtain ⟨hnext, hchain⟩ := List.isChain_cons.mp hturns
      have hlater : ∃ t ∈ rest, ¬ t.Fits b.radius := by
        obtain ⟨t, ht, hshort⟩ := hcramped
        rcases List.mem_cons.mp ht with rfl | ht
        · exact absurd hfits hshort
        · exact ⟨t, ht, hshort⟩
      have hside := p.side hradius hfits hposition hheading b.corner
      obtain ⟨t, ht, hshort, e, he, hfinish⟩ := ih hchain hrest hlater
        ((p.lineToCorner s.finish quarterTurn b.radius).turn quarterTurn b.radius b.corner) (by
          intro t ht
          obtain ⟨hcorner, halong⟩ := hnext t ht
          rw [hside, BoxSide.runStart, hcorner, halong]
          exact ⟨rfl, rfl⟩)
      exact ⟨t, List.mem_cons_of_mem s ht, hshort, e, he, hfinish⟩
    · have hshort := (BoxSide.not_fits hlength).mp hfits
      obtain ⟨e, he, hfinish⟩ := p.short_side hlength hshort hposition hheading b.corner
      exact ⟨s, List.mem_cons_self, hshort, e,
        (edges_prefix_foldl _ (b.moves (rest.map BoxSide.finish))).subset he, hfinish⟩

end Pen

theorem eq_of_lowEdge {edge center : Option ℝ} {low size : ℝ} {axis : String}
    (h : lowEdge edge center size axis = .ok low) :
    edge = some low ∨ edge = none ∧ center = some (low + size / 2) := by
  cases edge with
  | some e => exact .inl (congrArg some (Except.ok.inj h))
  | none =>
    cases center with
    | none => cases h
    | some c =>
      have hlow : c - size / two = low := Except.ok.inj h
      rw [two_real] at hlow
      exact .inr ⟨rfl, congrArg some (eq_add_of_sub_eq hlow)⟩

namespace BoxShape

/-- The point lies in the box, or on its edge, whatever its height. -/
def Contains (b : BoxShape ℝ) (x0 y0 : ℝ) (p : Vec ℝ) : Prop :=
  (x0 ≤ p.x ∧ p.x ≤ x0 + b.width) ∧ y0 ≤ p.y ∧ p.y ≤ y0 + b.height

variable {b : BoxShape ℝ} {x0 y0 : ℝ}

/-- The box as it is seen from one of its sides. -/
theorem contains_spot {s : BoxSide} (h : s ∈ b.sides x0 y0) :
    ∃ depth, (depth = b.width ∨ depth = b.height) ∧ ∀ along inward,
      b.Contains x0 y0 (s.spot along inward) ↔
        (0 ≤ along ∧ along ≤ s.length) ∧ 0 ≤ inward ∧ inward ≤ depth := by
  simp only [sides, List.mem_cons, List.not_mem_nil, or_false] at h
  simp only [Contains, BoxSide.spot, Vec.left, Vec.add_x, Vec.add_y, Vec.scale_x, Vec.scale_y]
  rcases h with rfl | rfl | rfl | rfl
  · exact ⟨b.height, .inr rfl, by grind⟩
  · exact ⟨b.width, .inl rfl, by grind⟩
  · exact ⟨b.height, .inr rfl, by grind⟩
  · exact ⟨b.width, .inl rfl, by grind⟩

/-- A side on which its corners fit stays in the box. -/
theorem contains_of_mem_edges (hradius : 0 ≤ b.radius) (hfits : b.radius ≤ min b.width b.height / 2)
    {s : BoxSide} (hs : s ∈ b.sides x0 y0) {e : Edge} (he : e ∈ s.edges b.radius b.corner) :
    b.Contains x0 y0 e.start ∧ b.Contains x0 y0 e.finish := by
  obtain ⟨depth, hdepth, hspot⟩ := contains_spot hs
  obtain ⟨hwide, hhigh⟩ := le_min_iff.mp ((le_div_iff₀ two_pos).mp hfits)
  have hlength : b.radius * 2 ≤ s.length := by
    rcases length_of_mem_sides hs with h | h <;> rw [h] <;> assumption
  have hinside : b.radius ≤ depth := by
    rcases hdepth with rfl | rfl <;> linarith
  have hstart : b.Contains x0 y0 (s.runStart b.radius) := by
    rw [s.runStart_eq_spot, hspot]
    refine ⟨⟨hradius, ?_⟩, le_rfl, ?_⟩ <;> linarith
  have hfinish : b.Contains x0 y0 (s.runFinish b.radius) := by
    rw [s.runFinish_eq_spot, hspot]
    refine ⟨⟨?_, ?_⟩, le_rfl, ?_⟩ <;> linarith
  have hturn : b.Contains x0 y0 (s.turnFinish b.radius) := by
    rw [s.turnFinish_eq_spot, hspot]
    refine ⟨⟨?_, le_rfl⟩, hradius, hinside⟩
    linarith
  rcases BoxSide.mem_edges.mp he with ⟨-, rfl⟩ | ⟨-, rfl⟩
  · exact ⟨hstart, hfinish⟩
  · rw [Corner.start_edge, Corner.finish_edge]
    exact ⟨hfinish, hturn⟩

/-- If the corners do not fit, an edge leads out of the box along a side that is too short. -/
theorem exists_outside (x0 y0 : ℝ) (hw : 0 < b.width) (hh : 0 < b.height) (hradius : 0 ≤ b.radius)
    (hcramped : min b.width b.height / 2 < b.radius) :
    ∃ s ∈ b.sides x0 y0, s.length < 2 * b.radius ∧
      ∃ e ∈ (Cursor.drawn ⟨x0 + b.radius, y0, 0⟩
          (b.moves ((b.sides x0 y0).map BoxSide.finish))).path.edges,
        e.finish = s.spot (2 * b.radius) b.radius := by
  have hpen := Cursor.pen_drawn ⟨x0 + b.radius, y0, 0⟩
    (b.moves ((b.sides x0 y0).map BoxSide.finish))
  have hedges := congrArg Pen.edges hpen
  have hpos : ∀ s ∈ b.sides x0 y0, 0 < s.length := by
    intro s hs
    rcases length_of_mem_sides hs with h | h <;> rw [h] <;> assumption
  have hshort : ∃ s ∈ b.sides x0 y0, ¬ s.Fits b.radius := by
    rw [div_lt_iff₀ two_pos, min_lt_iff] at hcramped
    rcases hcramped with hwide | hhigh
    · exact ⟨_, List.mem_cons_self, (BoxSide.not_fits hw).mpr (by linarith)⟩
    · exact ⟨_, List.mem_cons_of_mem _ List.mem_cons_self,
        (BoxSide.not_fits hh).mpr (by linarith)⟩
  have hover := Pen.exists_overrun hradius (b.sides x0 y0) (b.isChain_sides x0 y0) hpos hshort
    (.new ⟨x0 + b.radius, y0, 0⟩) (by
      intro s hs
      obtain rfl := Option.mem_some_iff.mp hs
      exact ⟨by ext <;> simp [Pen.new, BoxSide.runStart], rfl⟩)
  rw [← hedges] at hover
  exact hover

/-- The outline of a box stays in the box if and only if its corners fit. If they do not, an edge
leads past the end of a side that is too short, to where the corners at both its ends reach
together. -/
theorem path_inside_iff {b : BoxShape ℝ} {p : Path ℝ} (hpath : b.path = .ok p)
    (hw : 0 < b.width) (hh : 0 < b.height) (hradius : 0 ≤ b.radius) :
    ∃ x0 y0, (b.x0 = some x0 ∨ b.x0 = none ∧ b.cx = some (x0 + b.width / 2)) ∧
      (b.y0 = some y0 ∨ b.y0 = none ∧ b.cy = some (y0 + b.height / 2)) ∧
      ((∀ e ∈ p.edges, b.Contains x0 y0 e.start ∧ b.Contains x0 y0 e.finish) ↔
        b.radius ≤ min b.width b.height / 2) ∧
      (min b.width b.height / 2 < b.radius → ∃ s ∈ b.sides x0 y0, s.length < 2 * b.radius ∧
        ∃ e ∈ p.edges, e.finish = s.spot (2 * b.radius) b.radius) := by
  obtain ⟨x0, hx, hrest⟩ := exists_of_bind_eq_ok hpath
  obtain ⟨y0, hy, -⟩ := exists_of_bind_eq_ok hrest
  have hdrawn := path_eq hx hy
  rw [hpath, ← map_finish_sides] at hdrawn
  obtain rfl := Except.ok.inj hdrawn
  refine ⟨x0, y0, eq_of_lowEdge hx, eq_of_lowEdge hy, ⟨fun hinside => ?_, fun hfits => ?_⟩,
    exists_outside x0 y0 hw hh hradius⟩
  · by_contra hcramped
    obtain ⟨s, hs, hshort, e, he, hfinish⟩ :=
      exists_outside x0 y0 hw hh hradius (not_le.mp hcramped)
    obtain ⟨depth, -, hspot⟩ := contains_spot hs
    have hend := (hinside e he).2
    rw [hfinish, hspot] at hend
    exact hshort.not_ge hend.1.2
  · intro e he
    rw [edges_drawn hradius (fits_of_mem_sides hw hh hfits), List.mem_flatMap] at he
    obtain ⟨s, hs, he⟩ := he
    exact contains_of_mem_edges hradius hfits hs he

/-- A unit square whose corners have the radius of its sides. -/
theorem path_inside_iff_square :
    let b : BoxShape ℝ := { x0 := some 0, y0 := some 0, width := 1, height := 1, radius := 1 }
    ∃ p, b.path = .ok p ∧ 0 < b.width ∧ 0 < b.height ∧ 0 ≤ b.radius ∧
      ¬ ∀ e ∈ p.edges, b.Contains 0 0 e.start ∧ b.Contains 0 0 e.finish := by
  intro b
  have hx : lowEdge b.x0 b.cx b.width "x" = .ok 0 := rfl
  have hy : lowEdge b.y0 b.cy b.height "y" = .ok 0 := rfl
  have hpath := path_eq hx hy
  obtain ⟨x0, y0, hlow, hnear, hinside, -⟩ := path_inside_iff hpath one_pos one_pos zero_le_one
  obtain rfl : (0 : ℝ) = x0 := by simpa [b] using hlow
  obtain rfl : (0 : ℝ) = y0 := by simpa [b] using hnear
  refine ⟨_, hpath, one_pos, one_pos, zero_le_one, fun hall => ?_⟩
  have hfits := hinside.mp hall
  norm_num [b] at hfits

end BoxShape
end Toolpath
