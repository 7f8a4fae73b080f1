import Toolpath.Proofs.Outline.Fillet
import Toolpath.Proofs.Outline.WellFormed

/-! Outlines of boxes whose corners fit. They run around the box counter-clockwise, side by side,
each side short of its corners by the radius, and with a quarter of a circle at its end. -/
namespace Toolpath
open Scalar

/-- The vector a quarter turn to the left. -/
def Vec.left (v : Vec ℝ) : Vec ℝ := ⟨-v.y, v.x, v.z⟩

/-- A side of a box, from a corner straight to the next one. -/
structure BoxSide where
  corner : Vec ℝ
  along : Vec ℝ
  length : ℝ
  level : along.z = 0
  unit : along.norm = 1

namespace BoxSide
noncomputable section
variable (s : BoxSide) (radius : ℝ) (style : Corner)

def finish : Vec ℝ := s.corner + s.along.scale s.length

/-- The straight part of a side is short of both corners by the radius. -/
def runStart : Vec ℝ := s.corner + s.along.scale radius

def runFinish : Vec ℝ := s.finish - s.along.scale radius

/-- The corner at the end leads as far into the next side. -/
def turnFinish : Vec ℝ := s.finish + s.along.left.scale radius

/-- The center of the corner at the end, inside it by the radius on both axes. -/
def center : Vec ℝ := s.finish - s.along.scale radius + s.along.left.scale radius

/-- A side with the corner at its end. -/
def edges : List Edge :=
  Edge.run (s.runStart radius) (s.runFinish radius) ++
    if radius = 0 then []
    else [style.edge (s.runFinish radius) (s.turnFinish radius) (s.center radius) .counterClockwise]

/-- A side goes on from the end of another one, a quarter turn to the left. -/
def Turns (s t : BoxSide) : Prop := t.corner = s.finish ∧ t.along = s.along.left

/-- There is room for a corner at both ends of a side. -/
def Fits : Prop := 0 < s.length ∧ radius ≤ s.length - radius

end
end BoxSide

theorem arcMotion_quarterTurn (start center : Vec ℝ) :
    arcMotion start center .counterClockwise .forward quarterTurn =
      center + (start - center).left := by
  have hturned := Vec.turned_eq (start - center) quarterTurn
  rw [snapped_quarterTurn, Vec.turned_quarterTurn] at hturned
  unfold arcMotion Vec.swung
  simp [Sense.turn, Sense.sign, Direction.sign, ← hturned, Vec.left]

namespace BoxSide
variable {s : BoxSide} {radius : ℝ} {style : Corner}

theorem unit_sq (s : BoxSide) : s.along.x ^ 2 + s.along.y ^ 2 = 1 := by
  have hunit := s.unit
  rw [Vec.norm_real, s.level, Real.sqrt_eq_one] at hunit
  linear_combination hunit

theorem mem_edges {e : Edge} : e ∈ s.edges radius style ↔
    (s.runStart radius ≠ s.runFinish radius ∧
        e = .straight (s.runStart radius) (s.runFinish radius)) ∨
      (radius ≠ 0 ∧
        e = style.edge (s.runFinish radius) (s.turnFinish radius) (s.center radius)
          .counterClockwise) := by
  unfold edges Edge.run
  rw [List.mem_append]
  refine or_congr ?_ ?_
  · split_ifs with h <;> simp [h]
  · split_ifs with h <;> simp [h]

theorem runStart_eq_runFinish : s.runStart radius = s.runFinish radius ↔ s.length = 2 * radius := by
  have hunit := s.unit_sq
  constructor
  · intro h
    have hx := congrArg Vec.x h
    have hy := congrArg Vec.y h
    simp only [runStart, runFinish, finish, Vec.add_x, Vec.add_y, Vec.sub_x, Vec.sub_y, Vec.scale_x,
      Vec.scale_y] at hx hy
    linear_combination (2 * radius - s.length) * hunit - s.along.x * hx - s.along.y * hy
  · intro hlength
    unfold runStart runFinish finish
    rw [hlength]
    ext <;> simp <;> ring

theorem length_edges (s : BoxSide) (radius : ℝ) (style : Corner) : (s.edges radius style).length =
    (if s.length = 2 * radius then 0 else 1) + if radius = 0 then 0 else 1 := by
  unfold edges Edge.run
  rw [List.length_append]
  simp only [runStart_eq_runFinish]
  split_ifs <;> rfl

theorem edges_ne_nil (hfits : s.Fits radius) : s.edges radius style ≠ [] := by
  intro hnil
  have hlength := s.length_edges radius style
  have hnone : s.length = 2 * radius ∧ radius = 0 := by
    simpa [hnil] using hlength.symm
  have hpos := hfits.1
  rw [hnone.1, hnone.2, mul_zero] at hpos
  exact hpos.false

/-- The corner at the end of a side is a quarter of a circle. -/
theorem sweeps_quarterTurn {start finish center : Vec ℝ} {sense : Sense}
    (h : .arc start finish center sense ∈ s.edges radius style) :
    SweepsTo start finish center sense quarterTurn := by
  rcases mem_edges.mp h with ⟨-, hrun⟩ | ⟨hradius, hcorner⟩
  · cases hrun
  · cases style with
    | chamfer => cases hcorner
    | round =>
      obtain ⟨rfl, rfl, rfl, rfl⟩ := (Edge.arc.injEq ..).mp hcorner
      have hfinish : s.turnFinish radius = arcMotion (s.runFinish radius) (s.center radius)
          .counterClockwise .forward quarterTurn := by
        rw [arcMotion_quarterTurn]
        ext <;> simp [turnFinish, runFinish, BoxSide.center, Vec.left, s.level] <;> ring
      have hapart : (s.runFinish radius).x ≠ (s.center radius).x ∨
          (s.runFinish radius).y ≠ (s.center radius).y := by
        rw [← not_and_or]
        intro hthere
        obtain ⟨hx, hy⟩ := hthere
        have halong : s.along.y = 0 ∧ s.along.x = 0 := by
          simpa [BoxSide.center, runFinish, Vec.left, hradius] using And.intro hx hy
        have hunit := s.unit_sq
        rw [halong.1, halong.2] at hunit
        norm_num at hunit
      rw [hfinish]
      refine sweepsTo_arcMotion hapart _ quarterTurn_pos ?_
      rw [fullTurn_eq]
      linarith [quarterTurn_pos]

/-- From a middle that lies to the left of a side, the side and its corner are seen from right to
left. -/
theorem crossXY_pos (hradius : 0 ≤ radius) (hfits : s.Fits radius) {depth : ℝ} {middle : Vec ℝ}
    (hpos : 0 < depth)
    (hmiddle : middle = s.corner + s.along.scale (s.length / 2) + s.along.left.scale depth)
    {e : Edge} (he : e ∈ s.edges radius style) :
    0 < (e.start - middle).crossXY (e.finish - middle) := by
  have hunit := s.unit_sq
  obtain ⟨hlength, hshort⟩ := hfits
  rcases mem_edges.mp he with ⟨hne, rfl⟩ | ⟨hne, rfl⟩
  · have hlonger : s.length ≠ 2 * radius := mt runStart_eq_runFinish.mpr hne
    have hroom : 2 * radius ≤ s.length := by linarith
    have hlong : 0 < s.length - 2 * radius := sub_pos.mpr (lt_of_le_of_ne hroom hlonger.symm)
    have hcross : (s.runStart radius - middle).crossXY (s.runFinish radius - middle) =
        depth * (s.length - 2 * radius) := by
      rw [hmiddle]
      simp only [Vec.crossXY, runStart, runFinish, finish, Vec.left, Vec.add_x, Vec.add_y,
        Vec.sub_x, Vec.sub_y, Vec.scale_x, Vec.scale_y]
      linear_combination (depth * (s.length - 2 * radius)) * hunit
    rw [Edge.start, Edge.finish, hcross]
    exact mul_pos hpos hlong
  · have hcross : (s.runFinish radius - middle).crossXY (s.turnFinish radius - middle) =
        radius * (s.length / 2 + depth - radius) := by
      rw [hmiddle]
      simp only [Vec.crossXY, runFinish, turnFinish, finish, Vec.left, Vec.add_x, Vec.add_y,
        Vec.sub_x, Vec.sub_y, Vec.scale_x, Vec.scale_y]
      linear_combination (radius * (s.length / 2 + depth - radius)) * hunit
    rw [Corner.start_edge, Corner.finish_edge, hcross]
    exact mul_pos (lt_of_le_of_ne hradius hne.symm) (by linarith)

end BoxSide

theorem filletLength_quarterTurn (radius : ℝ) : filletLength quarterTurn radius = radius := by
  unfold filletLength
  rw [abs_of_pos quarterTurn_pos, unitAt_quarterTurn]
  simp

namespace Pen
variable {radius : ℝ}

/-- A side with the corner at its end, as it is drawn. -/
theorem side (p : Pen) {s : BoxSide} (hradius : 0 ≤ radius) (hfits : s.Fits radius)
    (hposition : p.position = s.runStart radius) (hheading : p.heading = s.along) (style : Corner) :
    (p.lineToCorner s.finish quarterTurn radius).turn quarterTurn radius style =
      ⟨p.first, s.turnFinish radius, s.along.left, p.edges ++ s.edges radius style⟩ := by
  have hs : 0 < (unitAt |(quarterTurn : ℝ)|).2 := by
    rw [abs_of_pos quarterTurn_pos, unitAt_quarterTurn]
    exact one_pos
  have hcorner : s.finish = p.position + s.along.scale (s.length - radius) := by
    rw [hposition]
    ext <;> simp [BoxSide.finish, BoxSide.runStart] <;> ring
  have hrun : 0 < s.length - radius := by linarith [hfits.1, hfits.2]
  have hlength : filletLength quarterTurn radius ≤ s.length - radius := by
    rw [filletLength_quarterTurn]
    exact hfits.2
  have hsense : Sense.ofAngle (quarterTurn : ℝ) = .counterClockwise := if_neg quarterTurn_pos.not_gt
  have haside : (s.along.scale radius).aside quarterTurn = s.along.left.scale radius := by
    rw [Vec.aside, if_pos quarterTurn_pos]
    ext <;> simp [Vec.left]
  rw [p.fillet s.unit s.level hcorner hs hradius hrun hlength (.inr hheading) style,
    filletLength_quarterTurn, hsense, haside, Vec.turned_quarterTurn, hposition,
    List.append_assoc]
  rfl

/-- Sides that go on from each other are drawn one after the other. -/
theorem foldl_sides (hradius : 0 ≤ radius) (style : Corner) (s : BoxSide) (rest : List BoxSide)
    (hturns : (s :: rest).IsChain BoxSide.Turns) (hfits : ∀ t ∈ s :: rest, t.Fits radius) (p : Pen)
    (hposition : p.position = s.runStart radius) (hheading : p.heading = s.along) :
    ((s :: rest).map BoxSide.finish).foldl (fun p c =>
        (p.lineToCorner c quarterTurn radius).turn quarterTurn radius style) p =
      ⟨p.first, ((s :: rest).getLast (List.cons_ne_nil s rest)).turnFinish radius,
        ((s :: rest).getLast (List.cons_ne_nil s rest)).along.left,
        p.edges ++ (s :: rest).flatMap (BoxSide.edges · radius style)⟩ := by
  induction rest generalizing s p with
  | nil =>
    rw [List.flatMap_singleton]
    exact p.side hradius (hfits s (List.mem_singleton_self s)) hposition hheading style
  | cons t rest ih =>
    obtain ⟨⟨hcorner, halong⟩, hrest⟩ := List.isChain_cons_cons.mp hturns
    obtain ⟨hfirst, hothers⟩ := List.forall_mem_cons.mp hfits
    have hstart : s.turnFinish radius = t.runStart radius := by
      rw [BoxSide.runStart, hcorner, halong]
      rfl
    rw [List.map_cons, List.foldl_cons, p.side hradius hfirst hposition hheading style,
      ih t hrest hothers _ hstart halong.symm, List.getLast_cons (List.cons_ne_nil t rest),
      List.flatMap_cons (x := s), List.append_assoc]

end Pen

theorem lowEdge_eq {edge center : Option ℝ} {low size : ℝ}
    (h : edge = some low ∨ edge = none ∧ center = some (low + size / 2)) (axis : String) :
    lowEdge edge center size axis = .ok low := by
  rcases h with hedge | ⟨hedge, hcenter⟩
  · rw [hedge]
    rfl
  · have htwo : low + size / 2 - size / (two : ℝ) = low := by
      rw [two_real, add_sub_cancel_right]
    rw [hedge, hcenter]
    exact congrArg Except.ok htwo

namespace BoxShape
variable {α : Type} [Scalar α]

/-- The moves that draw a box around its corners. -/
def moves (b : BoxShape α) (corners : List (Vec α)) : List (Move α) :=
  corners.flatMap (fun c =>
    [.lineToCorner c quarterTurn b.radius, .turn quarterTurn b.radius b.corner]) ++ [.close]

theorem path_eq {b : BoxShape α} {x0 y0 : α} (hx : lowEdge b.x0 b.cx b.width "x" = .ok x0)
    (hy : lowEdge b.y0 b.cy b.height "y" = .ok y0) :
    b.path = .ok (Cursor.drawn ⟨x0 + b.radius, y0, 0⟩ (b.moves
      [⟨x0 + b.width, y0, 0⟩, ⟨x0 + b.width, y0 + b.height, 0⟩, ⟨x0, y0 + b.height, 0⟩,
        ⟨x0, y0, 0⟩])).path := by
  unfold path
  rw [hx, hy]
  rfl

/-- The sides of a box, counter-clockwise from the bottom edge. -/
noncomputable def sides (b : BoxShape ℝ) (x0 y0 : ℝ) : List BoxSide :=
  [⟨⟨x0, y0, 0⟩, ⟨1, 0, 0⟩, b.width, rfl, by simp [Vec.norm_real]⟩,
    ⟨⟨x0 + b.width, y0, 0⟩, ⟨0, 1, 0⟩, b.height, rfl, by simp [Vec.norm_real]⟩,
    ⟨⟨x0 + b.width, y0 + b.height, 0⟩, ⟨-1, 0, 0⟩, b.width, rfl, by simp [Vec.norm_real]⟩,
    ⟨⟨x0, y0 + b.height, 0⟩, ⟨0, -1, 0⟩, b.height, rfl, by simp [Vec.norm_real]⟩]

variable (b : BoxShape ℝ) (x0 y0 : ℝ)

theorem map_finish_sides : (b.sides x0 y0).map BoxSide.finish =
    [⟨x0 + b.width, y0, 0⟩, ⟨x0 + b.width, y0 + b.height, 0⟩, ⟨x0, y0 + b.height, 0⟩,
      ⟨x0, y0, 0⟩] := by
  simp [sides, BoxSide.finish, Vec.ext_iff]

theorem isChain_sides : (b.sides x0 y0).IsChain BoxSide.Turns := by
  simp [sides, BoxSide.Turns, BoxSide.finish, Vec.left, Vec.ext_iff]

variable {b x0 y0}

theorem length_of_mem_sides {s : BoxSide} (h : s ∈ b.sides x0 y0) :
    s.length = b.width ∨ s.length = b.height := by
  simp only [sides, List.mem_cons, List.not_mem_nil, or_false] at h
  rcases h with rfl | rfl | rfl | rfl <;> simp

theorem fits_of_mem_sides (hw : 0 < b.width) (hh : 0 < b.height)
    (hfits : b.radius ≤ min b.width b.height / 2) : ∀ s ∈ b.sides x0 y0, s.Fits b.radius := by
  intro s hs
  obtain ⟨hwide, hhigh⟩ := le_min_iff.mp ((le_div_iff₀ two_pos).mp hfits)
  rcases length_of_mem_sides hs with hlength | hlength
  · exact ⟨hlength ▸ hw, by linarith⟩
  · exact ⟨hlength ▸ hh, by linarith⟩

/-- Four corners, if they have a radius, and every side that they do not take up. -/
theorem length_edges_sides (b : BoxShape ℝ) (x0 y0 : ℝ) :
    ((b.sides x0 y0).flatMap (BoxSide.edges · b.radius b.corner)).length =
      2 * (if b.width = 2 * b.radius then 0 else 1) +
        2 * (if b.height = 2 * b.radius then 0 else 1) + 4 * if b.radius = 0 then 0 else 1 := by
  simp only [sides, List.flatMap_cons, List.flatMap_nil, List.append_nil, List.length_append,
    BoxSide.length_edges]
  ring

/-- All sides have the middle of the box to their left. -/
theorem middle_of_mem_sides (hw : 0 < b.width) (hh : 0 < b.height) {s : BoxSide}
    (h : s ∈ b.sides x0 y0) : ∃ depth, 0 < depth ∧
      (⟨x0 + b.width / 2, y0 + b.height / 2, 0⟩ : Vec ℝ) =
        s.corner + s.along.scale (s.length / 2) + s.along.left.scale depth := by
  simp only [sides, List.mem_cons, List.not_mem_nil, or_false] at h
  rcases h with rfl | rfl | rfl | rfl
  · exact ⟨b.height / 2, half_pos hh, by ext <;> simp [Vec.left]⟩
  · exact ⟨b.width / 2, half_pos hw, by ext <;> simp [Vec.left]; ring⟩
  · exact ⟨b.height / 2, half_pos hh, by ext <;> simp [Vec.left] <;> ring⟩
  · exact ⟨b.width / 2, half_pos hw, by ext <;> simp [Vec.left]; ring⟩

theorem edges_drawn (hradius : 0 ≤ b.radius)
    (hfits : ∀ s ∈ b.sides x0 y0, s.Fits b.radius) :
    (Cursor.drawn ⟨x0 + b.radius, y0, 0⟩
      (b.moves ((b.sides x0 y0).map BoxSide.finish))).path.edges =
      (b.sides x0 y0).flatMap (BoxSide.edges · b.radius b.corner) := by
  have hpen := Cursor.pen_drawn ⟨x0 + b.radius, y0, 0⟩
    (b.moves ((b.sides x0 y0).map BoxSide.finish))
  have hround := Pen.foldl_sides hradius b.corner _ _ (b.isChain_sides x0 y0) hfits
    (.new ⟨x0 + b.radius, y0, 0⟩) (by ext <;> simp [Pen.new, BoxSide.runStart]) rfl
  rw [moves, List.foldl_append, List.foldl_flatMap] at hpen
  have hback := hpen.trans (congrArg Pen.close hround)
  rw [Pen.close, Pen.lineTo, if_pos] at hback
  · exact congrArg Pen.edges hback
  · ext <;> simp [Pen.new, BoxSide.turnFinish, BoxSide.finish, Vec.left]

/-- If its corners fit, the outline of a box is closed. From the bottom edge it runs around the
middle counter-clockwise, along one side after the other, each with a quarter of a circle at its
end, or the chord of one. -/
theorem path_outline {b : BoxShape ℝ} {x0 y0 : ℝ}
    (hx : b.x0 = some x0 ∨ b.x0 = none ∧ b.cx = some (x0 + b.width / 2))
    (hy : b.y0 = some y0 ∨ b.y0 = none ∧ b.cy = some (y0 + b.height / 2))
    (hw : 0 < b.width) (hh : 0 < b.height) (hradius : 0 ≤ b.radius)
    (hfits : b.radius ≤ min b.width b.height / 2) :
    ∃ p, b.path = .ok p ∧ p.check = .ok () ∧ p.isClosed = true ∧
      p.start? = some ⟨x0 + b.radius, y0, 0⟩ ∧
      p.edges = (b.sides x0 y0).flatMap (BoxSide.edges · b.radius b.corner) ∧
      (∀ e ∈ p.edges, 0 < (e.start - ⟨x0 + b.width / 2, y0 + b.height / 2, 0⟩).crossXY
        (e.finish - ⟨x0 + b.width / 2, y0 + b.height / 2, 0⟩)) ∧
      (∀ start finish center sense, .arc start finish center sense ∈ p.edges →
        SweepsTo start finish center sense quarterTurn) ∧
      (b.radius = 0 → p.segments.length = 4) ∧
      (0 < b.radius → b.radius < min b.width b.height / 2 → p.segments.length = 8) := by
  have hpath := path_eq (lowEdge_eq hx "x") (lowEdge_eq hy "y")
  rw [← map_finish_sides] at hpath
  have hshort : ∀ s ∈ b.sides x0 y0, s.Fits b.radius := fits_of_mem_sides hw hh hfits
  have hedges := edges_drawn hradius hshort
  have hlength := congrArg List.length hedges
  rw [length_edges_sides, Path.edges, List.length_map] at hlength
  have hne : (Cursor.drawn ⟨x0 + b.radius, y0, 0⟩
      (b.moves ((b.sides x0 y0).map BoxSide.finish))).segments ≠ [] := by
    intro hnil
    rw [Path.edges, Cursor.path, hnil] at hedges
    have hnone := List.flatMap_eq_nil_iff.mp hedges.symm _ List.mem_cons_self
    exact BoxSide.edges_ne_nil (hshort _ List.mem_cons_self) hnone
  refine ⟨_, hpath, (Cursor.sound_drawn _ _).check, ?_, ?_, hedges, ?_, ?_, ?_, ?_⟩
  · rw [moves, Cursor.drawn_append] at hne ⊢
    exact Cursor.isClosed_close (by simp [Vec.isNaN]) hne
  · rw [Cursor.start?_drawn hne, Cursor.first_drawn]
  · intro e he
    rw [hedges, List.mem_flatMap] at he
    obtain ⟨s, hs, he⟩ := he
    obtain ⟨depth, hpos, hmiddle⟩ := middle_of_mem_sides hw hh hs
    exact BoxSide.crossXY_pos hradius (hshort s hs) hpos hmiddle he
  · intro start finish center sense harc
    rw [hedges, List.mem_flatMap] at harc
    obtain ⟨s, -, harc⟩ := harc
    exact BoxSide.sweeps_quarterTurn harc
  · intro hzero
    rw [hlength, hzero, mul_zero, if_neg hw.ne', if_neg hh.ne', if_pos rfl]
  · intro hpos hless
    obtain ⟨hwide, hhigh⟩ := lt_min_iff.mp ((lt_div_iff₀ two_pos).mp hless)
    have hlonger : b.width ≠ 2 * b.radius := by linarith
    have hhigher : b.height ≠ 2 * b.radius := by linarith
    rw [hlength, if_neg hlonger, if_neg hhigher, if_neg hpos.ne']

/-- A slot: a box whose short sides are taken up by their corners. -/
theorem path_outline_slot :
    let b : BoxShape ℝ := { x0 := some 0, cy := some 1, width := 4, height := 2, radius := 1 }
    (b.x0 = some 0 ∨ b.x0 = none ∧ b.cx = some (0 + b.width / 2)) ∧
    (b.y0 = some 0 ∨ b.y0 = none ∧ b.cy = some (0 + b.height / 2)) ∧
    0 < b.width ∧ 0 < b.height ∧ 0 ≤ b.radius ∧ b.radius ≤ min b.width b.height / 2 ∧
    ∃ p, b.path = .ok p ∧ p.isClosed = true ∧
      p.edges = [.straight ⟨1, 0, 0⟩ ⟨3, 0, 0⟩,
        .arc ⟨3, 0, 0⟩ ⟨4, 1, 0⟩ ⟨3, 1, 0⟩ .counterClockwise,
        .arc ⟨4, 1, 0⟩ ⟨3, 2, 0⟩ ⟨3, 1, 0⟩ .counterClockwise, .straight ⟨3, 2, 0⟩ ⟨1, 2, 0⟩,
        .arc ⟨1, 2, 0⟩ ⟨0, 1, 0⟩ ⟨1, 1, 0⟩ .counterClockwise,
        .arc ⟨0, 1, 0⟩ ⟨1, 0, 0⟩ ⟨1, 1, 0⟩ .counterClockwise] := by
  intro b
  have hy : b.y0 = some 0 ∨ b.y0 = none ∧ b.cy = some (0 + b.height / 2) := by
    right
    simp [b]
  have hfits : b.radius ≤ min b.width b.height / 2 := by
    norm_num [b]
  obtain ⟨p, hp, -, hclosed, -, hedges, -⟩ :=
    path_outline (.inl rfl) hy four_pos two_pos zero_le_one hfits
  refine ⟨.inl rfl, hy, four_pos, two_pos, zero_le_one, hfits, p, hp, hclosed, ?_⟩
  rw [hedges]
  norm_num [sides, BoxSide.edges, Edge.run, BoxSide.runStart_eq_runFinish, BoxSide.runStart,
    BoxSide.runFinish, BoxSide.turnFinish, BoxSide.center, BoxSide.finish, Vec.left, Corner.edge,
    Vec.ext_iff, b]

end BoxShape
end Toolpath
