import Toolpath.Proofs.Outline.Swept

/-! Outlines by their points instead of the places of vertices. A pen draws the edges of an outline
with no vertices at all, and over exact coordinates it draws what a cursor does. -/
namespace Toolpath
open Scalar

/-- A segment with its points. -/
inductive Edge where
  | straight (start finish : Vec ℝ)
  | arc (start finish center : Vec ℝ) (sense : Sense)

namespace Edge

def start : Edge → Vec ℝ
  | .straight a _ => a
  | .arc a _ _ _ => a

def finish : Edge → Vec ℝ
  | .straight _ b => b
  | .arc _ b _ _ => b

open Classical in
/-- The straight edge from a point to another one, if they differ. -/
noncomputable def run (a b : Vec ℝ) : List Edge := if a = b then [] else [.straight a b]

end Edge

/-- The edge that cuts a corner: around a center, or straight across. -/
def Corner.edge (start finish center : Vec ℝ) (sense : Sense) : Corner → Edge
  | .round => .arc start finish center sense
  | .chamfer => .straight start finish

@[simp] theorem Corner.start_edge (start finish center : Vec ℝ) (sense : Sense) (style : Corner) :
    (style.edge start finish center sense).start = start := by
  cases style <;> rfl

@[simp] theorem Corner.finish_edge (start finish center : Vec ℝ) (sense : Sense) (style : Corner) :
    (style.edge start finish center sense).finish = finish := by
  cases style <;> rfl

noncomputable def Segment.edge (p : Path ℝ) : Segment → Edge
  | .straight start finish => .straight (p.vertex start) (p.vertex finish)
  | .arc start finish center sense =>
    .arc (p.vertex start) (p.vertex finish) (p.vertex center) sense

section
variable {p : Path ℝ} {start finish center : Nat} {a b c : Vec ℝ}

theorem Segment.edge_straight (hstart : p.vertex start = a) (hfinish : p.vertex finish = b) :
    (Segment.straight start finish).edge p = .straight a b := by
  rw [edge, hstart, hfinish]

theorem Segment.edge_arc (hstart : p.vertex start = a) (hfinish : p.vertex finish = b)
    (hcenter : p.vertex center = c) (sense : Sense) :
    (Segment.arc start finish center sense).edge p = .arc a b c sense := by
  rw [edge, hstart, hfinish, hcenter]

end

namespace Path

noncomputable def edges (p : Path ℝ) : List Edge := p.segments.map (Segment.edge p)

/-- Adding vertices and one segment adds the edge of that segment. -/
theorem edges_append {p q : Path ℝ} (hp : p.check = .ok ()) (h : p.vertices <+: q.vertices)
    {s : Segment} (hq : q.segments = p.segments ++ [s]) : q.edges = p.edges ++ [s.edge q] := by
  have hold : ∀ t ∈ p.segments, t.edge q = t.edge p := by
    intro t ht
    have hrefers := Path.check_eq_ok.mp hp t ht
    cases t with
    | straight start finish =>
      rw [Segment.edge, Segment.edge, vertex_of_prefix h hrefers.1, vertex_of_prefix h hrefers.2]
    | arc start finish center sense =>
      obtain ⟨hs, hf, hc⟩ := hrefers
      rw [Segment.edge, Segment.edge, vertex_of_prefix h hs, vertex_of_prefix h hf,
        vertex_of_prefix h hc]
  rw [edges, hq, List.map_append, List.map_congr_left hold]
  rfl

end Path

namespace Vec
variable (a : Vec ℝ)

/-- A quarter turn, to the left if an angle is positive, else to the right. -/
noncomputable def aside (angle : ℝ) : Vec ℝ :=
  if 0 < angle then ⟨-a.y, a.x, a.z⟩ else ⟨a.y, -a.x, a.z⟩

theorem aside_eq (angle : ℝ) :
    a.aside angle = a.turned (if 0 < angle then quarterTurn else -quarterTurn) := by
  unfold aside
  split_ifs
  · exact (turned_quarterTurn a).symm
  · exact (turned_neg_quarterTurn a).symm

end Vec

/-- What a cursor draws, with points for vertices. -/
structure Pen where
  first : Vec ℝ
  position : Vec ℝ
  heading : Vec ℝ
  edges : List Edge

namespace Pen
noncomputable section

def new (start : Vec ℝ) : Pen := ⟨start, start, .unitX, []⟩

open Classical in
def lineTo (p : Pen) (target : Vec ℝ) : Pen :=
  if target = p.position then p
  else ⟨p.first, target, (target - p.position).normalize,
    p.edges ++ [.straight p.position target]⟩

/-- The center of a turn. -/
def center (p : Pen) (angle radius : ℝ) : Vec ℝ :=
  p.position + (p.heading.scale radius).aside angle

/-- Where a turn leads to: as far from its center as it starts, and without a radius nowhere. -/
def finish (p : Pen) (angle radius : ℝ) : Vec ℝ :=
  p.center angle radius - ((p.heading.scale radius).aside angle).turned angle

def turn (p : Pen) (angle radius : ℝ) (corner : Corner) : Pen :=
  ⟨p.first, p.finish angle radius, p.heading.turned angle, p.edges ++
    if radius = 0 then []
    else [corner.edge p.position (p.finish angle radius) (p.center angle radius)
      (.ofAngle angle)]⟩

def lineToCorner (p : Pen) (corner : Vec ℝ) (angle radius : ℝ) : Pen :=
  let forward := corner - p.position
  p.lineTo (corner - forward.normalize.scale (Cursor.tangentLength angle radius forward.norm))

def close (p : Pen) : Pen := p.lineTo p.first

def draw (p : Pen) : Move ℝ → Pen
  | .lineTo target => p.lineTo target
  | .turn angle radius corner => p.turn angle radius corner
  | .lineToCorner corner angle radius => p.lineToCorner corner angle radius
  | .close => p.close

end
end Pen

namespace Cursor
variable {b : Cursor ℝ}

/-- The pen of a cursor. -/
noncomputable def pen (b : Cursor ℝ) : Pen := ⟨b.first, b.position, b.heading, b.path.edges⟩

theorem first_vertex (b : Cursor ℝ) (p : Vec ℝ) : (b.vertex p).2.first = b.first := by
  unfold vertex
  cases b.place? p <;> rfl

theorem pen_lineTo (h : b.Sound) (target : Vec ℝ) :
    (b.lineTo target).pen = b.pen.lineTo target := by
  unfold lineTo Pen.lineTo
  by_cases hthere : target = b.position
  · rw [if_pos ((Vec.beq_eq_true _ _).mpr hthere)]
    exact (if_pos hthere).symm
  · have hposition := position_append_vertex h target
      (s := .straight b.current (b.vertex target).1) rfl
    obtain ⟨hgrown, hsegments, -⟩ := b.vertex_spec target
    have hstart : (b.vertex target).2.path.vertex b.current = b.position := by
      rw [Path.vertex_of_prefix (p := b.path) (q := (b.vertex target).2.path) hgrown h.current,
        vertex_current h]
    have hedges := Path.edges_append (p := b.path)
      (q := ((b.vertex target).2.append (.straight b.current (b.vertex target).1)).path) h.check
      hgrown (congrArg (· ++ [_]) hsegments)
    rw [if_neg ((Vec.beq_eq_true _ _).not.mpr hthere)]
    refine Eq.trans ?_ (if_neg hthere).symm
    exact (Pen.mk.injEq ..).mpr ⟨first_vertex b target, hposition,
      congrArg (fun v => (v - b.position).normalize) hposition,
      hedges.trans (congrArg (_ ++ [·]) (Segment.edge_straight hstart (vertex_place h target)))⟩

theorem pen_turn (h : b.Sound) (angle radius : ℝ) (corner : Corner) :
    (b.turn angle radius corner).pen = b.pen.turn angle radius corner := by
  by_cases hr : radius = 0
  · have hstay : b.pen.finish angle radius = b.position := by
      unfold Pen.finish Pen.center
      rw [hr, Vec.aside_eq]
      ext <;> simp [pen, Vec.turned]
    rw [turn_of_sharp (beq_iff_eq.mpr hr), Pen.turn, if_pos hr, hstay, List.append_nil]
    rfl
  · obtain ⟨hgrown, hstart, hcenter, hfinish⟩ := vertices_corner h (b.pen.center angle radius)
      (b.pen.finish angle radius)
    have hsegments := ((b.vertex (b.pen.center angle radius)).2.vertex_spec
      (b.pen.finish angle radius)).2.1.trans (b.vertex_spec (b.pen.center angle radius)).2.1
    have hedges (s : Segment) := Path.edges_append (p := b.path)
      (q := (((b.vertex (b.pen.center angle radius)).2.vertex
        (b.pen.finish angle radius)).2.append s).path) h.check hgrown
      (congrArg (· ++ [s]) hsegments)
    rw [turn_of_radius (beq_eq_false_iff_ne.mpr hr), ← Vec.aside_eq, Pen.turn, if_neg hr]
    refine (Pen.mk.injEq ..).mpr ⟨?_, ?_, rfl, (hedges _).trans (congrArg (_ ++ [·]) ?_)⟩
    · exact (first_vertex _ _).trans (first_vertex _ _)
    · refine position_append_vertex (h.vertex _) _ ?_
      cases corner <;> rfl
    · cases corner with
      | round => exact Segment.edge_arc hstart hfinish hcenter _
      | chamfer => exact Segment.edge_straight hstart hfinish

/-- Where there is no way to the corner, or none that the corner takes away, the whole way is taken
as well. -/
theorem lineToCorner_real (b : Cursor ℝ) (corner : Vec ℝ) (angle radius : ℝ) :
    b.lineToCorner corner angle radius = b.lineTo (corner - (corner - b.position).normalize.scale
      (tangentLength angle radius (corner - b.position).norm)) := by
  unfold lineToCorner
  dsimp only
  split_ifs with hnone
  · refine congrArg b.lineTo ?_
    simp only [Bool.or_eq_true, beq_real, decide_eq_true_eq] at hnone
    rcases hnone with hlength | hnorm
    · rw [hlength]
      ext <;> simp
    · have hzero := Vec.norm_eq_zero.mp hnorm
      unfold Vec.normalize
      rw [if_pos (by simpa using hnorm), hzero]
      ext <;> simp [Vec.zero]
  · rfl

theorem pen_lineToCorner (h : b.Sound) (corner : Vec ℝ) (angle radius : ℝ) :
    (b.lineToCorner corner angle radius).pen = b.pen.lineToCorner corner angle radius := by
  rw [lineToCorner_real]
  exact pen_lineTo h _

theorem pen_draw (h : b.Sound) (move : Move ℝ) : (b.draw move).pen = b.pen.draw move := by
  cases move with
  | lineTo target => exact pen_lineTo h target
  | turn angle radius corner => exact pen_turn h angle radius corner
  | lineToCorner corner angle radius => exact pen_lineToCorner h corner angle radius
  | close => exact pen_lineTo h b.first

/-- A pen draws what a cursor does. -/
theorem pen_drawn (start : Vec ℝ) (moves : List (Move ℝ)) :
    (drawn start moves).pen = moves.foldl Pen.draw (.new start) := by
  induction moves using List.reverseRecOn with
  | nil => rfl
  | append_singleton moves move ih =>
    rw [drawn_append, List.foldl_append, ← ih]
    exact pen_draw (sound_drawn start moves) move

end Cursor
end Toolpath
