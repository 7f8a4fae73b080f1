import Mathlib.Data.List.GetD
import Toolpath.Proofs.Outline.Circle
import Toolpath.Proofs.Program.Contour

/-! Outlines drawn by cursors, one move after another. Each segment starts where the one before it
ends, and both ends of an arc are equally far from its center, seen from above. -/
namespace Toolpath
open Scalar

/-- A move of a cursor. -/
inductive Move (α : Type) where
  | lineTo (target : Vec α)
  | turn (angle radius : α) (corner : Corner)
  | lineToCorner (corner : Vec α) (angle radius : α)
  | close

namespace Cursor
section
variable {α : Type} {b : Cursor α}

/-- Segments follow one another, and the cursor is at the end of the last one. -/
structure Linked (b : Cursor α) : Prop where
  chain : b.segments.IsChain fun s t => s.finish = t.start
  last : ∀ s ∈ b.segments.getLast?, s.finish = b.current

theorem Linked.append (h : b.Linked) {s : Segment} (hs : s.start = b.current) :
    (b.append s).Linked := by
  have hnew : (b.append s).segments = b.segments ++ [s] := rfl
  constructor
  · rw [hnew, List.isChain_append]
    refine ⟨h.chain, .singleton s, fun t ht u hu => ?_⟩
    obtain rfl : s = u := Option.some.inj hu
    exact (h.last t ht).trans hs.symm
  · rw [hnew, List.getLast?_concat]
    rintro t ⟨⟩
    rfl

variable [Scalar α]

def draw (b : Cursor α) : Move α → Cursor α
  | .lineTo target => b.lineTo target
  | .turn angle radius corner => b.turn angle radius corner
  | .lineToCorner corner angle radius => b.lineToCorner corner angle radius
  | .close => b.close

/-- The cursor after moves from a start, where it is heading along X. -/
def drawn (start : Vec α) (moves : List (Move α)) : Cursor α := moves.foldl draw (.new start)

/-- A run to a corner is a straight run, if a shorter one. -/
theorem lineToCorner_eq (b : Cursor α) (corner : Vec α) (angle radius : α) :
    ∃ target, b.lineToCorner corner angle radius = b.lineTo target := by
  unfold lineToCorner
  dsimp only
  split_ifs
  · exact ⟨_, rfl⟩
  · exact ⟨_, rfl⟩

theorem Sound.draw (h : b.Sound) (move : Move α) : (b.draw move).Sound := by
  cases move with
  | lineTo target => exact h.lineTo target
  | turn angle radius corner => exact h.turn angle radius corner
  | lineToCorner corner angle radius =>
    obtain ⟨target, htarget⟩ := b.lineToCorner_eq corner angle radius
    exact (congrArg Sound htarget).mpr (h.lineTo target)
  | close => exact h.close

/-- The vertex at the place of a point is alike. -/
theorem Sound.vertex_alike (h : b.Sound) (p : Vec α) :
    ∃ q, (b.vertex p).2.vertices[(b.vertex p).1]? = some q ∧ q.alike p = true := by
  have hplace := h.place? p
  unfold Cursor.vertex
  cases hp : b.place? p with
  | some i =>
    rw [hplace] at hp
    obtain ⟨hi, halike, -⟩ := List.findIdx?_eq_some_iff_getElem.mp hp
    exact ⟨_, List.getElem?_eq_getElem hi, halike⟩
  | none => exact ⟨p, List.getElem?_concat_length, Vec.alike_refl p⟩

/-- The cut of a corner about a center that is a given way off: from where the cursor is to where
that way, turned by an angle, leads back from the center. -/
def cutCorner (b : Cursor α) (toCenter : Vec α) (angle : α) (corner : Corner) : Cursor α :=
  let center := b.position + toCenter
  let b' := (b.vertex center).2
  let finish := (b'.vertex (center - toCenter.turned angle)).1
  (b'.vertex (center - toCenter.turned angle)).2.append (match corner with
    | .round => .arc b.current finish (b.vertex center).1 (.ofAngle angle)
    | .chamfer => .straight b.current finish)

theorem turn_of_sharp {radius : α} (h : (radius == 0) = true) (angle : α) (corner : Corner) :
    b.turn angle radius corner = { b with heading := b.heading.turned angle } := by
  unfold turn
  rw [if_pos h]

theorem turn_of_radius {radius : α} (h : (radius == 0) = false) (angle : α) (corner : Corner) :
    b.turn angle radius corner =
      { b.cutCorner ((b.heading.scale radius).turned
          (if 0 < angle then quarterTurn else -quarterTurn)) angle corner with
        heading := b.heading.turned angle } := by
  unfold turn
  rw [if_neg (Bool.eq_false_iff.mp h)]
  rfl

/-- What new headings and vertices keep, and segments from where the cursor is, every move keeps. -/
theorem draw_of_parts {P : Cursor α → Prop} (hheading : ∀ b v, P b → P { b with heading := v })
    (hvertex : ∀ b p, b.Sound → P b → P (b.vertex p).2)
    (happend : ∀ b s, s.start = b.current → P b → P (b.append s)) (hsound : b.Sound) (h : P b)
    (move : Move α) : P (b.draw move) := by
  have hcurrent (b : Cursor α) (p : Vec α) : (b.vertex p).2.current = b.current :=
    (b.vertex_spec p).2.2
  have hline (target : Vec α) : P (b.lineTo target) := by
    unfold Cursor.lineTo
    split_ifs
    · exact h
    · exact hheading _ _ (happend _ _ (hcurrent b target).symm (hvertex b target hsound h))
  cases move with
  | lineTo target => exact hline target
  | turn angle radius corner =>
    cases hr : radius == 0 with
    | true => exact (congrArg P (turn_of_sharp hr angle corner)).mpr (hheading _ _ h)
    | false =>
      refine (congrArg P (turn_of_radius hr angle corner)).mpr (hheading _ _ ?_)
      refine happend _ _ ?_ (hvertex _ _ (hsound.vertex _) (hvertex _ _ hsound h))
      rw [hcurrent, hcurrent]
      cases corner <;> rfl
  | lineToCorner corner angle radius =>
    obtain ⟨target, htarget⟩ := b.lineToCorner_eq corner angle radius
    exact (congrArg P htarget).mpr (hline target)
  | close => exact hline b.first

theorem drawn_append (start : Vec α) (moves more : List (Move α)) :
    drawn start (moves ++ more) = more.foldl draw (drawn start moves) := List.foldl_append

theorem sound_drawn (start : Vec α) (moves : List (Move α)) : (drawn start moves).Sound := by
  induction moves using List.reverseRecOn with
  | nil => exact sound_new start
  | append_singleton moves move ih =>
    rw [drawn_append]
    exact ih.draw move

/-- What every move keeps holds of what is drawn. -/
theorem drawn_of_parts {P : Cursor α → Prop} (hheading : ∀ b v, P b → P { b with heading := v })
    (hvertex : ∀ b p, b.Sound → P b → P (b.vertex p).2)
    (happend : ∀ b s, s.start = b.current → P b → P (b.append s)) {start : Vec α}
    (hstart : P (.new start)) (moves : List (Move α)) : P (drawn start moves) := by
  induction moves using List.reverseRecOn with
  | nil => exact hstart
  | append_singleton moves move ih =>
    rw [drawn_append]
    exact draw_of_parts hheading hvertex happend (sound_drawn start moves) ih move

theorem linked_drawn (start : Vec α) (moves : List (Move α)) : (drawn start moves).Linked := by
  refine drawn_of_parts (fun b v h => ⟨h.chain, h.last⟩) (fun b p _ h => ?_)
    (fun b s hs h => h.append hs) ⟨.nil, by simp [new]⟩ moves
  obtain ⟨-, hsegments, hcurrent⟩ := b.vertex_spec p
  constructor
  · rw [hsegments]
    exact h.chain
  · rw [hsegments, hcurrent]
    exact h.last

end
end Cursor

/-- All cosines and sines are those of a point on the unit circle, also the ones that are exact. -/
theorem unitAt_sq (angle : ℝ) : (unitAt angle).1 ^ 2 + (unitAt angle).2 ^ 2 = 1 := by
  unfold unitAt
  dsimp only
  split_ifs
  · split <;> norm_num
  · exact Real.cos_sq_add_sin_sq angle

namespace Vec

/-- Turning keeps the length in the XY plane. -/
theorem turned_sq (v : Vec ℝ) (angle : ℝ) :
    (v.turned angle).x ^ 2 + (v.turned angle).y ^ 2 = v.x ^ 2 + v.y ^ 2 := by
  have hunit := unitAt_sq angle
  unfold turned
  dsimp only
  linear_combination (v.x ^ 2 + v.y ^ 2) * hunit

end Vec

/-- How far the two ends of an arc are from its center, squared and seen from above. -/
noncomputable def Segment.reaches? (p : Path ℝ) : Segment → Option (ℝ × ℝ)
  | .straight _ _ => none
  | .arc start finish center _ =>
    some ((p.vertex start).reachSq (p.vertex center), (p.vertex finish).reachSq (p.vertex center))

theorem Segment.reaches?_arc {p : Path ℝ} {start finish center : Nat} {a b c : Vec ℝ}
    (hstart : p.vertex start = a) (hfinish : p.vertex finish = b) (hcenter : p.vertex center = c)
    (sense : Sense) : (Segment.arc start finish center sense).reaches? p =
      some (a.reachSq c, b.reachSq c) := by
  rw [reaches?, hstart, hfinish, hcenter]

namespace Path

/-- How far the ends of each arc are from its center, in order. -/
noncomputable def reaches (p : Path ℝ) : List (ℝ × ℝ) := p.segments.filterMap (Segment.reaches? p)

theorem vertex_of_prefix {p q : Path ℝ} (h : p.vertices <+: q.vertices) {index : Nat}
    (hi : index < p.vertices.length) : q.vertex index = p.vertex index := by
  obtain ⟨rest, hrest⟩ := h
  rw [vertex, vertex, ← hrest, List.getD_append _ _ _ _ hi]

/-- Adding vertices and one segment adds what that segment is to what there was. -/
theorem reaches_append {p q : Path ℝ} (hp : p.check = .ok ()) (h : p.vertices <+: q.vertices)
    {s : Segment} (hq : q.segments = p.segments ++ [s]) :
    q.reaches = p.reaches ++ (s.reaches? q).toList := by
  have hold : ∀ t ∈ p.segments, t.reaches? q = t.reaches? p := by
    intro t ht
    have hrefers := Path.check_eq_ok.mp hp t ht
    cases t with
    | straight start finish => rfl
    | arc start finish center sense =>
      obtain ⟨hs, hf, hc⟩ := hrefers
      rw [Segment.reaches?, Segment.reaches?, vertex_of_prefix h hs, vertex_of_prefix h hf,
        vertex_of_prefix h hc]
  rw [reaches, hq, List.filterMap_append, List.filterMap_congr hold, reaches]
  cases hs : s.reaches? q <;> simp [hs]

end Path

/-- How far from its center the arc of a move starts, squared and seen from above. -/
noncomputable def Move.reach? (heading : Vec ℝ) : Move ℝ → Option ℝ
  | .turn _ radius .round =>
    if radius = 0 then none else some (radius ^ 2 * (heading.x ^ 2 + heading.y ^ 2))
  | _ => none

namespace Cursor
variable {b : Cursor ℝ}

theorem vertex_place (h : b.Sound) (p : Vec ℝ) :
    (b.vertex p).2.path.vertex (b.vertex p).1 = p := by
  obtain ⟨q, hq, halike⟩ := h.vertex_alike p
  change (b.vertex p).2.vertices.getD (b.vertex p).1 .zero = p
  rw [List.getD_eq_getElem?_getD, hq, Option.getD_some]
  exact (Vec.alike_eq_true _ _).mp halike

theorem vertex_current (h : b.Sound) : b.path.vertex b.current = b.position := by
  change b.vertices.getD b.current .zero = b.position
  rw [List.getD_eq_getElem?_getD, h.getElem?_current, Option.getD_some]

/-- A segment to the vertex of a point leads to the point. -/
theorem position_append_vertex (h : b.Sound) (p : Vec ℝ) {s : Segment}
    (hs : s.finish = (b.vertex p).1) : ((b.vertex p).2.append s).position = p := by
  have hlt := h.vertex_lt p
  have hplace := vertex_place h p
  change (b.vertex p).2.vertices.getD s.finish _ = p
  rw [hs, List.getD_eq_getElem _ _ hlt]
  exact (List.getD_eq_getElem _ _ hlt).symm.trans hplace

/-- A straight run adds no arc. -/
theorem reaches_lineTo (h : b.Sound) (target : Vec ℝ) :
    (b.lineTo target).path.reaches = b.path.reaches := by
  unfold Cursor.lineTo
  split_ifs
  · rfl
  · obtain ⟨hgrown, hsegments, -⟩ := b.vertex_spec target
    have hreaches := Path.reaches_append (p := b.path)
      (q := ((b.vertex target).2.append (.straight b.current (b.vertex target).1)).path) h.check
      hgrown (s := .straight b.current (b.vertex target).1)
      (congrArg (· ++ [_]) hsegments)
    rw [Segment.reaches?, Option.toList_none, List.append_nil] at hreaches
    exact hreaches

/-- The three vertices of a corner: where the cursor is, the center, and the far end. -/
theorem vertices_corner (h : b.Sound) (center finish : Vec ℝ) :
    b.vertices <+: ((b.vertex center).2.vertex finish).2.vertices ∧
      ((b.vertex center).2.vertex finish).2.path.vertex b.current = b.position ∧
      ((b.vertex center).2.vertex finish).2.path.vertex (b.vertex center).1 = center ∧
      ((b.vertex center).2.vertex finish).2.path.vertex ((b.vertex center).2.vertex finish).1 =
        finish := by
  obtain ⟨hfirst, -⟩ := b.vertex_spec center
  obtain ⟨hsecond, -⟩ := (b.vertex center).2.vertex_spec finish
  refine ⟨hfirst.trans hsecond, ?_, ?_, vertex_place (h.vertex center) _⟩
  · rw [Path.vertex_of_prefix (p := b.path) (hfirst.trans hsecond) h.current, vertex_current h]
  · rw [Path.vertex_of_prefix (p := (b.vertex center).2.path)
      (q := ((b.vertex center).2.vertex finish).2.path) hsecond (h.vertex_lt center),
      vertex_place h]

/-- Both ends of a rounded corner are as far from its center as the way to it is long. -/
theorem reaches_cutCorner (h : b.Sound) (toCenter : Vec ℝ) (angle : ℝ) (corner : Corner) :
    (b.cutCorner toCenter angle corner).path.reaches = b.path.reaches ++ match corner with
      | .round => [(toCenter.x ^ 2 + toCenter.y ^ 2, toCenter.x ^ 2 + toCenter.y ^ 2)]
      | .chamfer => [] := by
  obtain ⟨hverts, hstart, hcenter, hfinish⟩ := vertices_corner h (b.position + toCenter)
    (b.position + toCenter - toCenter.turned angle)
  have hadded (s : Segment) := Path.reaches_append (p := b.path)
    (q := (((b.vertex (b.position + toCenter)).2.vertex
      (b.position + toCenter - toCenter.turned angle)).2.append s).path) h.check hverts
    (congrArg (· ++ [s]) (((b.vertex _).2.vertex_spec _).2.1.trans (b.vertex_spec _).2.1))
  have hnear : b.position.reachSq (b.position + toCenter) = toCenter.x ^ 2 + toCenter.y ^ 2 := by
    simp only [Vec.reachSq, Vec.sub_x, Vec.sub_y, Vec.add_x, Vec.add_y]
    ring
  have hfar : (b.position + toCenter - toCenter.turned angle).reachSq (b.position + toCenter) =
      toCenter.x ^ 2 + toCenter.y ^ 2 := by
    rw [← toCenter.turned_sq angle]
    simp only [Vec.reachSq, Vec.sub_x, Vec.sub_y]
    ring
  refine (hadded _).trans (congrArg (_ ++ ·) ?_)
  cases corner with
  | round =>
    refine (congrArg Option.toList
      (Segment.reaches?_arc hstart hfinish hcenter (.ofAngle angle))).trans ?_
    rw [hnear, hfar]
    rfl
  | chamfer => rfl

/-- The arc of a turn is as far from its center as the radius along the heading is long, seen from
above. -/
theorem reaches_turn (h : b.Sound) (angle radius : ℝ) (corner : Corner) :
    (b.turn angle radius corner).path.reaches = b.path.reaches ++
      ((Move.turn angle radius corner).reach? b.heading).toList.map fun r => (r, r) := by
  by_cases hr : radius = 0
  · rw [turn_of_sharp (beq_iff_eq.mpr hr)]
    have hnone : (Move.turn angle radius corner).reach? b.heading = none := by
      cases corner with
      | round => exact if_pos hr
      | chamfer => rfl
    rw [hnone]
    exact (List.append_nil _).symm
  · rw [turn_of_radius (beq_eq_false_iff_ne.mpr hr)]
    refine (reaches_cutCorner h _ angle corner).trans (congrArg (_ ++ ·) ?_)
    cases corner with
    | round =>
      have hsome : (Move.turn angle radius .round).reach? b.heading =
          some (radius ^ 2 * (b.heading.x ^ 2 + b.heading.y ^ 2)) := if_neg hr
      rw [hsome, Vec.turned_sq, Vec.scale_x, Vec.scale_y]
      have hlength : (b.heading.x * radius) ^ 2 + (b.heading.y * radius) ^ 2 =
          radius ^ 2 * (b.heading.x ^ 2 + b.heading.y ^ 2) := by ring
      rw [hlength]
      rfl
    | chamfer => rfl

/-- Each move adds its arc, whose ends are equally far from its center. -/
theorem reaches_draw (h : b.Sound) (move : Move ℝ) : (b.draw move).path.reaches =
    b.path.reaches ++ (move.reach? b.heading).toList.map fun r => (r, r) := by
  cases move with
  | lineTo target => exact (reaches_lineTo h target).trans (List.append_nil _).symm
  | turn angle radius corner => exact reaches_turn h angle radius corner
  | lineToCorner corner angle radius =>
    obtain ⟨target, htarget⟩ := b.lineToCorner_eq corner angle radius
    rw [draw, htarget]
    exact (reaches_lineTo h target).trans (List.append_nil _).symm
  | close => exact (reaches_lineTo h b.first).trans (List.append_nil _).symm

theorem reach?_eq_zero {heading : Vec ℝ} {move : Move ℝ} : move.reach? heading = some 0 ↔
    ∃ angle radius, move = .turn angle radius .round ∧ radius ≠ 0 ∧
      heading.x = 0 ∧ heading.y = 0 := by
  constructor
  · intro h
    unfold Move.reach? at h
    split at h
    case h_1 angle radius =>
      split_ifs at h with hr
      have hzero := (mul_eq_zero.mp (Option.some.inj h)).resolve_left (pow_ne_zero 2 hr)
      have hsq := (add_eq_zero_iff_of_nonneg (sq_nonneg _) (sq_nonneg _)).mp hzero
      exact ⟨angle, radius, rfl, hr, sq_eq_zero_iff.mp hsq.1, sq_eq_zero_iff.mp hsq.2⟩
    case h_2 => cases h
  · rintro ⟨angle, radius, rfl, hr, hx, hy⟩
    rw [Move.reach?, if_neg hr, hx, hy]
    simp

/-- Both ends of every arc of a drawn path are equally far from its center, seen from above. -/
theorem even_drawn (start : Vec ℝ) (moves : List (Move ℝ)) :
    ∀ r ∈ (drawn start moves).path.reaches, r.1 = r.2 := by
  induction moves using List.reverseRecOn with
  | nil => rintro r ⟨⟩
  | append_singleton moves move ih =>
    have hreaches := reaches_draw (sound_drawn start moves) move
    rw [drawn_append, List.foldl_cons, List.foldl_nil, hreaches]
    intro r hr
    obtain hold | hnew := List.mem_append.mp hr
    · exact ih r hold
    · obtain ⟨reach, -, rfl⟩ := List.mem_map.mp hnew
      rfl

end Cursor

namespace Path

/-- An arc starts straight over its center, or straight under it. -/
def Pinched (p : Path ℝ) : Prop := ∃ r ∈ p.reaches, r.1 = 0

/-- The path is what a cursor drew. -/
def IsDrawn (p : Path ℝ) : Prop := ∃ start moves, p = (Cursor.drawn start moves).path

end Path

/-- A drawn path is pinched where a corner is rounded after a run straight up or down. -/
theorem Cursor.pinched_drawn {start : Vec ℝ} (moves : List (Move ℝ)) :
    (drawn start moves).path.Pinched ↔ ∃ before angle radius after,
      moves = before ++ .turn angle radius .round :: after ∧ radius ≠ 0 ∧
        (drawn start before).heading.x = 0 ∧ (drawn start before).heading.y = 0 := by
  induction moves using List.reverseRecOn with
  | nil =>
    refine ⟨fun ⟨r, hr, _⟩ => absurd hr List.not_mem_nil, ?_⟩
    rintro ⟨before, angle, radius, after, h, -⟩
    simp at h
  | append_singleton moves move ih =>
    have hstep : (drawn start (moves ++ [move])).path.Pinched ↔
        (drawn start moves).path.Pinched ∨ move.reach? (drawn start moves).heading = some 0 := by
      rw [drawn_append, List.foldl_cons, List.foldl_nil]
      unfold Path.Pinched
      rw [reaches_draw (sound_drawn start moves)]
      simp [or_and_right, exists_or]
    rw [hstep, ih, reach?_eq_zero]
    constructor
    · rintro (⟨before, angle, radius, after, rfl, h⟩ | ⟨angle, radius, rfl, h⟩)
      · exact ⟨before, angle, radius, after ++ [move], by simp, h⟩
      · exact ⟨moves, angle, radius, [], rfl, h⟩
    · rintro ⟨before, angle, radius, after, happ, h⟩
      obtain rfl | ⟨after, last, rfl⟩ := List.eq_nil_or_concat' after
      · obtain ⟨rfl, hmove⟩ := List.append_inj' happ rfl
        exact .inr ⟨angle, radius, List.singleton_inj.mp hmove, h⟩
      · rw [← List.cons_append, ← List.append_assoc] at happ
        obtain ⟨rfl, -⟩ := List.append_inj' happ rfl
        exact .inl ⟨before, angle, radius, after, rfl, h⟩

end Toolpath
