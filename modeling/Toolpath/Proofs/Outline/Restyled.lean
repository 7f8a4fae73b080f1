import Toolpath.Proofs.Outline.Drawn

/-! How corners are cut makes no difference to where an outline leads. With other corners it has the
same vertices, and its segments have the same ends. -/
namespace Toolpath
open Scalar

namespace Segment

/-- The straight segment between the same ends. -/
def chord (s : Segment) : Segment := .straight s.start s.finish

def isArc : Segment → Bool
  | .straight _ _ => false
  | .arc _ _ _ _ => true

end Segment

/-- The segment that cuts a corner. -/
def Corner.segment (start finish center : Nat) (sense : Sense) : Corner → Segment
  | .round => .arc start finish center sense
  | .chamfer => .straight start finish

variable {α : Type}

namespace Move

/-- The move with another kind of corner, if it is a turn. -/
def withCorner (c : Corner → Corner) : Move α → Move α
  | .turn angle radius corner => .turn angle radius (c corner)
  | .lineTo target => .lineTo target
  | .lineToCorner corner angle radius => .lineToCorner corner angle radius
  | .close => .close

def chamfered (move : Move α) : Move α := move.withCorner fun _ => .chamfer

theorem withCorner_id (move : Move α) : move.withCorner id = move := by
  cases move <;> rfl

/-- Moves that differ only in how corners are cut are turns. -/
theorem turns_of_chamfered {move move' : Move α} (h : move.chamfered = move'.chamfered)
    (hne : move' ≠ move) : ∃ angle radius corner corner',
      move = .turn angle radius corner ∧ move' = .turn angle radius corner' := by
  cases move with
  | turn angle radius corner =>
    cases move' with
    | turn angle' radius' corner' =>
      obtain ⟨rfl, rfl, -⟩ := Move.turn.inj h
      exact ⟨angle, radius, corner, corner', rfl, rfl⟩
    | _ => cases h
  | _ =>
    cases move' with
    | turn _ _ _ => cases h
    | _ => exact absurd h.symm hne

end Move

namespace Cursor

/-- The cursor with other segments in place of its own, behind some more. -/
def relabelled (b : Cursor α) (before : List Segment) (f : Segment → Segment) : Cursor α :=
  { b with segments := before ++ b.segments.map f }

variable (before : List Segment) (f : Segment → Segment)

theorem relabelled_append (b : Cursor α) {s : Segment} (h : (f s).finish = s.finish) :
    (b.append s).relabelled before f = (b.relabelled before f).append (f s) := by
  unfold relabelled append
  rw [h, List.map_append, ← List.append_assoc]
  rfl

variable [Scalar α]

theorem relabelled_vertex (b : Cursor α) (p : Vec α) : (b.relabelled before f).vertex p =
    ((b.vertex p).1, (b.vertex p).2.relabelled before f) := by
  have hplace : (b.relabelled before f).place? p = b.place? p := rfl
  unfold vertex
  rw [hplace]
  cases b.place? p <;> rfl

theorem relabelled_lineTo (h : ∀ i j, f (.straight i j) = .straight i j) (b : Cursor α)
    (target : Vec α) :
    (b.lineTo target).relabelled before f = (b.relabelled before f).lineTo target := by
  have hposition : (b.relabelled before f).position = b.position := rfl
  have happend := (b.vertex target).2.relabelled_append before f
    (s := .straight b.current (b.vertex target).1) (congrArg Segment.finish (h _ _))
  rw [h] at happend
  unfold lineTo
  rw [hposition, relabelled_vertex]
  split_ifs
  · rfl
  · have hheading := congrArg (fun c : Cursor α =>
      { c with heading := (c.position - b.position).normalize }) happend
    refine Eq.trans ?_ hheading
    rfl

theorem cutCorner_eq (b : Cursor α) (toCenter : Vec α) (angle : α) (corner : Corner) :
    b.cutCorner toCenter angle corner =
      ((b.vertex (b.position + toCenter)).2.vertex
        (b.position + toCenter - toCenter.turned angle)).2.append
          (corner.segment b.current ((b.vertex (b.position + toCenter)).2.vertex
            (b.position + toCenter - toCenter.turned angle)).1 (b.vertex (b.position + toCenter)).1
            (.ofAngle angle)) := by
  cases corner <;> rfl

theorem relabelled_turn {corner corner' : Corner}
    (h : ∀ i j k sense, f (corner.segment i j k sense) = corner'.segment i j k sense)
    (b : Cursor α) (angle radius : α) :
    (b.turn angle radius corner).relabelled before f =
      (b.relabelled before f).turn angle radius corner' := by
  have hfinish (i j k sense) : (f (corner.segment i j k sense)).finish =
      (corner.segment i j k sense).finish := by
    rw [h]
    cases corner <;> cases corner' <;> rfl
  have hposition : (b.relabelled before f).position = b.position := rfl
  cases hr : radius == 0 with
  | true =>
    rw [turn_of_sharp hr, turn_of_sharp hr]
    rfl
  | false =>
    rw [turn_of_radius hr, turn_of_radius hr, cutCorner_eq, cutCorner_eq, hposition,
      relabelled_vertex, relabelled_vertex, ← h]
    exact congrArg (fun c => { c with heading := b.heading.turned angle })
      (relabelled_append before f _ (hfinish _ _ _ _))

theorem relabelled_lineToCorner (h : ∀ i j, f (.straight i j) = .straight i j) (b : Cursor α)
    (corner : Vec α) (angle radius : α) :
    (b.lineToCorner corner angle radius).relabelled before f =
      (b.relabelled before f).lineToCorner corner angle radius := by
  have hposition : (b.relabelled before f).position = b.position := rfl
  unfold lineToCorner
  rw [hposition]
  dsimp only
  split_ifs
  · exact relabelled_lineTo before f h b _
  · exact relabelled_lineTo before f h b _

/-- Where other corners give other segments, a move and the change of segments can change places. -/
theorem relabelled_draw (h : ∀ i j, f (.straight i j) = .straight i j) (c : Corner → Corner)
    (hc : ∀ (corner : Corner) i j k sense,
      f (corner.segment i j k sense) = (c corner).segment i j k sense)
    (b : Cursor α) (move : Move α) :
    (b.draw move).relabelled before f = (b.relabelled before f).draw (move.withCorner c) := by
  cases move with
  | lineTo target => exact relabelled_lineTo before f h b target
  | turn angle radius corner => exact relabelled_turn before f (hc corner) b angle radius
  | lineToCorner corner angle radius =>
    exact relabelled_lineToCorner before f h b corner angle radius
  | close => exact relabelled_lineTo before f h b b.first

/-- The cursor with chords for segments. -/
def chamfered (b : Cursor α) : Cursor α := b.relabelled [] Segment.chord

theorem chamfered_draw (b : Cursor α) (move : Move α) :
    (b.draw move).chamfered = b.chamfered.draw move.chamfered :=
  relabelled_draw [] Segment.chord (fun _ _ => rfl) (fun _ => .chamfer)
    (fun corner _ _ _ _ => by cases corner <;> rfl) b move

theorem chamfered_drawn (start : Vec α) (moves : List (Move α)) :
    (drawn start moves).chamfered = drawn start (moves.map Move.chamfered) := by
  induction moves using List.reverseRecOn with
  | nil => rfl
  | append_singleton moves move ih =>
    rw [List.map_append, drawn_append, drawn_append, ← ih]
    exact chamfered_draw _ move

/-- The segments that a move adds. -/
def added (b : Cursor α) (move : Move α) : List Segment :=
  (draw { b with segments := [] } move).segments

theorem segments_draw (b : Cursor α) (move : Move α) :
    (b.draw move).segments = b.segments ++ b.added move := by
  have hbehind := relabelled_draw b.segments id (fun _ _ => rfl) id (fun _ _ _ _ _ => rfl)
    { b with segments := [] } move
  have hself : relabelled { b with segments := [] } b.segments id = b := by
    rw [relabelled, List.map_nil, List.append_nil]
  rw [hself, Move.withCorner_id] at hbehind
  rw [← hbehind, relabelled, List.map_id]
  rfl

theorem added_congr {b b' : Cursor α} (h : b.chamfered = b'.chamfered) (move : Move α) :
    b.added move = b'.added move := by
  have hadded := congrArg (fun c : Cursor α => c.added move) h
  exact hadded

/-- Rounded corners add arcs, and chamfers do not. -/
theorem isArc_added (b : Cursor α) (angle radius : α) (corner : Corner) :
    ∀ s ∈ b.added (.turn angle radius corner), s.isArc = (corner == .round) := by
  intro s hs
  cases hr : radius == 0 with
  | true =>
    rw [added, draw, turn_of_sharp hr] at hs
    cases hs
  | false =>
    rw [added, draw, turn_of_radius hr, cutCorner_eq] at hs
    obtain hold | hnew := List.mem_append.mp hs
    · rw [(vertex_spec _ _).2.1, (vertex_spec _ _).2.1] at hold
      cases hold
    · rw [List.mem_singleton.mp hnew]
      cases corner <;> rfl

theorem map_chord_added {b b' : Cursor α} (h : b.chamfered = b'.chamfered) {move move' : Move α}
    (hmove : move.chamfered = move'.chamfered) :
    (b.added move).map Segment.chord = (b'.added move').map Segment.chord := by
  have hsegments {b : Cursor α} {move : Move α} :
      (b.added move).map Segment.chord = b.added move.chamfered :=
    congrArg Cursor.segments (chamfered_draw { b with segments := [] } move)
  rw [hsegments, hsegments, hmove]
  exact added_congr h _

/-- Moves that differ in the corner they cut add segments of different kinds. -/
theorem isArc_ne_isArc {move move' : Move α} (h : move.chamfered = move'.chamfered)
    (hne : move' ≠ move) (b b' : Cursor α) :
    ∀ s ∈ b.added move, ∀ s' ∈ b'.added move', s'.isArc ≠ s.isArc := by
  obtain ⟨angle, radius, corner, corner', rfl, rfl⟩ := Move.turns_of_chamfered h hne
  have hcorner : corner' ≠ corner := fun heq => hne (congrArg (Move.turn angle radius) heq)
  intro s hs s' hs'
  rw [isArc_added b angle radius corner s hs, isArc_added b' angle radius corner' s' hs']
  revert hcorner
  cases corner <;> cases corner' <;> decide

/-- If the corners of some turns are cut another way, the vertices stay, and so do the position and
the heading after each move, and both ends of each segment. Moves that stay add the segments that
they added. One that does not adds an arc for a chord, or a chord for an arc. -/
theorem drawn_restyled (start : Vec α) {moves moves' : List (Move α)}
    (h : moves.map Move.chamfered = moves'.map Move.chamfered) :
    (∀ n, let b := drawn start (moves.take n)
      let b' := drawn start (moves'.take n)
      b'.vertices = b.vertices ∧ b'.position = b.position ∧ b'.heading = b.heading ∧
        b'.segments.map Segment.chord = b.segments.map Segment.chord) ∧
    ∀ n move move', moves[n]? = some move → moves'[n]? = some move' → ∃ added added',
      (drawn start (moves.take (n + 1))).segments =
        (drawn start (moves.take n)).segments ++ added ∧
      (drawn start (moves'.take (n + 1))).segments =
        (drawn start (moves'.take n)).segments ++ added' ∧
      added'.map Segment.chord = added.map Segment.chord ∧
      (move' = move → added' = added) ∧
      (move' ≠ move → ∀ s ∈ added, ∀ s' ∈ added', s'.isArc ≠ s.isArc) := by
  have hchamfered (n : Nat) :
      (drawn start (moves.take n)).chamfered = (drawn start (moves'.take n)).chamfered := by
    rw [chamfered_drawn, chamfered_drawn, List.map_take, List.map_take, h]
  constructor
  · intro n
    have hn := hchamfered n
    refine ⟨?_, ?_, ?_, ?_⟩
    · exact (congrArg vertices hn).symm
    · exact (congrArg position hn).symm
    · exact (congrArg heading hn).symm
    · exact (congrArg segments hn).symm
  · intro n move move' hmove hmove'
    have hstep {moves : List (Move α)} {move : Move α} (hmove : moves[n]? = some move) :
        (drawn start (moves.take (n + 1))).segments =
          (drawn start (moves.take n)).segments ++ (drawn start (moves.take n)).added move := by
      rw [List.take_add_one, hmove, drawn_append]
      exact segments_draw _ move
    have hsame : move.chamfered = move'.chamfered := by
      have hget := congrArg (fun l => l[n]?) h
      simp only [List.getElem?_map, hmove, hmove', Option.map_some, Option.some.injEq] at hget
      exact hget
    refine ⟨_, _, hstep hmove, hstep hmove', ?_, ?_, ?_⟩
    · exact (map_chord_added (hchamfered n) hsame).symm
    · intro heq
      rw [heq]
      exact (added_congr (hchamfered n) move).symm
    · intro hne
      exact isArc_ne_isArc hsame hne _ _

/-- A quarter turn and the run back, with the corner rounded and cut straight. -/
theorem drawn_restyled_corner :
    let moves : List (Move ℝ) := [.turn quarterTurn 1 .round, .close]
    let moves' : List (Move ℝ) := [.turn quarterTurn 1 .chamfer, .close]
    moves.map Move.chamfered = moves'.map Move.chamfered ∧
    (drawn .zero moves').vertices = (drawn .zero moves).vertices ∧
    (drawn .zero moves').segments.map Segment.chord =
      (drawn .zero moves).segments.map Segment.chord ∧
    ∃ added added', (drawn .zero (moves.take 1)).segments = added ∧
      (drawn .zero (moves'.take 1)).segments = added' ∧
      ∀ s ∈ added, ∀ s' ∈ added', s'.isArc ≠ s.isArc := by
  intro moves moves'
  have hcut : moves.map Move.chamfered = moves'.map Move.chamfered := rfl
  obtain ⟨hsame, hdiffer⟩ := drawn_restyled .zero hcut
  obtain ⟨hvertices, -, -, hchords⟩ := hsame 2
  obtain ⟨added, added', hadded, hadded', -, -, hkinds⟩ := hdiffer 0 _ _ rfl rfl
  refine ⟨hcut, hvertices, hchords, added, added', hadded, hadded', hkinds ?_⟩
  intro heq
  cases heq

end Cursor
end Toolpath
