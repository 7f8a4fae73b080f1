import Toolpath.Proofs.Outline.Drawn

/-!
The paths that cursors draw are well formed. They start at the first vertex, no vertex is there
twice, and straight runs lead somewhere else.
-/
namespace Toolpath
open Scalar
variable {α : Type} [Scalar α]

namespace Cursor
variable {b : Cursor α}

/-- The first segment starts at the first vertex, and so will one that is added to none. -/
structure Rooted (b : Cursor α) : Prop where
  first : ∀ s ∈ b.segments.head?, s.start = 0
  empty : b.segments = [] → b.current = 0

/-- No vertex is alike an earlier one. -/
def Distinct (b : Cursor α) : Prop := b.vertices.Pairwise fun v w => v.alike w = false

theorem rooted_drawn (start : Vec α) (moves : List (Move α)) : (drawn start moves).Rooted := by
  refine drawn_of_parts (fun b v h => ⟨h.first, h.empty⟩) (fun b p _ h => ?_)
    (fun b s hs h => ?_) ⟨by simp [new], fun _ => rfl⟩ moves
  · obtain ⟨-, hsegments, hcurrent⟩ := b.vertex_spec p
    constructor
    · rw [hsegments]
      exact h.first
    · rw [hsegments, hcurrent]
      exact h.empty
  · have hsegments : (b.append s).segments = b.segments ++ [s] := rfl
    refine ⟨?_, fun hnil => absurd (hsegments ▸ hnil) (by simp)⟩
    rw [hsegments]
    intro t ht
    cases hold : b.segments with
    | nil =>
      rw [hold] at ht
      obtain rfl : s = t := Option.some.inj ht
      exact hs.trans (h.empty hold)
    | cons u rest =>
      rw [hold] at ht
      exact h.first t (hold ▸ ht)

/-- A point is only added if the index has none that is alike. -/
theorem distinct_drawn (start : Vec α) (moves : List (Move α)) : (drawn start moves).Distinct := by
  refine drawn_of_parts (fun _ _ h => h) (fun b p hsound h => ?_) (fun _ _ _ h => h)
    (List.pairwise_singleton _ start) moves
  have hplace := hsound.place? p
  unfold Cursor.vertex
  cases hp : b.place? p with
  | some i => exact h
  | none =>
    rw [hplace, List.findIdx?_eq_none_iff] at hp
    refine List.pairwise_append.mpr ⟨h, List.pairwise_singleton _ _, fun v hv w hw => ?_⟩
    rw [List.mem_singleton.mp hw]
    exact hp v hv

/-- Each vertex is found at its own place. -/
theorem Distinct.place?_vertex (h : b.Distinct) (hsound : b.Sound) {i : Nat} {v : Vec α}
    (hv : b.vertices[i]? = some v) : b.place? v = some i := by
  obtain ⟨hi, rfl⟩ := List.getElem?_eq_some_iff.mp hv
  rw [hsound.place?, List.findIdx?_eq_some_iff_getElem]
  refine ⟨hi, Vec.alike_refl _, fun j hj => ?_⟩
  rw [List.pairwise_iff_getElem.mp h j i (hj.trans hi) hi hj]
  exact Bool.false_ne_true

/-- Vertices stay where they are. -/
theorem vertices_prefix_draw (h : b.Sound) (move : Move α) :
    b.vertices <+: (b.draw move).vertices := by
  refine draw_of_parts (P := fun b' => b.vertices <+: b'.vertices) (fun _ _ h => h)
    (fun b' p _ h => ?_) (fun _ _ _ h => h) h List.prefix_rfl move
  exact h.trans (b'.vertex_spec p).1

theorem vertices_prefix_drawn (start : Vec α) (moves more : List (Move α)) :
    (drawn start moves).vertices <+: (drawn start (moves ++ more)).vertices := by
  induction more using List.reverseRecOn with
  | nil => rw [List.append_nil]
  | append_singleton more move ih =>
    rw [← List.append_assoc, drawn_append start (moves ++ more)]
    exact ih.trans (vertices_prefix_draw (sound_drawn start (moves ++ more)) move)

theorem first_drawn (start : Vec α) (moves : List (Move α)) : (drawn start moves).first = start :=
  (List.cons_prefix_cons.mp (vertices_prefix_drawn start [] moves)).1.symm

theorem lineTo_of_beq {p : Vec α} (h : (p == b.position) = true) : b.lineTo p = b := by
  unfold lineTo
  rw [if_pos h]

theorem lineTo_of_ne {p : Vec α} (h : (p == b.position) = false) : ∃ heading,
    b.lineTo p =
      { (b.vertex p).2.append (.straight b.current (b.vertex p).1) with heading := heading } := by
  unfold lineTo
  rw [if_neg (Bool.eq_false_iff.mp h)]
  exact ⟨_, rfl⟩

/-- A path with a segment starts at the first vertex. -/
theorem start?_drawn {start : Vec α} {moves : List (Move α)}
    (hne : (drawn start moves).segments ≠ []) :
    (drawn start moves).path.start? = some (drawn start moves).first := by
  obtain ⟨s, hs⟩ := Option.isSome_iff_exists.mp (List.isSome_head?.mpr hne)
  have hzero := (rooted_drawn start moves).first s hs
  rw [Path.start?]
  change (drawn start moves).segments.head? >>= _ = _
  rw [hs, Option.bind_eq_bind, Option.bind_some, hzero]
  rfl

/-- A path with a segment ends where the cursor is. -/
theorem finish?_drawn {start : Vec α} {moves : List (Move α)}
    (hne : (drawn start moves).segments ≠ []) :
    (drawn start moves).path.finish? = some (drawn start moves).position := by
  obtain ⟨s, hs⟩ := Option.isSome_iff_exists.mp (List.getLast?_isSome.mpr hne)
  have hcurrent := (linked_drawn start moves).last s hs
  rw [Path.finish?]
  change (drawn start moves).segments.getLast? >>= _ = _
  rw [hs, Option.bind_eq_bind, Option.bind_some, hcurrent]
  exact (sound_drawn start moves).getElem?_current

theorem isClosed_drawn {start : Vec α} {moves : List (Move α)}
    (hne : (drawn start moves).segments ≠ []) :
    (drawn start moves).path.isClosed =
      ((drawn start moves).first == (drawn start moves).position) := by
  rw [Path.isClosed, start?_drawn hne, finish?_drawn hne]

section
variable [PartialEquivBEq α]

/-- A straight run leads from where the cursor is to another vertex. -/
theorem Sound.segments_lineTo (h : b.Sound) (hnan : b.position.isNaN = false) (p : Vec α) :
    ∃ added, (b.lineTo p).segments = b.segments ++ added ∧ ∀ s ∈ added, s.start ≠ s.finish := by
  cases hp : p == b.position with
  | true =>
    refine ⟨[], ?_, nofun⟩
    rw [lineTo_of_beq hp, List.append_nil]
  | false =>
    obtain ⟨heading, hline⟩ := lineTo_of_ne hp
    obtain ⟨hgrown, hsegments, -⟩ := b.vertex_spec p
    refine ⟨[.straight b.current (b.vertex p).1], ?_, fun s hs hloop => ?_⟩
    · rw [hline]
      exact congrArg (· ++ _) hsegments
    obtain rfl := List.mem_singleton.mp hs
    obtain ⟨q, hq, halike⟩ := h.vertex_alike p
    obtain ⟨rest, hrest⟩ := hgrown
    have hcurrent : (b.vertex p).2.vertices[b.current]? = some b.position := by
      rw [← hrest, List.getElem?_append_left h.current]
      exact h.getElem?_current
    -- The end is alike the target, so the cursor would have been there already.
    have hthere : b.current = (b.vertex p).1 := hloop
    rw [← hthere, hcurrent] at hq
    obtain rfl := Option.some.inj hq
    have hbeq := Vec.beq_symm (Vec.beq_of_alike halike hnan)
    rw [hp] at hbeq
    cases hbeq

/-- A straight run leads to where it was told to. -/
theorem Sound.beq_position_lineTo (h : b.Sound) {p : Vec α} (hnan : p.isNaN = false) :
    (p == (b.lineTo p).position) = true := by
  cases hp : p == b.position with
  | true => rw [lineTo_of_beq hp, hp]
  | false =>
    have hposition := (h.lineTo p).getElem?_current
    obtain ⟨heading, hline⟩ := lineTo_of_ne hp
    obtain ⟨q, hq, halike⟩ := h.vertex_alike p
    have hthere : some q = some (b.lineTo p).position := by
      rw [← hq, ← hposition, hline]
      rfl
    rw [← Option.some.inj hthere]
    exact Vec.beq_of_alike (Vec.alike_symm halike) hnan

theorem Sound.lineTo_lineTo (h : b.Sound) {p : Vec α} (hnan : p.isNaN = false) :
    (b.lineTo p).lineTo p = b.lineTo p := lineTo_of_beq (h.beq_position_lineTo hnan)

/-- A path with a segment is closed after the way back. -/
theorem isClosed_close {start : Vec α} {moves : List (Move α)}
    (hnan : (drawn start moves).first.isNaN = false)
    (hne : (drawn start moves).close.segments ≠ []) :
    (drawn start moves).close.path.isClosed = true := by
  have hclose : (drawn start moves).close = drawn start (moves ++ [.close]) := by
    rw [drawn_append]
    rfl
  have hvertices := vertices_prefix_drawn start moves [.close]
  obtain ⟨hfirst, -⟩ := List.cons_prefix_cons.mp hvertices
  rw [hclose] at hne
  have hback := (sound_drawn start moves).beq_position_lineTo hnan
  rw [hclose, isClosed_drawn hne, ← hfirst, ← hclose]
  exact hback

end

/-- Segments run on from the first vertex to where the cursor is. The vertices are all different,
and the index has each one at its place. -/
structure WellFormed (b : Cursor α) : Prop where
  check : b.path.check = .ok ()
  first : ∀ s ∈ b.segments.head?, s.start = 0
  chain : b.segments.IsChain fun s t => s.finish = t.start
  last : ∀ s ∈ b.segments.getLast?, s.finish = b.current
  distinct : b.vertices.Pairwise fun v w => (v == w) = false
  place : ∀ (i : Nat) (v : Vec α), b.vertices[i]? = some v → b.place? v = some i

/-- Cursors keep their paths well formed. If all coordinates are numbers, then no move but a turn
adds a segment that ends where it starts, the second of two equal straight runs does nothing, and
the way back closes the path. -/
theorem wellFormed_drawn [PartialEquivBEq α] {start : Vec α} {moves : List (Move α)}
    (hnan : ∀ v ∈ (drawn start moves).vertices, v.isNaN = false) :
    (drawn start moves).WellFormed ∧
    (∀ before move after, moves = before ++ move :: after →
      (∀ angle radius corner, move ≠ .turn angle radius corner) →
      ∃ added, ((drawn start before).draw move).segments = (drawn start before).segments ++ added ∧
        ∀ s ∈ added, s.start ≠ s.finish) ∧
    (∀ p : Vec α, p.isNaN = false →
      ((drawn start moves).lineTo p).lineTo p = (drawn start moves).lineTo p) ∧
    ((drawn start moves).close.segments ≠ [] →
      (drawn start moves).close.path.isClosed = true) := by
  have hsound := sound_drawn start moves
  have hdistinct := distinct_drawn start moves
  refine ⟨⟨hsound.check, (rooted_drawn start moves).first, (linked_drawn start moves).chain,
    (linked_drawn start moves).last, ?_, fun i v => hdistinct.place?_vertex hsound⟩,
    fun before move after hmoves hturn => ?_, fun p hp => hsound.lineTo_lineTo hp,
    isClosed_close (hnan _ List.mem_cons_self)⟩
  · refine hdistinct.imp fun {v w} hvw => Bool.eq_false_iff.mpr fun hbeq => ?_
    rw [Vec.alike_of_beq hbeq] at hvw
    cases hvw
  · have hbefore := sound_drawn start before
    have hposition : (drawn start before).position.isNaN = false := by
      have hgrown := vertices_prefix_drawn start before (move :: after)
      rw [← hmoves] at hgrown
      exact hnan _ (hgrown.subset (List.mem_of_getElem? hbefore.getElem?_current))
    cases move with
    | lineTo target => exact hbefore.segments_lineTo hposition target
    | turn angle radius corner => exact absurd rfl (hturn angle radius corner)
    | lineToCorner corner angle radius =>
      obtain ⟨target, htarget⟩ := (drawn start before).lineToCorner_eq corner angle radius
      rw [draw, htarget]
      exact hbefore.segments_lineTo hposition target
    | close => exact hbefore.segments_lineTo hposition (drawn start before).first

/-- A sharp turn between two sides of a triangle, and back to the start but for the sign of a
zero. -/
theorem wellFormed_drawn_triangle :
    let start : Vec Float := ⟨0, 0, 0⟩
    let moves : List (Move Float) := [.lineTo ⟨2, 0, 0⟩, .turn quarterTurn 0 .round,
      .lineToCorner ⟨2, 3, 0⟩ quarterTurn 0, .lineTo ⟨-0, 0, 0⟩]
    (∀ v ∈ (drawn start moves).vertices, v.isNaN = false) ∧
    (drawn start moves).segments = [.straight 0 1, .straight 1 2, .straight 2 0] ∧
    (drawn start moves).WellFormed ∧ (drawn start moves).close.path.isClosed = true := by
  intro start moves
  have hnan : ∀ v ∈ (drawn start moves).vertices, v.isNaN = false := by decide +kernel
  have hsegments : (drawn start moves).segments =
      [.straight 0 1, .straight 1 2, .straight 2 0] := by
    decide +kernel
  have hclose : (drawn start moves).close.segments ≠ [] := by decide +kernel
  obtain ⟨hformed, -, -, hclosed⟩ := wellFormed_drawn hnan
  exact ⟨hnan, hsegments, hformed, hclosed hclose⟩

end Cursor
end Toolpath
