import Toolpath.Outline.Shapes
import Toolpath.Proofs.Outcome
import Mathlib.Tactic.SplitIfs

/-! Segments that refer to vertices which exist. Cursors never add any other. -/
namespace Toolpath

namespace Segment

/-- All vertices of a segment are among the first `count`. -/
def Refers (count : Nat) : Segment → Prop
  | .straight start finish => start < count ∧ finish < count
  | .arc start finish center _ => start < count ∧ finish < count ∧ center < count

instance (count : Nat) (s : Segment) : Decidable (s.Refers count) :=
  match s with
  | .straight start finish => inferInstanceAs (Decidable (start < count ∧ finish < count))
  | .arc start finish center _ =>
    inferInstanceAs (Decidable (start < count ∧ finish < count ∧ center < count))

theorem Refers.start_lt {count : Nat} {s : Segment} (h : s.Refers count) : s.start < count := by
  cases s with
  | straight start finish => exact h.1
  | arc start finish center sense => exact h.1

theorem Refers.finish_lt {count : Nat} {s : Segment} (h : s.Refers count) : s.finish < count := by
  cases s with
  | straight start finish => exact h.2
  | arc start finish center sense => exact h.2.1

theorem Refers.mono {m n : Nat} {s : Segment} (h : s.Refers m) (hmn : m ≤ n) : s.Refers n := by
  cases s with
  | straight start finish =>
    obtain ⟨hs, hf⟩ := h
    constructor <;> omega
  | arc start finish center sense =>
    obtain ⟨hs, hf, hc⟩ := h
    refine ⟨?_, ?_, ?_⟩ <;> omega

end Segment

namespace Path
variable {α : Type}

theorem checkSegment_eq_ok {count index : Nat} {s : Segment} :
    checkSegment (α := α) count index s = .ok () ↔ s.Refers count := by
  unfold checkSegment
  cases s with
  | straight start finish =>
    show ite (count ≤ start) _ (ite (count ≤ finish) _ _) = _ ↔ start < count ∧ finish < count
    split_ifs <;> simp <;> omega
  | arc start finish center sense =>
    show ite (count ≤ start) _ (ite (count ≤ finish) _ (ite (count ≤ center) _ _)) = _ ↔
      start < count ∧ finish < count ∧ center < count
    split_ifs <;> simp <;> omega

theorem checkSegments_eq_ok {count : Nat} (index : Nat) (l : List Segment) :
    checkSegments (α := α) count index l = .ok () ↔ ∀ s ∈ l, s.Refers count := by
  induction l generalizing index with
  | nil => simp [checkSegments]
  | cons s rest ih =>
    rw [checkSegments, List.forall_mem_cons, ← ih (index + 1), ← checkSegment_eq_ok (α := α)]
    constructor
    · intro h
      obtain ⟨_, hs, hr⟩ := exists_of_bind_eq_ok h
      exact ⟨hs, hr⟩
    · rintro ⟨hs, hr⟩
      rw [hs]
      exact hr

/-- A path passes its check exactly when all its segments refer to its vertices. -/
theorem check_eq_ok {p : Path α} :
    p.check = .ok () ↔ ∀ s ∈ p.segments, s.Refers p.vertices.length := checkSegments_eq_ok 0 _

end Path

namespace Cursor
variable {α : Type}

/-- The cursor is at a vertex that exists, and so is every vertex of a segment. The index has each
vertex at its place. -/
structure Sound (b : Cursor α) : Prop where
  current : b.current < b.vertices.length
  segments : ∀ s ∈ b.segments, s.Refers b.vertices.length
  index : b.index = b.vertices.zipIdx

theorem Sound.append {b : Cursor α} (h : b.Sound) {s : Segment}
    (hs : s.Refers b.vertices.length) : (b.append s).Sound := by
  refine ⟨hs.finish_lt, fun t ht => ?_, h.index⟩
  rcases List.mem_append.mp ht with ht | ht
  · exact h.segments t ht
  · exact List.mem_singleton.mp ht ▸ hs

theorem Sound.withHeading {b : Cursor α} (h : b.Sound) (v : Vec α) :
    { b with heading := v }.Sound := ⟨h.current, h.segments, h.index⟩

theorem Sound.check {b : Cursor α} (h : b.Sound) : b.path.check = .ok () :=
  Path.check_eq_ok.mpr h.segments

theorem Sound.getElem?_current {b : Cursor α} (h : b.Sound) :
    b.vertices[b.current]? = some b.position := by
  rw [position, List.getD_eq_getElem?_getD, List.getElem?_eq_getElem h.current, Option.getD_some]

variable [Scalar α]

theorem sound_new (start : Vec α) : (Cursor.new start).Sound :=
  ⟨Nat.one_pos, by simp [Cursor.new], rfl⟩

/-- What is looked up in the index is the first vertex that is alike. -/
theorem Sound.place? {b : Cursor α} (h : b.Sound) (p : Vec α) :
    b.place? p = b.vertices.findIdx? (·.alike p) := by
  rw [Cursor.place?, h.index, List.findIdx?_eq_fst_find?_zipIdx]

/-- A vertex is found or added. Either way the others stay where they are. -/
theorem vertex_spec (b : Cursor α) (p : Vec α) :
    b.vertices <+: (b.vertex p).2.vertices ∧
      (b.vertex p).2.segments = b.segments ∧ (b.vertex p).2.current = b.current := by
  unfold vertex
  cases b.place? p with
  | some i => exact ⟨List.prefix_rfl, rfl, rfl⟩
  | none => exact ⟨⟨[p], rfl⟩, rfl, rfl⟩

theorem Sound.vertex_lt {b : Cursor α} (h : b.Sound) (p : Vec α) :
    (b.vertex p).1 < (b.vertex p).2.vertices.length := by
  have hplace := h.place? p
  unfold Cursor.vertex
  cases hp : b.place? p with
  | some i =>
    rw [hplace] at hp
    exact (List.findIdx?_eq_some_iff_getElem.mp hp).1
  | none =>
    change b.vertices.length < (b.vertices ++ [p]).length
    rw [List.length_append]
    exact Nat.lt_succ_self _

theorem Sound.vertex {b : Cursor α} (h : b.Sound) (p : Vec α) : (b.vertex p).2.Sound := by
  obtain ⟨hgrown, hs, hc⟩ := b.vertex_spec p
  constructor
  · rw [hc]
    exact Nat.lt_of_lt_of_le h.current hgrown.length_le
  · intro s hmem
    rw [hs] at hmem
    exact (h.segments s hmem).mono hgrown.length_le
  · have hadded : b.index ++ [(p, b.vertices.length)] = (b.vertices ++ [p]).zipIdx := by
      rw [h.index, List.zipIdx_append, Nat.zero_add]
      rfl
    unfold Cursor.vertex
    cases b.place? p with
    | some i => exact h.index
    | none => exact hadded

theorem Sound.lineTo {b : Cursor α} (h : b.Sound) (target : Vec α) : (b.lineTo target).Sound := by
  obtain ⟨hgrown, -⟩ := b.vertex_spec target
  unfold Cursor.lineTo
  split_ifs
  · exact h
  · have hs : (Segment.straight b.current (b.vertex target).1).Refers
        (b.vertex target).2.vertices.length :=
      ⟨Nat.lt_of_lt_of_le h.current hgrown.length_le, h.vertex_lt target⟩
    exact ((h.vertex target).append hs).withHeading _

theorem Sound.corner {b : Cursor α} (h : b.Sound) (center finish : Vec α) (corner : Corner)
    (sense : Sense) :
    (((b.vertex center).2.vertex finish).2.append (match corner with
      | .round => .arc b.current ((b.vertex center).2.vertex finish).1 (b.vertex center).1 sense
      | .chamfer => .straight b.current ((b.vertex center).2.vertex finish).1)).Sound := by
  have hc := h.vertex_lt center
  have hf := (h.vertex center).vertex_lt finish
  have hle := (b.vertex_spec center).1.length_le
  have hle' := ((b.vertex center).2.vertex_spec finish).1.length_le
  have hcur := h.current
  apply ((h.vertex center).vertex finish).append
  cases corner with
  | round => refine ⟨?_, ?_, ?_⟩ <;> omega
  | chamfer => constructor <;> omega

theorem Sound.turn {b : Cursor α} (h : b.Sound) (angle radius : α) (corner : Corner) :
    (b.turn angle radius corner).Sound := by
  unfold Cursor.turn
  refine Sound.withHeading ?_ _
  by_cases hr : radius == 0
  · rw [if_pos hr]
    exact h
  · rw [if_neg hr]
    exact h.corner _ _ corner _

theorem Sound.close {b : Cursor α} (h : b.Sound) : b.close.Sound := h.lineTo _

end Cursor

/-- A circle refers to vertices that it has, whatever its radius is. -/
theorem Path.check_circle {α : Type} [Scalar α] (radius : α) :
    (Path.circle radius).check = .ok () :=
  ((Cursor.sound_new _).turn _ _ _).close.check

end Toolpath
