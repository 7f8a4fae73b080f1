import Mathlib.Data.List.Chain
import Toolpath.Proofs.Geometry.Alike
import Toolpath.Proofs.Program.Carving
import Toolpath.Proofs.Program.Turn

/-! Contours in passes: which way each pass goes, what it cuts, and where it starts and ends. -/
namespace Toolpath
open Scalar

namespace Direction

/-- Items in the order in which a direction meets them. -/
def order {β : Type} : Direction → List β → List β
  | .forward, l => l
  | .reverse, l => l.reverse

theorem order_perm {β : Type} (d : Direction) (l : List β) : (d.order l).Perm l := by
  cases d with
  | forward => exact .refl l
  | reverse => exact l.reverse_perm

/-- Of the two ends of a path, the one that a direction starts from. -/
def origin {β : Type} (first last : β) : Direction → β
  | .forward => first
  | .reverse => last

/-- The direction of a pass of an open path. -/
def alternating (number : Nat) : Direction := if number % 2 = 0 then .forward else .reverse

theorem alternating_succ (number : Nat) :
    alternating (number + 1) = (alternating number).reversed := by
  unfold alternating
  rcases Nat.mod_two_eq_zero_or_one number with h | h
  · have hnext : ¬ (number + 1) % 2 = 0 := by omega
    rw [if_pos h, if_neg hnext, reversed]
  · have hodd : ¬ number % 2 = 0 := by omega
    have hnext : (number + 1) % 2 = 0 := by omega
    rw [if_pos hnext, if_neg hodd, reversed]

end Direction

namespace Path

section
variable {α : Type} [Scalar α] {p : Path α}

/-- The vertex at a place of the list. -/
def vertex (p : Path α) (index : Nat) : Vec α := p.vertices.getD index .zero

theorem getElem?_vertex {index : Nat} (h : index < p.vertices.length) :
    p.vertices[index]? = some (p.vertex index) := by
  unfold vertex
  rw [List.getElem?_eq_getElem h, List.getD_eq_getElem?_getD, List.getElem?_eq_getElem h,
    Option.getD_some]

theorem vertex_eq {index : Nat} {v : Vec α} (h : p.vertices[index]? = some v) :
    p.vertex index = v := by
  unfold vertex
  rw [List.getD_eq_getElem?_getD, h, Option.getD_some]

end

section
variable {α : Type} {p : Path α}

theorem exists_start (hp : p.check = .ok ()) (hne : p.segments ≠ []) :
    ∃ a, p.start? = some a := by
  obtain ⟨s, rest, hs⟩ := List.exists_cons_of_ne_nil hne
  have hlt := (Path.check_eq_ok.mp hp s (hs ▸ List.mem_cons_self)).start_lt
  refine ⟨p.vertices[s.start], ?_⟩
  rw [start?, hs, List.head?_cons]
  exact List.getElem?_eq_getElem hlt

theorem segments_ne_nil_of_start? {v : Vec α} (h : p.start? = some v) : p.segments ≠ [] := by
  intro hnil
  rw [start?, hnil] at h
  cases h

theorem exists_finish (hp : p.check = .ok ()) (hne : p.segments ≠ []) :
    ∃ b, p.finish? = some b := by
  have hlt := (Path.check_eq_ok.mp hp _ (List.getLast_mem hne)).finish_lt
  refine ⟨p.vertices[(p.segments.getLast hne).finish], ?_⟩
  rw [finish?, List.getLast?_eq_some_getLast hne]
  exact List.getElem?_eq_getElem hlt

end
end Path

namespace Carve
variable {α : Type} [Scalar α]

/-- The move along a segment to its far end. An arc is about its center. -/
def cut (f : Frame α) (p : Path α) (d : Direction) (s : Segment) : Command α :=
  match s with
  | .straight _ _ => feedXY (f.place (p.vertex (s.exit d)))
  | .arc _ _ center sense =>
    .arc (turnsLeft f sense d) (f.place (p.vertex (s.exit d))) (f.place (p.vertex center))

/-- The way down to the height of a pass. -/
def stepDown (z : α) (d : Direction) (number : Nat) : List (Command α) :=
  [.enter .plunging, .remark (.stepDown z), feedZ z, .enter (.cutting d number)]

/-- Passes at given heights and in given directions, numbered from the first. -/
def contour (f : Frame α) (p : Path α) (number : Nat) (passes : List (α × Direction)) :
    List (Command α) :=
  (passes.zipIdx number).flatMap fun x =>
    stepDown x.1.1 x.1.2 x.2 ++ (x.1.2.order p.segments).map (cut f p x.1.2)

theorem contour_cons (f : Frame α) (p : Path α) (number : Nat) (z : α) (d : Direction)
    (rest : List (α × Direction)) : contour f p number ((z, d) :: rest) =
      stepDown z d number ++ (d.order p.segments).map (cut f p d) ++
        contour f p (number + 1) rest := by
  unfold contour
  rw [List.zipIdx_cons, List.flatMap_cons]

section
variable {f : Frame α} {p : Path α}

theorem segment_eq {s : Segment} (h : s.Refers p.vertices.length) (d : Direction) (index : Nat) :
    segment f p d index s = ⟨[cut f p d s], .ok (f.place (p.vertex (s.exit d)))⟩ := by
  have hstart := Path.getElem?_vertex h.start_lt
  have hfinish := Path.getElem?_vertex h.finish_lt
  unfold segment cut
  cases s with
  | straight start finish =>
    cases d with
    | forward => simp only [hfinish]; rfl
    | reverse => simp only [hstart]; rfl
  | arc start finish center sense =>
    have hcenter := Path.getElem?_vertex h.2.2
    cases d with
    | forward => simp only [hfinish, hcenter]; rfl
    | reverse => simp only [hstart, hcenter]; rfl

/-- Where the tool is after segments: over the far end of the last one. -/
def landing (f : Frame α) (p : Path α) (d : Direction) (l : List Segment) (position : Vec α) :
    Vec α :=
  match l.getLast? with
  | none => position
  | some s => position.movedOver (f.place (p.vertex (s.exit d)))

theorem landing_cons (d : Direction) (s : Segment) (rest : List Segment) (position : Vec α) :
    landing f p d (s :: rest) position =
      landing f p d rest (position.movedOver (f.place (p.vertex (s.exit d)))) := by
  unfold landing
  rw [List.getLast?_cons]
  cases rest.getLast? <;> rfl

theorem segments_eq {d : Direction} {l : List (Segment × Nat)}
    (h : ∀ x ∈ l, x.1.Refers p.vertices.length) (position : Vec α) :
    segments f p d l position =
      ⟨(l.map Prod.fst).map (cut f p d), .ok (landing f p d (l.map Prod.fst) position)⟩ := by
  induction l generalizing position with
  | nil => rfl
  | cons head rest ih =>
    obtain ⟨s, index⟩ := head
    obtain ⟨hs, hrest⟩ := List.forall_mem_cons.mp h
    rw [segments, segment_eq hs, Block.bind_of_ok rfl, List.map_cons, landing_cons, ih hrest]
    rfl

theorem pass_eq (hp : p.check = .ok ()) (d : Direction) (position : Vec α) :
    pass f p d position = ⟨(d.order p.segments).map (cut f p d),
      .ok (landing f p d (d.order p.segments) position)⟩ := by
  have hrefers : ∀ x ∈ p.segments.zipIdx, x.1.Refers p.vertices.length := fun x hx =>
    Path.check_eq_ok.mp hp x.1 (List.fst_mem_of_mem_zipIdx hx)
  cases d with
  | forward =>
    rw [pass, segments_eq hrefers, List.zipIdx_map_fst]
    rfl
  | reverse =>
    rw [pass, segments_eq fun x hx => hrefers x (List.mem_reverse.mp hx), List.map_reverse,
      List.zipIdx_map_fst]
    rfl

end

section
variable {p : Path α} {a b : Vec α}

/-- The first segment of a pass starts at the end of the path that the pass starts from. -/
theorem vertex_entry_head (ha : p.start? = some a) (hb : p.finish? = some b) {d : Direction}
    {s : Segment} {rest : List Segment} (h : d.order p.segments = s :: rest) :
    p.vertex (s.entry d) = d.origin a b := by
  cases d with
  | forward =>
    have hs : p.segments = s :: rest := h
    rw [Path.start?, hs] at ha
    exact Path.vertex_eq ha
  | reverse =>
    have hs : p.segments.getLast? = some s := by
      rw [← List.head?_reverse]
      exact congrArg List.head? h
    rw [Path.finish?, hs] at hb
    exact Path.vertex_eq hb

/-- A pass ends at the end of the path that the reversed pass starts from. -/
theorem landing_order (f : Frame α) (ha : p.start? = some a) (hb : p.finish? = some b)
    (d : Direction) (position : Vec α) : landing f p d (d.order p.segments) position =
      position.movedOver (f.place (d.reversed.origin a b)) := by
  cases hl : (d.order p.segments).getLast? with
  | none =>
    have hnil : p.segments = [] := by
      have h := List.getLast?_eq_none_iff.mp hl
      cases d with
      | forward => exact h
      | reverse => exact List.reverse_eq_nil_iff.mp h
    exact absurd hnil (Path.segments_ne_nil_of_start? ha)
  | some s =>
    have hreversed : d.reversed.order p.segments = s :: (d.order p.segments).dropLast.reverse := by
      have h := List.dropLast_append_getLast? s hl
      cases d with
      | forward =>
        have hrev := congrArg List.reverse h
        rw [List.reverse_append] at hrev
        exact hrev.symm
      | reverse =>
        have hrev := congrArg List.reverse h
        rw [List.reverse_append] at hrev
        exact (List.reverse_reverse p.segments).symm.trans hrev.symm
    have hexit : s.exit d = s.entry d.reversed := by cases d <;> rfl
    unfold landing
    rw [hl]
    dsimp only
    rw [hexit, vertex_entry_head ha hb hreversed]

/-- The directions of passes at given heights between two placed ends. A pass that leaves the tool
where it was keeps the direction. -/
def headings (first last : Vec α) : List α → Direction → (position : Vec α) → List Direction
  | [], _, _ => []
  | z :: rest, d, position =>
    let start := { position with z }
    let finish := start.movedOver (d.reversed.origin first last)
    d :: headings first last rest (if finish == start then d else d.reversed) finish

theorem place_origin (f : Frame α) (a b : Vec α) (d : Direction) :
    f.place (d.origin a b) = d.origin (f.place a) (f.place b) := by
  cases d <;> rfl

theorem passes_eq (f : Frame α) (hp : p.check = .ok ()) (ha : p.start? = some a)
    (hb : p.finish? = some b) (heights : List α) (number : Nat) (d : Direction)
    (position : Vec α) : passes f p heights number d position = .issue
      (contour f p number (heights.zip (headings (f.place a) (f.place b) heights d position))) := by
  induction heights generalizing number d position with
  | nil => rfl
  | cons z rest ih =>
    rw [passes, Block.issue_bind, pass_eq hp, Block.bind_of_ok rfl, landing_order f ha hb,
      place_origin, ih, headings, List.zip_cons_cons, contour_cons, List.append_assoc]
    rfl

theorem path_eq (hp : p.check = .ok ()) (ha : p.start? = some a) (hb : p.finish? = some b)
    {o : Options α} {f : Frame α} (hd : (descent o f a).passes ≠ []) :
    path o f p = .issue (approach o (f.place a) ++
      contour f p 0 ((descent o f a).passes.zip
        (headings (f.place a) (f.place b) (descent o f a).passes .forward (f.place a))) ++
      toSafeHeight o) := by
  rw [path_of_passes ha hd, passes_eq f hp ha hb, Block.issue_bind, Block.issue_bind,
    List.append_assoc]
  rfl

end

section
variable {first last position : Vec α} {heights : List α}

/-- A pass is back where it was when its end has the X and Y that it started from. -/
theorem movedOver_beq {z : α} (hz : isNaN z = false) (target : Vec α) :
    (Vec.movedOver { position with z } target == { position with z }) = target.sameXY position := by
  have hself : (z == z) = true := by simpa [isNaN] using hz
  change (target.sameXY position && z == z) = _
  rw [hself, Bool.and_true]

variable [PartialEquivBEq α]

theorem zip_headings_of_same (hz : ∀ z ∈ heights, isNaN z = false)
    (hposition : position.sameXY last = true) (number : Nat) :
    heights.zip (headings first last heights .forward position) =
      (heights.zipIdx number).map fun x => (x.1, .forward) := by
  induction heights generalizing position number with
  | nil => rfl
  | cons z rest ih =>
    obtain ⟨hz, hrest⟩ := List.forall_mem_cons.mp hz
    have hstay : last.sameXY position = true := Vec.sameXY_symm hposition
    have hlast : last.sameXY last = true := Vec.sameXY_trans hstay hposition
    rw [headings, movedOver_beq hz, Direction.reversed, Direction.origin, hstay, if_pos rfl,
      List.zip_cons_cons, List.zipIdx_cons, List.map_cons, ih hrest _ (number + 1)]
    exact hlast

theorem zip_headings_of_apart (h : first.sameXY last = false)
    (hz : ∀ z ∈ heights, isNaN z = false) (number : Nat)
    (hposition : position.movedOver ((Direction.alternating number).origin first last) = position) :
    heights.zip (headings first last heights (.alternating number) position) =
      (heights.zipIdx number).map fun x => (x.1, .alternating x.2) := by
  induction heights generalizing position number with
  | nil => rfl
  | cons z rest ih =>
    obtain ⟨hz, hrest⟩ := List.forall_mem_cons.mp hz
    have hleave : ((Direction.alternating (number + 1)).origin first last).sameXY position =
        false := by
      rw [← hposition]
      rw [Direction.alternating_succ]
      cases Direction.alternating number with
      | forward => exact Bool.eq_false_iff.mpr fun hs => Bool.eq_false_iff.mp h (Vec.sameXY_symm hs)
      | reverse => exact h
    rw [headings, movedOver_beq hz, ← Direction.alternating_succ, hleave, if_neg Bool.false_ne_true,
      List.zip_cons_cons, List.zipIdx_cons, List.map_cons, ih hrest (number + 1) rfl]

end

/-- Passes go forward only, or forward and backward in turn. -/
theorem exists_direction [PartialEquivBEq α] (first last : Vec α) {heights : List α}
    (hz : ∀ z ∈ heights, isNaN z = false) : ∃ direction : Nat → Direction,
      heights.zip (headings first last heights .forward first) =
        heights.zipIdx.map (fun x => (x.1, direction x.2)) ∧
      (∀ k, direction k = .forward ↔ k % 2 = 0 ∨ first.sameXY last = true) ∧
      (first.sameXY last = false → ∀ k, direction (k + 1) = (direction k).reversed) := by
  cases hsame : first.sameXY last with
  | true => exact ⟨fun _ => .forward, zip_headings_of_same hz hsame 0, by simp, by simp⟩
  | false =>
    exact ⟨.alternating, zip_headings_of_apart hsame hz 0 rfl, by simp [Direction.alternating],
      fun _ => Direction.alternating_succ⟩

theorem turnsLeft_reverse (f : Frame α) (sense : Sense) :
    turnsLeft f sense .reverse = !turnsLeft f sense .forward := by
  unfold turnsLeft
  split_ifs <;> cases sense <;> rfl

/-- Passes alternate between the two directions, or all go forward where the path ends over the
place that it starts from. Each of them cuts every segment once, to its far end, and arcs that are
followed backward turn the other way about the same center. -/
theorem passes_direction [Congruent α] {p : Path α} (hp : p.check = .ok ())
    (hne : p.segments ≠ []) (f : Frame α) {heights : List α}
    (hz : ∀ z ∈ heights, isNaN z = false) :
    ∃ (a b : Vec α) (direction : Nat → Direction),
      p.start? = some a ∧ p.finish? = some b ∧
      passes f p heights 0 .forward (f.place a) =
        .issue (contour f p 0 (heights.zipIdx.map fun x => (x.1, direction x.2))) ∧
      (∀ k, direction k = .forward ↔ k % 2 = 0 ∨ (f.place a).sameXY (f.place b) = true) ∧
      (p.isClosed = true → isNaN (f.place a).x = false → isNaN (f.place a).y = false →
        ∀ k, direction k = .forward) ∧
      ((f.place a).sameXY (f.place b) = false → ∀ k, direction (k + 1) = (direction k).reversed) ∧
      (∀ d : Direction, (d.order p.segments).Perm p.segments) ∧
      (∀ sense, turnsLeft f sense .reverse = !turnsLeft f sense .forward) ∧
      ∀ o : Options α, (descent o f a).passes = heights → heights ≠ [] →
        path o f p = .issue (approach o (f.place a) ++
          contour f p 0 (heights.zipIdx.map fun x => (x.1, direction x.2)) ++
          toSafeHeight o) := by
  obtain ⟨a, ha⟩ := Path.exists_start hp hne
  obtain ⟨b, hb⟩ := Path.exists_finish hp hne
  obtain ⟨direction, hzip, hforward, hturn⟩ := exists_direction (f.place a) (f.place b) hz
  refine ⟨a, b, direction, ha, hb, ?_, hforward, ?_, hturn, fun d => d.order_perm _,
    turnsLeft_reverse f, ?_⟩
  · rw [passes_eq f hp ha hb, hzip]
  · intro hclosed hx hy k
    have hab : (a == b) = true := by simpa [Path.isClosed, ha, hb] using hclosed
    exact (hforward k).mpr (.inr ((f.place_alikeXY hab).sameXY hx hy))
  · rintro o rfl hd
    rw [path_eq hp ha hb hd, hzip]

/-- A line that is cut twice is followed back the second time. -/
theorem passes_direction_line :
    passes (Frame.root .quarterInch) (⟨[.zero, .unitX], [.straight 0 1]⟩ : Path Float) [-1, -2] 0
        .forward ((Frame.root .quarterInch).place .zero) =
      .issue (contour (Frame.root .quarterInch) ⟨[.zero, .unitX], [.straight 0 1]⟩ 0
        [(-1, .forward), (-2, .reverse)]) := by
  have hz : ∀ z ∈ ([-1, -2] : List Float), isNaN z = false := by decide +kernel
  obtain ⟨a, b, direction, ha, hb, hpasses, hforward, -, hturn, -⟩ :=
    passes_direction (p := ⟨[.zero, .unitX], [.straight 0 1]⟩) rfl (List.cons_ne_nil _ _)
      (Frame.root .quarterInch) hz
  obtain rfl : Vec.zero = a := Option.some.inj ha
  obtain rfl : Vec.unitX = b := Option.some.inj hb
  have hfirst : direction 0 = .forward := (hforward 0).mpr (.inl rfl)
  have hsecond : direction 1 = .reverse := by
    rw [hturn (by decide +kernel) 0, hfirst]
    rfl
  simpa [hfirst, hsecond] using hpasses

end Carve
end Toolpath
