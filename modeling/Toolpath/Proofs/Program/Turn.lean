import Mathlib.Tactic.Positivity
import Toolpath.Program.Carve
import Toolpath.Program.Machine
import Toolpath.Proofs.Geometry.PlaneSimilarity
import Toolpath.Proofs.Outline.Reference
import Toolpath.Proofs.Program.Issued

/-! Which way arcs turn on the machine, for placements that keep the XY plane and the Z axis apart.
Arcs turn as they are drawn where the Z axis keeps its direction, and the other way where it does
not. -/
namespace Toolpath
open Scalar

namespace Vec

/-- A motion that turns counter-clockwise about a center: where it will be within half a turn is to
the left of where it is. -/
def TurnsLeft (center : Vec ℝ) (motion : ℝ → Vec ℝ) : Prop :=
  ∀ t u, t < u → u < t + Real.pi → 0 < (motion t - center).crossXY (motion u - center)

def TurnsRight (center : Vec ℝ) (motion : ℝ → Vec ℝ) : Prop :=
  ∀ t u, t < u → u < t + Real.pi → (motion t - center).crossXY (motion u - center) < 0

/-- The point that a circle about a center leads to from a start, after an angle that is
counter-clockwise where it is positive. -/
noncomputable def swung (start center : Vec ℝ) (angle : ℝ) : Vec ℝ :=
  center + (Linear.planar angle).apply (start - center)

theorem swung_sub (start center : Vec ℝ) (angle : ℝ) :
    start.swung center angle - center = (Linear.planar angle).apply (start - center) := by
  unfold swung
  ext <;> simp

theorem crossXY_planar (r : Vec ℝ) (a b : ℝ) :
    ((Linear.planar a).apply r).crossXY ((Linear.planar b).apply r) =
      (r.x ^ 2 + r.y ^ 2) * Real.sin (b - a) := by
  rw [Real.sin_sub]
  simp only [crossXY, Linear.apply, Linear.planar, dot]
  ring

/-- A motion that keeps its distance and turns evenly turns the way of its first quarter. -/
theorem turnsLeft_iff {center : Vec ℝ} {motion : ℝ → Vec ℝ} {q : ℝ}
    (h : ∀ t u, (motion t - center).crossXY (motion u - center) = q * Real.sin (u - t)) :
    TurnsLeft center motion ↔ 0 < q := by
  constructor
  · intro hleft
    have hquarter := hleft 0 (Real.pi / 2) (by linarith [Real.pi_pos]) (by linarith [Real.pi_pos])
    rwa [h, sub_zero, Real.sin_pi_div_two, mul_one] at hquarter
  · intro hq t u htu hu
    have hsin := Real.sin_pos_of_pos_of_lt_pi (sub_pos.mpr htu) (by linarith)
    exact h t u ▸ mul_pos hq hsin

theorem turnsRight_iff {center : Vec ℝ} {motion : ℝ → Vec ℝ} {q : ℝ}
    (h : ∀ t u, (motion t - center).crossXY (motion u - center) = q * Real.sin (u - t)) :
    TurnsRight center motion ↔ q < 0 := by
  constructor
  · intro hright
    have hquarter := hright 0 (Real.pi / 2) (by linarith [Real.pi_pos]) (by linarith [Real.pi_pos])
    rwa [h, sub_zero, Real.sin_pi_div_two, mul_one] at hquarter
  · intro hq t u htu hu
    have hsin := Real.sin_pos_of_pos_of_lt_pi (sub_pos.mpr htu) (by linarith)
    exact h t u ▸ mul_neg_of_neg_of_pos hq hsin

/-- The square of the distance in the XY plane. -/
noncomputable def reachSq (a c : Vec ℝ) : ℝ := (a - c).x ^ 2 + (a - c).y ^ 2

theorem reachSq_pos {a c : Vec ℝ} (h : a.x ≠ c.x ∨ a.y ≠ c.y) : 0 < a.reachSq c := by
  unfold reachSq
  rcases h with h | h
  · have hx : (a - c).x ≠ 0 := sub_ne_zero.mpr h
    positivity
  · have hy : (a - c).y ≠ 0 := sub_ne_zero.mpr h
    positivity

end Vec

namespace Segment

/-- The vertex that a segment is followed from. -/
def entry (s : Segment) : Direction → Nat
  | .forward => s.start
  | .reverse => s.finish

/-- The vertex that a segment is followed to. -/
def exit (s : Segment) : Direction → Nat
  | .forward => s.finish
  | .reverse => s.start

end Segment

/-- The sign of the turn of an arc that is followed in a direction. -/
def Sense.turn (sense : Sense) (d : Direction) : ℤ := sense.sign * d.sign

theorem Sense.turn_cases (sense : Sense) (d : Direction) :
    sense.turn d = 1 ∨ sense.turn d = -1 := by
  cases sense <;> cases d <;> simp [turn, sign, Direction.sign]

/-- The way along an arc in a direction, by the angle that is swept. -/
noncomputable def arcMotion (start center : Vec ℝ) (sense : Sense) (d : Direction) (t : ℝ) :
    Vec ℝ :=
  start.swung center (sense.turn d * t)

namespace Carve
variable {f : Frame ℝ} {h : ℝ}

/-- How a placed arc turns: as it is drawn, unless the plane is mirrored. -/
noncomputable def placedTurn (f : Frame ℝ) (sense : Sense) (d : Direction) : ℝ :=
  sense.turn d * f.placement.linear.planeDet

theorem crossXY_place_arcMotion (hf : f.placement.linear.PlaneSimilarity h) (a c : Vec ℝ)
    (sense : Sense) (d : Direction) (t u : ℝ) :
    (f.place (arcMotion a c sense d t) - f.place c).crossXY
      (f.place (arcMotion a c sense d u) - f.place c) =
    placedTurn f sense d * a.reachSq c * Real.sin (u - t) := by
  have hsin : Real.sin (sense.turn d * u - sense.turn d * t) =
      sense.turn d * Real.sin (u - t) := by
    rcases sense.turn_cases d with hturn | hturn
    · simp [hturn]
    · rw [hturn, ← mul_sub, Int.cast_neg, Int.cast_one, neg_one_mul, neg_one_mul, Real.sin_neg]
  unfold Frame.place
  rw [Placement.apply_sub, Placement.apply_sub, hf.crossXY_apply, arcMotion, arcMotion,
    Vec.swung_sub, Vec.swung_sub, Vec.crossXY_planar, hsin, placedTurn, Vec.reachSq]
  ring

/-- The turn that is commanded goes by the determinant in space. -/
theorem turnsLeft_eq_true (hdet : f.placement.determinant ≠ 0) (sense : Sense) (d : Direction) :
    turnsLeft f sense d = true ↔ 0 < sense.turn d * f.placement.determinant := by
  have hcode : turnsLeft f sense d = true ↔
      0 < sense.turn d * (if f.placement.isMirroring then -1 else 1) := by
    unfold turnsLeft
    exact decide_eq_true_iff
  have hmirror : f.placement.isMirroring = true ↔ f.placement.determinant < 0 := by
    unfold Placement.isMirroring
    exact decide_eq_true_iff
  rw [hcode]
  rcases hdet.lt_or_gt with hneg | hpos
  · rw [if_pos (hmirror.mpr hneg)]
    rcases sense.turn_cases d with hturn | hturn
    · simp [hturn, hneg.le]
    · simp [hturn, hneg]
  · rw [if_neg fun hm => lt_asymm hpos (hmirror.mp hm)]
    rcases sense.turn_cases d with hturn | hturn
    · simp [hturn, hpos]
    · simp [hturn, hpos.le]

theorem segment_arc {p : Path ℝ} {start finish center : Nat} {sense : Sense} {d : Direction}
    {b c : Vec ℝ} (index : Nat)
    (hb : p.vertices[(Segment.arc start finish center sense).exit d]? = some b)
    (hc : p.vertices[center]? = some c) :
    segment f p d index (.arc start finish center sense) =
      ⟨[.arc (turnsLeft f sense d) (f.place b) (f.place c)], .ok (f.place b)⟩ := by
  cases d <;>
  · simp only [Segment.exit, Segment.start, Segment.finish] at hb
    simp only [segment, Segment.start, Segment.finish, hb, hc]
    rfl

/-- The placed image of an arc turns counter-clockwise when it is followed in a direction. -/
def ImageTurnsLeft (f : Frame ℝ) (a c : Vec ℝ) (sense : Sense) (d : Direction) : Prop :=
  Vec.TurnsLeft (f.place c) fun t => f.place (arcMotion a c sense d t)

def ImageTurnsRight (f : Frame ℝ) (a c : Vec ℝ) (sense : Sense) (d : Direction) : Prop :=
  Vec.TurnsRight (f.place c) fun t => f.place (arcMotion a c sense d t)

theorem imageTurnsLeft_iff (hf : f.placement.linear.PlaneSimilarity h) {a c : Vec ℝ}
    (hapart : a.x ≠ c.x ∨ a.y ≠ c.y) (sense : Sense) (d : Direction) :
    ImageTurnsLeft f a c sense d ↔ 0 < placedTurn f sense d := by
  have hreach := Vec.reachSq_pos hapart
  rw [ImageTurnsLeft, Vec.turnsLeft_iff (crossXY_place_arcMotion hf a c sense d),
    mul_pos_iff_of_pos_right hreach]

theorem imageTurnsRight_iff (hf : f.placement.linear.PlaneSimilarity h) {a c : Vec ℝ}
    (hapart : a.x ≠ c.x ∨ a.y ≠ c.y) (sense : Sense) (d : Direction) :
    ImageTurnsRight f a c sense d ↔ placedTurn f sense d < 0 := by
  have hreach := Vec.reachSq_pos hapart
  rw [ImageTurnsRight, Vec.turnsRight_iff (crossXY_place_arcMotion hf a c sense d)]
  constructor
  · intro hturn
    exact neg_of_mul_neg_left hturn hreach.le
  · intro hturn
    exact mul_neg_of_neg_of_pos hturn hreach

theorem placedTurn_ne_zero (hf : f.placement.linear.PlaneSimilarity h) (sense : Sense)
    (d : Direction) : placedTurn f sense d ≠ 0 := by
  have hsense : (sense.turn d : ℝ) ≠ 0 := by
    rcases sense.turn_cases d with h | h <;> simp [h]
  exact mul_ne_zero hsense hf.planeDet_ne_zero

/-- The sign of the height, which is not seen from above, goes into the turn that is commanded. -/
theorem turnsLeft_iff_placedTurn (hf : f.placement.linear.PlaneSimilarity h) (hh : h ≠ 0)
    (sense : Sense) (d : Direction) :
    turnsLeft f sense d = true ↔ 0 < placedTurn f sense d * h := by
  -- seen from above only the first factor counts
  have hdet : f.placement.determinant = f.placement.linear.planeDet * h := hf.determinant_eq
  have hdet0 : f.placement.determinant ≠ 0 := by
    rw [hdet]
    exact mul_ne_zero hf.planeDet_ne_zero hh
  rw [turnsLeft_eq_true hdet0, hdet, placedTurn, mul_assoc]

/-- Where the plane and the height are placed apart, an arc is commanded as its placed image turns
if the height keeps its direction, and the other way if it does not. All positions that are not
shrunk to nothing, in all units, place them apart. -/
theorem segment_turn (hf : f.placement.linear.PlaneSimilarity h) (hh : h ≠ 0) {p : Path ℝ}
    (hp : p.check = .ok ()) {start finish center : Nat} {sense : Sense}
    (hs : .arc start finish center sense ∈ p.segments) (d : Direction) (index : Nat) :
    (∃ a b c, p.vertices[(Segment.arc start finish center sense).entry d]? = some a ∧
      p.vertices[(Segment.arc start finish center sense).exit d]? = some b ∧
      p.vertices[center]? = some c ∧
      segment f p d index (.arc start finish center sense) =
        ⟨[.arc (turnsLeft f sense d) (f.place b) (f.place c)], .ok (f.place b)⟩ ∧
      (∀ (s : Style ℝ) (m : Machine ℝ), ∃ words,
        (m.step s (.arc (turnsLeft f sense d) (f.place b) (f.place c))).2 =
          [(if turnsLeft f sense d then "G03" else "G02") ++ words]) ∧
      (a.x ≠ c.x ∨ a.y ≠ c.y →
        (0 < h → (turnsLeft f sense d = true ↔ ImageTurnsLeft f a c sense d)) ∧
        (h < 0 → (turnsLeft f sense d = true ↔ ImageTurnsRight f a c sense d)) ∧
        (ImageTurnsRight f a c sense d ↔ ¬ ImageTurnsLeft f a c sense d))) ∧
    ∀ (job : Job ℝ) (route : List (Leg ℝ)) (g : Frame ℝ), (∀ leg ∈ route, leg.IsPlain job) →
      (Frame.root job).along route = .ok g → g.IsPlain := by
  have hleft := turnsLeft_iff_placedTurn hf hh sense d
  obtain ⟨hstart, hfinish, hcenter⟩ := Path.check_eq_ok.mp hp _ hs
  obtain ⟨b, hb⟩ : ∃ b, p.vertices[(Segment.arc start finish center sense).exit d]? = some b := by
    cases d
    · exact ⟨_, List.getElem?_eq_getElem hfinish⟩
    · exact ⟨_, List.getElem?_eq_getElem hstart⟩
  obtain ⟨a, ha⟩ : ∃ a, p.vertices[(Segment.arc start finish center sense).entry d]? = some a := by
    cases d
    · exact ⟨_, List.getElem?_eq_getElem hstart⟩
    · exact ⟨_, List.getElem?_eq_getElem hfinish⟩
  have hc := List.getElem?_eq_getElem hcenter
  refine ⟨⟨a, b, _, ha, hb, hc, segment_arc index hb hc, fun s m => ⟨?words, ?line⟩,
    fun hapart => ⟨fun hpos => ?_, fun hneg => ?_, ?_⟩⟩,
    fun job route g hroute hg => (Frame.isPlain_root job).along hroute hg⟩
  case line =>
    simp only [Machine.step, Machine.arc, String.append_assoc]
    rfl
  · rw [hleft, imageTurnsLeft_iff hf hapart, mul_pos_iff_of_pos_right hpos]
  · rw [hleft, imageTurnsRight_iff hf hapart]
    constructor
    · intro hturn
      exact neg_of_mul_pos_left hturn hneg.le
    · intro hturn
      exact mul_pos_of_neg_of_neg hturn hneg
  · rw [imageTurnsLeft_iff hf hapart, imageTurnsRight_iff hf hapart, not_lt]
    exact ⟨le_of_lt, fun h => lt_of_le_of_ne h (placedTurn_ne_zero hf sense d)⟩

/-- Turned over by a negative scale, a quarter of a circle still turns counter-clockwise as seen
from above, but is commanded clockwise. -/
theorem segment_turn_turnedOver :
    ∃ f : Frame ℝ, (Frame.root .quarterInch).along
        [(⟨none, .position { x := 0, y := 0, scale := some (-1) }⟩ : Leg ℝ)] = .ok f ∧
      segment f ⟨[.unitX, ⟨0, 1, 0⟩, .zero], [.arc 0 1 2 .counterClockwise]⟩ .forward 0
          (.arc 0 1 2 .counterClockwise) =
        ⟨[.arc false (f.place ⟨0, 1, 0⟩) (f.place .zero)], .ok (f.place ⟨0, 1, 0⟩)⟩ ∧
      ImageTurnsLeft f .unitX .zero .counterClockwise .forward := by
  obtain ⟨f, hroute⟩ : ∃ f : Frame ℝ, (Frame.root .quarterInch).along
      [(⟨none, .position { x := 0, y := 0, scale := some (-1) }⟩ : Leg ℝ)] = .ok f := ⟨_, rfl⟩
  have hlinear : f.placement.linear = (Linear.planar (ofDegrees 0)).scale (-1) := by
    obtain ⟨g, hleads, hg⟩ := Frame.along_cons_eq_ok.mp hroute
    obtain rfl : g = f := Except.ok.inj hg
    cases hleads
    simp [Frame.root, Pose.toPlacement, Position.toPlacement_eq, Placement.identity]
  have hf : f.placement.linear.PlaneSimilarity (-1) := by
    rw [hlinear]
    exact .planar_scale _ (by norm_num)
  have hapart : (Vec.unitX : Vec ℝ).x ≠ (Vec.zero : Vec ℝ).x ∨
      (Vec.unitX : Vec ℝ).y ≠ (Vec.zero : Vec ℝ).y := .inl one_ne_zero
  have hleft : ImageTurnsLeft f .unitX .zero .counterClockwise .forward := by
    rw [imageTurnsLeft_iff hf hapart, placedTurn, hlinear]
    simp [Sense.turn, Sense.sign, Direction.sign, Linear.planeDet, Linear.planar, Linear.scale,
      ofDegrees]
  obtain ⟨⟨a, b, c, ha, hb, hc, hsegment, -, hturn⟩, -⟩ :=
    segment_turn hf (by norm_num)
      (p := ⟨[.unitX, ⟨0, 1, 0⟩, .zero], [.arc 0 1 2 .counterClockwise]⟩) rfl
      (List.mem_singleton_self _) .forward 0
  obtain rfl : Vec.unitX = a := Option.some.inj ha
  obtain rfl : (⟨0, 1, 0⟩ : Vec ℝ) = b := Option.some.inj hb
  obtain rfl : Vec.zero = c := Option.some.inj hc
  obtain ⟨-, hneg, hopposite⟩ := hturn hapart
  have hright := hopposite.not.mpr (not_not.mpr hleft)
  have hfalse : turnsLeft f .counterClockwise .forward = false :=
    Bool.eq_false_iff.mpr fun h => hright ((hneg (by norm_num)).mp h)
  exact ⟨f, hroute, hfalse ▸ hsegment, hleft⟩

end Carve
end Toolpath
