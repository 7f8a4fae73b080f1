import Toolpath.Proofs.Outline.Circle
import Toolpath.Proofs.Program.Issued
import Toolpath.Proofs.Traversal.Rescaled

/-! Calls that differ only in the unit of their local lengths issue the same commands. -/
namespace Toolpath
open Scalar

namespace Path
variable {k : ℝ} (p : Path ℝ)

theorem getElem?_scaled (i : Nat) : (p.scaled k).vertices[i]? = p.vertices[i]?.map (·.scale k) :=
  List.getElem?_map

theorem start?_scaled : (p.scaled k).start? = p.start?.map (·.scale k) := by
  unfold start?
  change (p.segments.head?.bind fun s => (p.scaled k).vertices[s.start]?) = _
  cases p.segments.head? with
  | none => rfl
  | some s => exact p.getElem?_scaled s.start

/-- A circle scales with its radius. -/
theorem circle_scaled (hk : k ≠ 0) (radius : ℝ) :
    circle (radius * k) = (circle radius).scaled k := by
  have hlow : (⟨0, -radius, 0⟩ : Vec ℝ).scale k = ⟨0, -(radius * k), 0⟩ := by
    ext <;> simp
  rcases eq_or_ne radius 0 with rfl | hr
  · rw [zero_mul, circle_zero]
    simp [scaled]
  · rw [circle_eq hr, circle_eq (mul_ne_zero hr hk)]
    simp [scaled, hlow]

end Path

namespace Frame.Matches
variable {k : ℝ} {f g : Frame ℝ}

theorem place_eq (h : f.Matches 1 k g) (p : Vec ℝ) : g.place (p.scale k) = f.place p := by
  rw [h.place, Vec.scale_one]

theorem place_zero (h : f.Matches 1 k g) : g.place .zero = f.place .zero := by
  simpa using h.place_eq .zero

theorem length_eq (h : f.Matches 1 k g) (l : ℝ) : g.length (l * k) = f.length l := by
  rw [h.length, mul_one]

theorem depth_eq (h : f.Matches 1 k g) (d : ℝ) : g.depth (d * k) = f.depth d := by
  rw [h.depth, mul_one]

theorem bottom_eq (h : f.Matches 1 k g) (p : Vec ℝ) : g.bottom (p.scale k) = f.bottom p := by
  rw [h.bottom, mul_one]

theorem bottom_zero (h : f.Matches 1 k g) : g.bottom .zero = f.bottom .zero := by
  simpa using h.bottom_eq .zero

theorem lengthScale_eq (h : f.Matches 1 k g) :
    g.placement.lengthScale * k = f.placement.lengthScale := by
  have hlength := h.length_eq 1
  unfold Frame.length at hlength
  rwa [one_mul, one_mul, mul_comm] at hlength

theorem aboveFloor_eq (h : f.Matches 1 k g) (z : ℝ) : g.aboveFloor z = f.aboveFloor z := by
  unfold Frame.aboveFloor
  rw [h.floor, mul_one]

end Frame.Matches

namespace Carve
variable {k : ℝ} {f g : Frame ℝ}

theorem segment_scaled (h : f.Matches 1 k g) (p : Path ℝ) (d : Direction) (index : Nat)
    (s : Segment) : segment g (p.scaled k) d index s = segment f p d index s := by
  have hleft : ∀ sense, turnsLeft g sense d = turnsLeft f sense d := fun sense => by
    unfold turnsLeft
    rw [h.isMirroring]
  unfold segment
  simp only [p.getElem?_scaled]
  generalize p.vertices[(_ : Nat)]? = far
  cases far with
  | none => rfl
  | some v =>
    simp only [Option.map_some, h.place_eq]
    cases s with
    | straight start finish => rfl
    | arc start finish c sense =>
      simp only [hleft]
      cases p.vertices[c]? with
      | none => rfl
      | some center => simp only [Option.map_some, h.place_eq]

theorem segments_scaled (h : f.Matches 1 k g) (p : Path ℝ) (d : Direction)
    (l : List (Segment × Nat)) (position : Vec ℝ) :
    segments g (p.scaled k) d l position = segments f p d l position := by
  induction l generalizing position with
  | nil => rfl
  | cons head rest ih =>
    rw [segments, segments, segment_scaled h]
    exact congrArg _ (funext fun far => ih _)

theorem passes_scaled (h : f.Matches 1 k g) (p : Path ℝ) (heights : List ℝ) (number : Nat)
    (d : Direction) (position : Vec ℝ) :
    passes g (p.scaled k) heights number d position = passes f p heights number d position := by
  have hpass : ∀ d position, pass g (p.scaled k) d position = pass f p d position := by
    intro d position
    cases d <;> exact segments_scaled h p _ _ _
  induction heights generalizing number d position with
  | nil => rfl
  | cons z rest ih =>
    rw [passes, passes, hpass]
    simp only [ih]

theorem path_scaled (h : f.Matches 1 k g) (o : Options ℝ) (p : Path ℝ) :
    path o g (p.scaled k) = path o f p := by
  unfold path
  rw [p.start?_scaled]
  cases p.start? with
  | none => rfl
  | some v => simp only [Option.map_some, h.place_eq, h.bottom_eq, passes_scaled h]

theorem hole_scaled (h : f.Matches 1 k g) (hk : k ≠ 0) (hjob : g.job = f.job) (o : Options ℝ)
    (diameter : ℝ) : hole o g (diameter * k) = hole o f diameter := by
  have hpeck : peck o g = peck o f := by
    unfold peck
    rw [h.place_zero, h.bottom_zero]
  have hradius : ∀ w : ℝ, w / g.placement.lengthScale = w / f.placement.lengthScale * k := by
    intro w
    rw [← h.lengthScale_eq, div_mul_eq_div_div, div_mul_cancel₀ _ hk]
  unfold hole
  rw [h.length_eq, hjob, hpeck]
  simp only [hradius, Path.circle_scaled hk, path_scaled h]

theorem pocket_scaled (h : f.Matches 1 k g) (hjob : g.job = f.job) (o : Options ℝ)
    (p : Pocket ℝ) : pocket o g (p.scaled k) = pocket o f p := by
  have hdepth : ∀ most, pocketDepth g most (p.bottomDepth.scaled k) =
      pocketDepth f most p.bottomDepth := by
    intro most
    cases p.bottomDepth with
    | through => rfl
    | down d => exact congrArg (lesser · most) (h.depth_eq d)
  have hrings : ∀ center number l, rings o g center number l = rings o f center number l := by
    intro center number l
    induction l generalizing number with
    | nil => rfl
    | cons r rest ih => simp only [rings, ih, h.aboveFloor_eq]
  unfold pocket
  simp only [Pocket.scaled, h.place_zero, hjob, h.length_eq, h.depth_eq, hdepth, hrings]

/-- A call issues the same commands in any unit. -/
theorem block_eq_of_matches {a b : Call ℝ} (h : Call.Matches 1 k a b) (hk : k ≠ 0)
    (hjob : b.frame.job = a.frame.job) (o : Options ℝ) : block o b = block o a := by
  cases h with
  | comment h text => rfl
  | trace h p => exact path_scaled h o p
  | hole h diameter => exact hole_scaled h hk hjob o diameter
  | pocket h p => exact pocket_scaled h hjob o p
  | pause h => rfl

end Carve
end Toolpath
