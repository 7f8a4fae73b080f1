import Toolpath.Plan.Pocket
import Toolpath.Program.Options
import Toolpath.Proofs.Plan.StepDown
import Toolpath.Proofs.Scalar.Rounded

/-!
Whether passes, strokes and rings come to an end where steps are rounded. Rounding keeps order, so a
step that leads nowhere is never left again.
-/
namespace Toolpath
open Scalar Binary

/-- Whether a value is a number at all. -/
def IsNumber (z : Float) : Prop := (units? z).isSome

theorem isNumber_of_units {z : Float} {x : ℤ} (h : units? z = some x) : IsNumber z := by
  rw [IsNumber, h, Option.isSome_some]

/-- The units of a number as a rank. -/
def rank (z : Float) : ℕ := (units z + top).toNat

section
variable {a b : Float}

theorem rank_le_rank (ha : IsNumber a) (hb : IsNumber b) : rank a ≤ rank b ↔ a ≤ b := by
  obtain ⟨x, hx⟩ := Option.isSome_iff_exists.mp ha
  obtain ⟨y, hy⟩ := Option.isSome_iff_exists.mp hb
  have hxb := units_bounds hx
  have hyb := units_bounds hy
  rw [le_iff hx hy, rank, rank, units_eq hx, units_eq hy]
  omega

theorem rank_lt_rank (ha : IsNumber a) (hb : IsNumber b) : rank a < rank b ↔ a < b := by
  rw [← not_le, rank_le_rank hb ha]
  obtain ⟨x, hx⟩ := Option.isSome_iff_exists.mp ha
  obtain ⟨y, hy⟩ := Option.isSome_iff_exists.mp hb
  rw [le_iff hy hx, lt_iff hx hy, not_le]

end

section
variable {σ β : Type} {next? : σ → Option (β × σ)} {state : Float → σ} {go : Float → Float}
  {on : Float → Prop} {z : Float}

theorem Loop.exists_unrolls_iff_lt (h : Loop next? state go on IsNumber) (hz : IsNumber z)
    (hmono : ∀ v w, IsNumber v → IsNumber w → v ≤ w → on v → on w ∧ go v ≤ go w) :
    (∃ l, Unrolls next? (state z) l) ↔
      ∀ w, Reaches next? (state z) (state w) → on w → go w < w := by
  refine (h.exists_unrolls_iff rank hz fun v w hv hw hle hon => ?_).trans ?_
  · obtain ⟨hon', hgo⟩ := hmono v w hv hw ((rank_le_rank hv hw).mp hle) hon
    exact ⟨hon', (rank_le_rank (h.keeps v hv hon) (h.keeps w hw hon')).mpr hgo⟩
  · refine forall_congr' fun w => forall_congr' fun hreach => forall_congr' fun hon => ?_
    have hw := h.sound_of_reaches hz hreach
    exact rank_lt_rank (h.keeps w hw hon) hw

theorem Loop.exists_unrolls_of_go_lt (h : Loop next? state go on IsNumber) (hz : IsNumber z)
    (hlt : ∀ w, IsNumber w → w ≤ z → on w → go w < w) : ∃ l, Unrolls next? (state z) l :=
  h.exists_unrolls_of_lt rank hz fun w _ hw hle hon =>
    (rank_lt_rank (h.keeps w hw hon) hw).mpr (hlt w hw ((rank_le_rank hw hz).mp hle) hon)

end

namespace Descent

/-- The units of what a step down depends on: the target, the size of a step, and the height below
which what is left is taken in one step. -/
structure Measured (d : Descent Float) (t s e : ℤ) : Prop where
  target : units? d.target = some t
  step : units? d.step = some s
  edge : units? (d.target + tolerance) = some e
  step_pos : 0 < s
  step_inRange : InRange s
  target_le_edge : t ≤ e

/-- The units of a height after one step. -/
def lowered (t s e x : ℤ) : ℤ := if sum x (-s) < e then t else sum x (-s)

section
variable {d : Descent Float} {t s e x y : ℤ} {z : Float}

theorem exists_measured (htarget : isFinite d.target = true) (hstep : isFinite d.step = true)
    (hpos : 0 < d.step) : ∃ t s e, d.Measured t s e := by
  obtain ⟨t, ht, htr⟩ := isFinite_iff.mp htarget
  obtain ⟨s, hs, hsr⟩ := isFinite_iff.mp hstep
  have htolerance : isFinite (tolerance : Float) = true := by decide +kernel
  have hsmall : (0 : Float) ≤ tolerance := by decide +kernel
  obtain ⟨e, he, her⟩ := isFinite_iff.mp htolerance
  have hnonneg : 0 ≤ e := (le_iff units?_zero he).mp hsmall
  refine ⟨t, s, sum t e, ht, hs, units_add ht he her, (lt_iff units?_zero hs).mp hpos, hsr, ?_⟩
  have hself : rounded t = t := rounded_units (inFormat_unpack _) ht
  rw [sum, if_pos htr]
  exact hself.ge.trans (rounded_mono (by omega))

theorem Measured.units_lower (h : d.Measured t s e) (hz : units? z = some x) :
    units? (d.lower z) = some (lowered t s e x) := by
  have hsub := units_sub hz h.step h.step_inRange
  have hiff := lt_iff hsub h.edge
  unfold lower lowered
  split_ifs with h1 h2 h2
  · exact h.target
  · exact absurd (hiff.mp h1) h2
  · exact absurd (hiff.mpr h2) h1
  · exact hsub

theorem lowered_mono (he : t ≤ e) (hx : -(top : ℤ) ≤ x) (hy : y ≤ top) (h : x ≤ y) :
    lowered t s e x ≤ lowered t s e y := by
  have hmono := sum_mono hx hy h (-s)
  unfold lowered
  split_ifs <;> omega

theorem Measured.isNumber_lower (h : d.Measured t s e) (hz : IsNumber z) :
    IsNumber (d.lower z) := by
  obtain ⟨x, hx⟩ := Option.isSome_iff_exists.mp hz
  exact isNumber_of_units (h.units_lower hx)

theorem Measured.lower_mono (h : d.Measured t s e) {v w : Float} (hv : IsNumber v)
    (hw : IsNumber w) (hle : v ≤ w) : d.lower v ≤ d.lower w := by
  obtain ⟨x, hx⟩ := Option.isSome_iff_exists.mp hv
  obtain ⟨y, hy⟩ := Option.isSome_iff_exists.mp hw
  rw [le_iff hx hy] at hle
  rw [le_iff (h.units_lower hx) (h.units_lower hy)]
  exact lowered_mono h.target_le_edge (units_bounds hx).1 (units_bounds hy).2 hle

end

section
variable {d : Descent Float} {t s e : ℤ}

theorem Measured.loop_passes (h : d.Measured t s e) :
    Loop d.nextPass? id d.lower (d.target < ·) IsNumber where
  injective := Function.injective_id
  step z _ hon := ⟨d.lower z, if_pos hon⟩
  last _ _ hoff := .inl (if_neg hoff)
  keeps _ hz _ := h.isNumber_lower hz

/-- Passes end exactly if each of them is below the one before. -/
theorem Measured.exists_unrolls_passes_iff (h : d.Measured t s e) (hz : IsNumber d.surface) :
    (∃ l, Unrolls d.nextPass? d.surface l) ↔
      ∀ z, Reaches d.nextPass? d.surface z → d.target < z → d.lower z < z :=
  h.loop_passes.exists_unrolls_iff_lt hz fun _ _ hv hw hle hon =>
    ⟨float_lt_of_lt_of_le hon hle, h.lower_mono hv hw hle⟩

theorem Measured.units_retracted (h : d.Measured t s e) {z : Float} {x : ℤ}
    (hz : units? z = some x) :
    units? (d.lower z + d.retreat) = some (sum (lowered t s e x) (half s)) :=
  units_add (h.units_lower hz) (units_half h.step h.step_inRange)
    (half_inRange h.step_pos h.step_inRange)

theorem Measured.loop_strokes (h : d.Measured t s e) :
    Loop d.nextStroke? some (fun z => d.lower z + d.retreat)
      (fun z => d.target < z ∧ ¬ d.lower z ≤ d.target) IsNumber where
  injective := Option.some_injective _
  step z _ hon := ⟨⟨d.lower z, some (d.lower z + d.retreat)⟩, (if_pos hon.1).trans (if_neg hon.2)⟩
  last z _ hoff := by
    by_cases hgo : d.target < z
    · have hlow : d.lower z ≤ d.target := by
        by_contra hlow
        exact hoff ⟨hgo, hlow⟩
      exact .inr ⟨⟨d.lower z, none⟩, none, (if_pos hgo).trans (if_pos hlow), rfl, by simp⟩
    · exact .inl (if_neg hgo)
  keeps z hz _ := by
    obtain ⟨x, hx⟩ := Option.isSome_iff_exists.mp hz
    exact isNumber_of_units (h.units_retracted hx)

/-- Strokes end exactly if the bit is retracted to a lower height after each of them. -/
theorem Measured.exists_unrolls_strokes_iff (h : d.Measured t s e) (hz : IsNumber d.surface) :
    (∃ l, Unrolls d.nextStroke? (some d.surface) l) ↔
      ∀ z, Reaches d.nextStroke? (some d.surface) (some z) →
        d.target < z ∧ ¬ d.lower z ≤ d.target → d.lower z + d.retreat < z := by
  refine h.loop_strokes.exists_unrolls_iff_lt hz fun v w hv hw hle hon => ⟨⟨?_, ?_⟩, ?_⟩
  · exact float_lt_of_lt_of_le hon.1 hle
  · exact fun hlow => hon.2 (float_le_of_le_of_le (h.lower_mono hv hw hle) hlow)
  · obtain ⟨x, hx⟩ := Option.isSome_iff_exists.mp hv
    obtain ⟨y, hy⟩ := Option.isSome_iff_exists.mp hw
    have hlower := h.lower_mono hv hw hle
    rw [le_iff (h.units_lower hx) (h.units_lower hy)] at hlower
    exact (le_iff (h.units_retracted hx) (h.units_retracted hy)).mpr
      (sum_mono (units_bounds (h.units_lower hx)).1 (units_bounds (h.units_lower hy)).2 hlower _)

end

section
variable {t s e m x : ℤ}

/-- A step that is not held at the target ends at most one part in 2⁵³ of all heights too high. -/
theorem lowered_le (ht : rounded t = t) (hm : -m ≤ t ∧ x ≤ m) (hs : 0 < s) (hx : InRange x)
    (hgo : t < lowered t s e x) : 2 ^ 53 * lowered t s e x ≤ 2 ^ 53 * (x - s) + m := by
  have hlow : ¬ sum x (-s) < e := fun hlow => by
    rw [lowered, if_pos hlow] at hgo
    exact lt_irrefl t hgo
  rw [lowered, if_neg hlow, sum, if_pos hx, ← sub_eq_add_neg] at hgo ⊢
  have hbounds := rounded_bounds t
  have herror := nearestInt_error (x - s)
  have hbelow : t ≤ x - s := by
    by_contra hbelow
    have hmono := rounded_mono (not_le.mp hbelow).le
    omega
  have habs : |x - s| ≤ m := abs_le.mpr ⟨by omega, by omega⟩
  unfold rounded at *
  omega

/-- A step of more than one part in 2⁵³ of all heights is not lost to rounding. -/
theorem lowered_lt (ht : rounded t = t) (hm : -m ≤ t ∧ x ≤ m) (hs : 0 < s) (hms : m < 2 ^ 53 * s)
    (hx : InRange x) (hgo : t < x) : lowered t s e x < x := by
  by_cases hlow : t < lowered t s e x
  · have hle := lowered_le ht hm hs hx hlow
    omega
  · omega

/-- Half a step up after a step of more than one part in 2⁵⁰ leaves the height lower. -/
theorem retracted_lt (ht : rounded t = t) (hm : -m ≤ t ∧ x ≤ m) (hs : 0 < s) (hms : m < 2 ^ 50 * s)
    (hx : InRange x) (hgo : t < lowered t s e x) : sum (lowered t s e x) (half s) < x := by
  have hle := lowered_le ht hm hs hx hgo
  have hbounds := rounded_bounds t
  obtain ⟨hnonneg, hless, hhalf⟩ := half_bounds hs
  have hrange : InRange (lowered t s e x) := by omega
  have herror := nearestInt_error (lowered t s e x + half s)
  have habs : |lowered t s e x + half s| ≤ m := abs_le.mpr ⟨by omega, by omega⟩
  rw [sum, if_pos hrange]
  unfold rounded
  omega

end

section
variable {d : Descent Float} {t s e m x : ℤ}

theorem Measured.rounded_target (h : d.Measured t s e) : rounded t = t :=
  rounded_units (inFormat_unpack _) h.target

theorem Measured.exists_unrolls_passes (h : d.Measured t s e) (hx : units? d.surface = some x)
    (hrange : InRange x) (hm : -m ≤ t ∧ x ≤ m) (hms : m < 2 ^ 53 * s) :
    ∃ l, Unrolls d.nextPass? d.surface l := by
  refine h.loop_passes.exists_unrolls_of_go_lt (isNumber_of_units hx) fun w hw hle hon => ?_
  obtain ⟨y, hy⟩ := Option.isSome_iff_exists.mp hw
  have hwithin := (le_iff hy hx).mp hle
  have habove := (lt_iff h.target hy).mp hon
  have hbelow := units_bounds h.target
  exact (lt_iff (h.units_lower hy) hy).mpr
    (lowered_lt h.rounded_target (by omega) h.step_pos hms (by omega) habove)

theorem Measured.exists_unrolls_strokes (h : d.Measured t s e) (hx : units? d.surface = some x)
    (hrange : InRange x) (hm : -m ≤ t ∧ x ≤ m) (hms : m < 2 ^ 50 * s) :
    ∃ l, Unrolls d.nextStroke? (some d.surface) l := by
  refine h.loop_strokes.exists_unrolls_of_go_lt (isNumber_of_units hx) fun w hw hle hon => ?_
  obtain ⟨y, hy⟩ := Option.isSome_iff_exists.mp hw
  have hwithin := (le_iff hy hx).mp hle
  have habove := (lt_iff h.target hy).mp hon.1
  have hplunge := not_le.mp (mt (le_iff (h.units_lower hy) h.target).mpr hon.2)
  have hbelow := units_bounds h.target
  exact (lt_iff (h.units_retracted hy) hy).mpr
    (retracted_lt h.rounded_target (by omega) h.step_pos hms (by omega) hplunge)

theorem Measured.not_step_le (h : d.Measured t s e) : ¬ d.step ≤ 0 := by
  rw [le_iff h.step units?_zero]
  exact not_le.mpr h.step_pos

theorem size_le_fuel (d : Descent Float) : UInt64.size ≤ d.fuel := Nat.le_add_left _ _

theorem Measured.unrolls_passes (h : d.Measured t s e) :
    Unrolls d.nextPass? d.surface d.passes ↔ ∃ l, Unrolls d.nextPass? d.surface l := by
  refine ⟨fun hl => ⟨_, hl⟩, fun ⟨l, hl⟩ => ?_⟩
  have hlength := hl.length_lt_card.trans_le (card_float_le.trans d.size_le_fuel)
  rwa [passes, if_neg h.not_step_le, hl.unfold_eq hlength.le]

theorem Measured.unrolls_strokes (h : d.Measured t s e) :
    Unrolls d.nextStroke? (some d.surface) d.strokes ↔
      ∃ l, Unrolls d.nextStroke? (some d.surface) l := by
  refine ⟨fun hl => ⟨_, hl⟩, fun ⟨l, hl⟩ => ?_⟩
  have hlength := hl.length_lt_card
  rw [Finite.card_option] at hlength
  have hfuel := card_float_le.trans d.size_le_fuel
  rwa [strokes, if_neg h.not_step_le, hl.unfold_eq (by omega)]

end
end Descent

namespace PocketPlan
open Descent

/-- The way inward from the rim as a way down. -/
def descent (p : PocketPlan Float) : Descent Float := ⟨p.topRadius, p.bottomRadius, p.step⟩

variable {p : PocketPlan Float} {t s e m x : ℤ}

theorem loop_rings (h : p.descent.Measured t s e) :
    Loop p.nextRing? some p.inner (fun r => ¬ r ≤ p.bottomRadius + tolerance) IsNumber where
  injective := Option.some_injective _
  step r _ hon := ⟨⟨r, p.wallDepth r⟩, by rw [nextRing?, if_neg hon]⟩
  last r _ hoff :=
    .inr ⟨⟨r, p.wallDepth r⟩, none, by rw [nextRing?, if_pos (not_not.mp hoff)], rfl, by simp⟩
  keeps _ hr _ := h.isNumber_lower hr

/-- Rings end exactly if each of them is smaller than the one before. -/
theorem exists_unrolls_rings_iff (h : p.descent.Measured t s e) (hz : IsNumber p.topRadius) :
    (∃ l, Unrolls p.nextRing? (some p.topRadius) l) ↔
      ∀ r, Reaches p.nextRing? (some p.topRadius) (some r) →
        ¬ r ≤ p.bottomRadius + tolerance → p.inner r < r :=
  (loop_rings h).exists_unrolls_iff_lt hz fun _ _ hv hw hle hon =>
    ⟨fun hlow => hon (float_le_of_le_of_le hle hlow), h.lower_mono hv hw hle⟩

theorem exists_unrolls_rings (h : p.descent.Measured t s e) (hx : units? p.topRadius = some x)
    (hrange : InRange x) (hm : -m ≤ t ∧ x ≤ m) (hms : m < 2 ^ 53 * s) :
    ∃ l, Unrolls p.nextRing? (some p.topRadius) l := by
  refine (loop_rings h).exists_unrolls_of_go_lt (isNumber_of_units hx) fun w hw hle hon => ?_
  obtain ⟨y, hy⟩ := Option.isSome_iff_exists.mp hw
  have hwithin := (le_iff hy hx).mp hle
  have habove := not_le.mp (mt (le_iff hy h.edge).mpr hon)
  have hedge := h.target_le_edge
  have hbelow := units_bounds h.target
  exact (lt_iff (h.units_lower hy) hy).mpr
    (lowered_lt h.rounded_target (by omega) h.step_pos hms (by omega) (by omega))

theorem unrolls_rings (p : PocketPlan Float) :
    Unrolls p.nextRing? (some p.topRadius) p.rings ↔
      ∃ l, Unrolls p.nextRing? (some p.topRadius) l := by
  refine ⟨fun hl => ⟨_, hl⟩, fun ⟨l, hl⟩ => ?_⟩
  have hlength := hl.length_lt_card
  rw [Finite.card_option] at hlength
  have hfuel : UInt64.size ≤ p.fuel := Nat.le_add_left _ _
  have hcard := card_float_le
  rwa [rings, hl.unfold_eq (by omega)]

end PocketPlan
end Toolpath
