import Toolpath.Proofs.Scalar.Exact
import Toolpath.Plan.StepDown
import Toolpath.Proofs.Plan.Unrolling

/-! Exact descents stay above their target and end there. -/
namespace Toolpath
open Scalar

namespace Descent

theorem passes_of_not_lt {α : Type} [Scalar α] {d : Descent α} (h : ¬ d.target < d.surface) :
    d.passes = [] := by
  have hn : d.nextPass? d.surface = none := if_neg h
  unfold passes
  rw [unfold_of_none hn, ite_self]

theorem strokes_of_not_lt {α : Type} [Scalar α] {d : Descent α} (h : ¬ d.target < d.surface) :
    d.strokes = [] := by
  have hn : d.nextStroke? (some d.surface) = none := if_neg h
  unfold strokes
  rw [unfold_of_none hn, ite_self]

theorem fuel_pos {α : Type} [Scalar α] (d : Descent α) : 0 < d.fuel :=
  Nat.add_pos_right _ (by decide)

theorem passes_ne_nil {α : Type} [Scalar α] {d : Descent α} (hs : ¬ d.step ≤ 0)
    (h : d.target < d.surface) : d.passes ≠ [] := by
  have hnext : d.nextPass? d.surface = some (d.lower d.surface, d.lower d.surface) := if_pos h
  obtain ⟨n, hn⟩ := Nat.exists_eq_succ_of_ne_zero d.fuel_pos.ne'
  rw [passes, if_neg hs, hn, unfold_succ_of_some hnext]
  exact List.cons_ne_nil _ _

variable {d : Descent ℝ}

theorem tolerance_real : (tolerance : ℝ) = 1 / 10 ^ 9 := by
  unfold tolerance
  rw [ofRatio_real]
  norm_num

theorem tolerance_pos : (0 : ℝ) < tolerance := by
  rw [tolerance_real]
  norm_num

theorem retreat_real (d : Descent ℝ) : d.retreat = d.step / 2 := by
  unfold retreat two ofInt
  rw [ofRatio_real]
  norm_num

/-- One step lower is the target, or a full step and still above the target. -/
theorem lower_cases (d : Descent ℝ) (z : ℝ) :
    d.lower z = d.target ∨ d.lower z = z - d.step ∧ d.target < z - d.step := by
  have ht := tolerance_pos
  unfold lower
  split_ifs with h
  · exact Or.inl rfl
  · exact Or.inr ⟨rfl, by linarith⟩

/-- A step leads no further down than its size, but for what is left of the way. -/
theorem le_lower_add (d : Descent ℝ) (z : ℝ) : z ≤ d.lower z + (d.step + tolerance) := by
  have ht := tolerance_pos
  unfold lower
  split_ifs with h
  · linarith
  · linarith

theorem target_le_lower (d : Descent ℝ) (z : ℝ) : d.target ≤ d.lower z := by
  rcases d.lower_cases z with h | ⟨h, hlt⟩
  · exact h.ge
  · exact h ▸ hlt.le

theorem target_le_of_mem_passes {z : ℝ} (h : z ∈ d.passes) : d.target ≤ z := by
  unfold passes at h
  split_ifs at h
  · cases h
  · obtain ⟨top, _, hn⟩ := exists_of_mem_unfold h
    unfold nextPass? at hn
    split_ifs at hn
    cases hn
    exact d.target_le_lower top

theorem le_surface_of_mem_passes {z : ℝ} (h : z ∈ d.passes) : z ≤ d.surface := by
  unfold passes at h
  split_ifs at h with hs
  · cases h
  · refine forall_mem_unfold (I := (· ≤ d.surface)) (Q := (· ≤ d.surface))
      (fun top z next htop hn => ?_) le_rfl z h
    unfold nextPass? at hn
    split_ifs at hn with ht
    cases hn
    have hlower : d.lower top ≤ d.surface := by
      rcases d.lower_cases top with hl | ⟨hl, -⟩
      · linarith
      · linarith
    exact ⟨hlower, hlower⟩

theorem nextPass?_eq_some {α : Type} [Scalar α] {d : Descent α} {z b z' : α}
    (h : d.nextPass? z = some (b, z')) : d.target < z ∧ b = d.lower z ∧ z' = d.lower z := by
  unfold nextPass? at h
  split_ifs at h with ht
  cases h
  exact ⟨ht, rfl, rfl⟩

theorem isChain_passes (d : Descent ℝ) :
    d.passes.IsChain fun a b => a ≤ b + (d.step + tolerance) := by
  unfold passes
  split_ifs
  · exact .nil
  · refine isChain_unfold (fun z b z' b' z'' hz hz' => ?_) _ _
    obtain ⟨-, rfl, rfl⟩ := nextPass?_eq_some hz
    obtain ⟨-, rfl, -⟩ := nextPass?_eq_some hz'
    exact d.le_lower_add _

theorem surface_le_of_mem_head?_passes (d : Descent ℝ) :
    ∀ z ∈ d.passes.head?, d.surface ≤ z + (d.step + tolerance) := by
  intro z hz
  unfold passes at hz
  split_ifs at hz
  · cases hz
  · by_cases ht : d.target < d.surface
    · have hnext : d.nextPass? d.surface = some (d.lower d.surface, d.lower d.surface) := if_pos ht
      obtain ⟨n, hfuel⟩ : ∃ n, d.fuel = n + 1 := Nat.exists_eq_add_one.mpr d.fuel_pos
      rw [hfuel, unfold_succ_of_some hnext, List.head?_cons] at hz
      exact Option.some.inj hz ▸ d.le_lower_add d.surface
    · have hnone : d.nextPass? d.surface = none := if_neg ht
      rw [unfold_of_none hnone] at hz
      cases hz

/-- The fuel of a descent is enough for steps of half the size. -/
theorem way_le_fuel (hs : 0 < d.step) : d.surface - d.target ≤ d.fuel * (d.step / 2) := by
  have hc : (d.surface - d.target) / d.step ≤ ⌈(d.surface - d.target) / d.step⌉₊ := Nat.le_ceil _
  have hw : d.surface - d.target ≤ ⌈(d.surface - d.target) / d.step⌉₊ * d.step :=
    (div_le_iff₀ hs).mp hc
  have hpos : (0 : ℝ) ≤ ⌈(d.surface - d.target) / d.step⌉₊ * d.step :=
    mul_nonneg (Nat.cast_nonneg _) hs.le
  unfold fuel
  rw [ceiling_real]
  push_cast
  linarith

/-- After `n` stretches, and not before, the next step is held at the target. -/
def HeldAfter (d : Descent ℝ) (stretch : ℝ) (n : ℕ) : Prop :=
  IsLeast {n : ℕ | d.surface - d.step - n * stretch < d.target + tolerance} n

theorem exists_heldAfter (d : Descent ℝ) {stretch : ℝ} (h : 0 < stretch) :
    ∃ n, d.HeldAfter stretch n := by
  classical
  have hex : ∃ n : ℕ, d.surface - d.step - n * stretch < d.target + tolerance := by
    obtain ⟨n, hn⟩ := exists_nat_gt ((d.surface - d.step - d.target) / stretch)
    have ht := tolerance_pos
    have hway := (div_lt_iff₀ h).mp hn
    exact ⟨n, by linarith⟩
  exact ⟨Nat.find hex, Nat.isLeast_find hex⟩

namespace HeldAfter
variable {stretch : ℝ} {n k : ℕ}

theorem held (hn : d.HeldAfter stretch n) :
    d.surface - d.step - n * stretch < d.target + tolerance := hn.1

theorem free (hn : d.HeldAfter stretch n) (hk : k < n) :
    d.target + tolerance ≤ d.surface - d.step - k * stretch :=
  not_lt.mp fun hheld => (hn.2 hheld).not_gt hk

/-- Stretches that are no longer than a step stay above the target. -/
theorem target_lt (hn : d.HeldAfter stretch n) (hstretch : stretch ≤ d.step)
    (h : d.target < d.surface) (hk : k ≤ n) : d.target < d.surface - k * stretch := by
  have ht := tolerance_pos
  cases k with
  | zero => rwa [Nat.cast_zero, zero_mul, sub_zero]
  | succ k =>
    have hfree := hn.free hk
    rw [Nat.cast_succ]
    linarith

/-- The fuel of a descent is enough for stretches of half a step. -/
theorem lt_fuel (hn : d.HeldAfter stretch n) (hs : 0 < d.step) (hstretch : d.step / 2 ≤ stretch) :
    n < d.fuel := by
  cases n with
  | zero => exact d.fuel_pos
  | succ k =>
    have hfree := hn.free k.lt_succ_self
    have ht := tolerance_pos
    have hway := way_le_fuel hs
    have hdown : (k : ℝ) * (d.step / 2) ≤ k * stretch :=
      mul_le_mul_of_nonneg_left hstretch k.cast_nonneg
    have hlt : ((k + 1 : ℕ) : ℝ) * (d.step / 2) < d.fuel * (d.step / 2) := by
      rw [Nat.cast_succ]
      linarith
    exact_mod_cast lt_of_mul_lt_mul_right hlt (by linarith)

end HeldAfter

theorem nextPass?_of_free {z : ℝ} (h : d.target < z) (hfree : d.target + tolerance ≤ z - d.step) :
    d.nextPass? z = some (z - d.step, z - d.step) := by
  have hlower : d.lower z = z - d.step := if_neg hfree.not_gt
  rw [nextPass?, if_pos h, hlower]

theorem nextPass?_of_held {z : ℝ} (h : d.target < z) (hheld : z - d.step < d.target + tolerance) :
    d.nextPass? z = some (d.target, d.target) := by
  have hlower : d.lower z = d.target := if_pos hheld
  rw [nextPass?, if_pos h, hlower]

/-- Full steps, and the rest of the way. -/
theorem unrolls_passes (h : d.target < d.surface) {n : ℕ} (hn : d.HeldAfter d.step n) :
    Unrolls d.nextPass? d.surface
      ((List.range n).map (fun k : ℕ => d.surface - (k + 1) * d.step) ++ [d.target]) := by
  have hdown (k : ℕ) : d.surface - k * d.step - d.step = d.surface - (k + 1) * d.step := by ring
  have hswap (k : ℕ) : d.surface - d.step - k * d.step = d.surface - k * d.step - d.step := by ring
  refine Unrolls.of_states (u := fun k : ℕ => d.surface - k * d.step) (by simp) (fun k hk => ?_) ?_
    (if_neg (lt_irrefl _))
  · have hfree := hn.free hk
    rw [hswap] at hfree
    rw [nextPass?_of_free (hn.target_lt le_rfl h hk.le) hfree, hdown, Nat.cast_succ]
  · have hheld := hn.held
    rw [hswap] at hheld
    exact nextPass?_of_held (hn.target_lt le_rfl h le_rfl) hheld

theorem passes_eq (hs : 0 < d.step) (h : d.target < d.surface) {n : ℕ}
    (hn : d.HeldAfter d.step n) : d.passes =
      (List.range n).map (fun k : ℕ => d.surface - (k + 1) * d.step) ++ [d.target] := by
  rw [passes, if_neg (not_le.mpr hs), (unrolls_passes h hn).unfold_eq]
  simpa using hn.lt_fuel hs (by linarith)

theorem getLast?_passes (hs : 0 < d.step) (h : d.target < d.surface) :
    d.passes.getLast? = some d.target := by
  obtain ⟨n, hn⟩ := d.exists_heldAfter hs
  rw [passes_eq hs h hn, List.getLast?_concat]

theorem nextStroke?_of_free {top : ℝ} (h : d.target < top)
    (hfree : d.target + tolerance ≤ top - d.step) : d.nextStroke? (some top) =
      some (⟨top - d.step, some (top - d.step / 2)⟩, some (top - d.step / 2)) := by
  have ht := tolerance_pos
  have hlower : d.lower top = top - d.step := if_neg hfree.not_gt
  have habove : ¬ top - d.step ≤ d.target := by linarith
  have hretreat : top - d.step + d.step / 2 = top - d.step / 2 := by ring
  simp only [nextStroke?, if_pos h, hlower, if_neg habove, retreat_real, hretreat]

theorem nextStroke?_of_held {top : ℝ} (h : d.target < top)
    (hheld : top - d.step < d.target + tolerance) :
    d.nextStroke? (some top) = some (⟨d.target, none⟩, none) := by
  have hlower : d.lower top = d.target := if_pos hheld
  simp only [nextStroke?, if_pos h, hlower, if_pos le_rfl]

/-- The next stroke ends at the target, or it goes on above the target from half a step lower. -/
theorem nextStroke?_cases {top : ℝ} (hs : 0 < d.step) (ht : d.target < top) :
    d.nextStroke? (some top) = some (⟨d.target, none⟩, none) ∨
      ∃ z, d.target < z ∧ z = top - d.step / 2 ∧
        d.nextStroke? (some top) = some (⟨top - d.step, some z⟩, some z) ∧
        d.target < top - d.step := by
  have htolerance := tolerance_pos
  rcases lt_or_ge (top - d.step) (d.target + tolerance) with hheld | hfree
  · exact .inl (nextStroke?_of_held ht hheld)
  · exact .inr ⟨_, by linarith, rfl, nextStroke?_of_free ht hfree, by linarith⟩

/-- The stroke of a full step after some strokes before it. -/
noncomputable def fullStroke (d : Descent ℝ) (k : ℕ) : Stroke ℝ :=
  ⟨d.surface - d.step - k * d.retreat, some (d.surface - (k + 1) * d.retreat)⟩

/-- Strokes of a full step, each half a step below the one before, and the one to the target. -/
theorem unrolls_strokes (hs : 0 < d.step) (h : d.target < d.surface) {n : ℕ}
    (hn : d.HeldAfter (d.step / 2) n) : Unrolls d.nextStroke? (some d.surface)
      ((List.range n).map d.fullStroke ++ [⟨d.target, none⟩]) := by
  have hhalf : d.step / 2 ≤ d.step := by linarith
  have hswap (k : ℕ) : d.surface - d.step - k * (d.step / 2) =
      d.surface - k * (d.step / 2) - d.step := by ring
  have hdown (k : ℕ) : d.surface - k * (d.step / 2) - d.step / 2 =
      d.surface - (k + 1) * (d.step / 2) := by ring
  refine Unrolls.of_states (u := fun k : ℕ => some (d.surface - k * (d.step / 2))) (t := none)
    (by simp) (fun k hk => ?_) ?_ rfl
  · have hfree := hn.free hk
    rw [hswap] at hfree
    rw [nextStroke?_of_free (hn.target_lt hhalf h hk.le) hfree, hdown, fullStroke, retreat_real,
      hswap, Nat.cast_succ]
  · have hheld := hn.held
    rw [hswap] at hheld
    exact nextStroke?_of_held (hn.target_lt hhalf h le_rfl) hheld

theorem strokes_eq (hs : 0 < d.step) (h : d.target < d.surface) {n : ℕ}
    (hn : d.HeldAfter (d.step / 2) n) :
    d.strokes = (List.range n).map d.fullStroke ++ [⟨d.target, none⟩] := by
  rw [strokes, if_neg (not_le.mpr hs), (unrolls_strokes hs h hn).unfold_eq]
  simpa using hn.lt_fuel hs le_rfl

theorem getLast?_strokes (hs : 0 < d.step) (h : d.target < d.surface) :
    d.strokes.getLast? = some ⟨d.target, none⟩ := by
  obtain ⟨n, hn⟩ := d.exists_heldAfter (half_pos hs)
  rw [strokes_eq hs h hn, List.getLast?_concat]

theorem target_le_of_mem_strokes (hs : 0 < d.step) {stroke : Stroke ℝ} (h : stroke ∈ d.strokes) :
    d.target ≤ stroke.plunge ∧ ∀ z ∈ stroke.retract, d.target ≤ z := by
  unfold strokes at h
  rw [if_neg (not_le.mpr hs)] at h
  obtain ⟨top, _, hn⟩ := exists_of_mem_unfold h
  cases top with
  | none => cases hn
  | some top =>
    by_cases ht : d.target < top
    · rcases nextStroke?_cases hs ht with hnext | ⟨z, hz, -, hnext, hlt⟩
      · cases hnext.symm.trans hn
        simp
      · cases hnext.symm.trans hn
        simp [hlt.le, hz.le]
    · have hnone : d.nextStroke? (some top) = none := if_neg ht
      cases hnone.symm.trans hn

theorem le_surface_of_mem_strokes (hs : 0 < d.step) {stroke : Stroke ℝ} (h : stroke ∈ d.strokes) :
    stroke.plunge ≤ d.surface ∧ ∀ z ∈ stroke.retract, z ≤ d.surface := by
  unfold strokes at h
  rw [if_neg (not_le.mpr hs)] at h
  refine forall_mem_unfold (I := fun top => ∀ z ∈ top, z ≤ d.surface)
    (Q := fun k => k.plunge ≤ d.surface ∧ ∀ z ∈ k.retract, z ≤ d.surface)
    (fun top k next htop hn => ?_) (by simp) stroke h
  cases top with
  | none => cases hn
  | some top =>
    have htop : top ≤ d.surface := htop top rfl
    by_cases ht : d.target < top
    · rcases nextStroke?_cases hs ht with hnext | ⟨z, -, hz, hnext, -⟩
      · cases hnext.symm.trans hn
        exact ⟨⟨by linarith, by simp⟩, by simp⟩
      · cases hnext.symm.trans hn
        have hretract : z ≤ d.surface := by linarith
        have hplunge : top - d.step ≤ d.surface := by linarith
        exact ⟨⟨hplunge, by simpa using hretract⟩, by simpa using hretract⟩
    · have hnone : d.nextStroke? (some top) = none := if_neg ht
      cases hnone.symm.trans hn

end Descent
end Toolpath
