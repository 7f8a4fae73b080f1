import Mathlib.Data.List.Range
import Toolpath.Proofs.Plan.StepDown

/-! Exact passes and strokes one by one: how many there are, where each of them is, and how far it
is from the one before. -/
namespace Toolpath
open Scalar

/-- Neighbours of a sequence with one more element at its end. -/
theorem isChain_range_concat {β : Type} {R : β → β → Prop} {f : ℕ → β} {n : ℕ} {b : β}
    (hstep : ∀ k, k + 1 < n → R (f k) (f (k + 1))) (hlast : ∀ k, k + 1 = n → R (f k) b) :
    ((List.range n).map f ++ [b]).IsChain R := by
  rw [List.isChain_append]
  refine ⟨?_, .singleton b, ?_⟩
  · rw [List.isChain_map, List.isChain_range]
    intro k hk
    exact hstep k (by omega)
  · intro x hx y hy
    obtain rfl : b = y := Option.some.inj hy
    cases n with
    | zero => cases hx
    | succ k =>
      rw [List.range_succ, List.map_append, List.map_singleton, List.getLast?_concat] at hx
      obtain rfl := Option.some.inj hx
      exact hlast k rfl

namespace Descent
variable {d : Descent ℝ}

/-- Passes that go down by full steps as long as they stay at least `10⁻⁹` above the target, and
from there to the target. -/
structure Scheduled (d : Descent ℝ) (passes : List ℝ) : Prop where
  count : IsLeast {n : ℕ | 0 < n ∧ d.surface - n * d.step < d.target + 1 / 10 ^ 9} passes.length
  full : ∀ k, k + 1 < passes.length → passes[k]? = some (d.surface - (k + 1) * d.step)
  last : passes.getLast? = some d.target
  falls : (d.surface :: passes).Pairwise (· > ·)
  above : ∀ z ∈ passes, d.target ≤ z
  drop_le : (d.surface :: passes).IsChain fun a b => a - b ≤ d.step + 1 / 10 ^ 9
  le_drop : 1 < passes.length →
    (d.surface :: passes).IsChain fun a b => min d.step (1 / 10 ^ 9) ≤ a - b

section
variable {n : ℕ}

theorem HeldAfter.isLeast_count (hn : d.HeldAfter d.step n) :
    IsLeast {n : ℕ | 0 < n ∧ d.surface - n * d.step < d.target + 1 / 10 ^ 9} (n + 1) := by
  have hshift (k : ℕ) :
      d.surface - (k + 1 : ℕ) * d.step = d.surface - d.step - k * d.step := by
    rw [Nat.cast_succ]
    ring
  constructor
  · refine ⟨n.succ_pos, ?_⟩
    rw [hshift, ← tolerance_real]
    exact hn.held
  · rintro m ⟨hpos, hm⟩
    obtain ⟨k, rfl⟩ := Nat.exists_eq_add_one.mpr hpos
    rw [hshift, ← tolerance_real] at hm
    exact Nat.succ_le_succ (hn.2 hm)

theorem surface_cons_passes (hs : 0 < d.step) (h : d.target < d.surface)
    (hn : d.HeldAfter d.step n) : d.surface :: d.passes =
      (List.range (n + 1)).map (fun k : ℕ => d.surface - k * d.step) ++ [d.target] := by
  rw [passes_eq hs h hn, List.range_succ_eq_map]
  simp [Function.comp_def]

/-- Neighbours are a full step apart, except for the last two. -/
theorem isChain_surface_cons_passes {R : ℝ → ℝ → Prop} (hs : 0 < d.step)
    (h : d.target < d.surface) (hn : d.HeldAfter d.step n)
    (hstep : ∀ k < n, R (d.surface - k * d.step) (d.surface - (k + 1) * d.step))
    (hlast : R (d.surface - n * d.step) d.target) : (d.surface :: d.passes).IsChain R := by
  rw [surface_cons_passes hs h hn]
  refine isChain_range_concat (fun k hk => ?_) fun k hk => ?_
  · rw [Nat.cast_succ]
    exact hstep k (Nat.succ_lt_succ_iff.mp hk)
  · obtain rfl := Nat.succ_injective hk
    exact hlast

theorem scheduled_passes (hs : 0 < d.step) (h : d.target < d.surface)
    (hn : d.HeldAfter d.step n) : d.Scheduled d.passes := by
  have ht := tolerance_pos
  have hpasses := passes_eq hs h hn
  have hlength : d.passes.length = n + 1 := by simp [hpasses]
  have hfar := hn.target_lt le_rfl h le_rfl
  have hheld := hn.held
  have hdown (k : ℕ) : d.surface - k * d.step - (d.surface - (k + 1) * d.step) = d.step := by ring
  constructor
  case count =>
    rw [hlength]
    exact hn.isLeast_count
  case full =>
    intro k hk
    rw [hlength] at hk
    have hk : k < n := Nat.succ_lt_succ_iff.mp hk
    rw [hpasses, List.getElem?_append_left (by simpa using hk)]
    simp [hk]
  case last => exact getLast?_passes hs h
  case falls =>
    apply List.isChain_iff_pairwise.mp
    refine isChain_surface_cons_passes hs h hn (fun k _ => ?_) hfar
    have hdrop := hdown k
    show d.surface - (k + 1) * d.step < d.surface - k * d.step
    linarith
  case above => exact fun z hz => target_le_of_mem_passes hz
  case drop_le =>
    refine isChain_surface_cons_passes hs h hn (fun k _ => ?_) ?_
    · rw [hdown, ← tolerance_real]
      linarith
    · rw [← tolerance_real]
      linarith
  case le_drop =>
    intro hmany
    refine isChain_surface_cons_passes hs h hn (fun k _ => ?_) ?_
    · rw [hdown]
      exact min_le_left _ _
    · -- the step before the last one was not held
      obtain ⟨k, rfl⟩ : ∃ k, n = k + 1 := Nat.exists_eq_add_one.mpr (by omega)
      have hfree := hn.free k.lt_succ_self
      apply (min_le_right _ _).trans
      rw [← tolerance_real, Nat.cast_succ]
      linarith

end

/-- Passes end, there is none exactly if the target is not below the surface, and else they are at
the heights of the schedule. -/
theorem passes_scheduled (hs : 0 < d.step) : Unrolls d.nextPass? d.surface d.passes ∧
    (d.passes = [] ↔ d.surface ≤ d.target) ∧
    (d.target < d.surface → d.Scheduled d.passes) := by
  obtain ⟨n, hn⟩ := d.exists_heldAfter hs
  rcases lt_or_ge d.target d.surface with h | h
  · have hne : d.passes ≠ [] := passes_ne_nil hs.not_ge h
    refine ⟨?_, iff_of_false hne h.not_ge, fun _ => scheduled_passes hs h hn⟩
    rw [passes_eq hs h hn]
    exact unrolls_passes h hn
  · have hnil : d.passes = [] := passes_of_not_lt h.not_gt
    refine ⟨?_, iff_of_true hnil h, fun hlt => absurd h hlt.not_ge⟩
    rw [hnil]
    exact .done (if_neg h.not_gt)

/-- Three passes of a tenth, the last of them cut short. -/
theorem passes_scheduled_short : (0 : ℝ) < 1 / 10 ∧
    (⟨0, -1 / 4, 1 / 10⟩ : Descent ℝ).passes.length = 3 ∧
    (⟨0, -1 / 4, 1 / 10⟩ : Descent ℝ).passes[1]? = some (-1 / 5 : ℝ) ∧
    (⟨0, -1 / 4, 1 / 10⟩ : Descent ℝ).passes.getLast? = some (-1 / 4 : ℝ) := by
  have hs : (0 : ℝ) < 1 / 10 := by norm_num
  obtain ⟨-, -, hbelow⟩ := passes_scheduled (d := ⟨0, -1 / 4, 1 / 10⟩) hs
  have hschedule := hbelow (by norm_num)
  have hthree : IsLeast {n : ℕ | 0 < n ∧ (0 : ℝ) - n * (1 / 10) < -1 / 4 + 1 / 10 ^ 9} 3 := by
    constructor
    · norm_num
    · rintro n ⟨-, hn⟩
      by_contra hfew
      have htwo : (n : ℝ) ≤ 2 := by exact_mod_cast Nat.le_of_lt_succ (not_le.mp hfew)
      linarith
  have hlength := hschedule.count.unique hthree
  have hsecond := hschedule.full 1 (by rw [hlength]; norm_num)
  have hheight : (0 : ℝ) - ((1 : ℕ) + 1) * (1 / 10) = -1 / 5 := by norm_num
  rw [hheight] at hsecond
  exact ⟨hs, hlength, hsecond, hschedule.last⟩

/-- Strokes of a full step, each from half a step above the one before, as long as they stay at
least `10⁻⁹` above the target, and one to the target. -/
structure Pecked (d : Descent ℝ) (strokes : List (Stroke ℝ)) : Prop where
  count : IsLeast {n : ℕ | d.surface - d.step - n * (d.step / 2) < d.target + 1 / 10 ^ 9}
    (strokes.length - 1)
  full : ∀ k, k + 1 < strokes.length → strokes[k]? =
    some ⟨d.surface - d.step - k * (d.step / 2),
      some (d.surface - d.step - k * (d.step / 2) + d.step / 2)⟩
  last : strokes.getLast? = some ⟨d.target, none⟩
  first : ∀ s ∈ strokes.head?, d.surface - s.plunge ≤ d.step + 1 / 10 ^ 9
  reach : strokes.IsChain fun a b => ∃ z, a.retract = some z ∧ z - b.plunge ≤ d.step + 1 / 10 ^ 9
  above : ∀ s ∈ strokes, d.target ≤ s.plunge
  below : ∀ s ∈ strokes, ∀ z ∈ s.retract, z ≤ d.surface - d.step / 2

section
variable {n : ℕ}

theorem isChain_strokes (hs : 0 < d.step) (h : d.target < d.surface)
    (hn : d.HeldAfter (d.step / 2) n) :
    d.strokes.IsChain fun a b => ∃ z, a.retract = some z ∧ z - b.plunge ≤ d.step + tolerance := by
  have ht := tolerance_pos
  have hheld := hn.held
  rw [strokes_eq hs h hn]
  refine isChain_range_concat (fun k _ => ⟨_, rfl, ?_⟩) fun k hk => ⟨_, rfl, ?_⟩
  · show d.surface - (k + 1) * d.retreat -
      (d.surface - d.step - (k + 1 : ℕ) * d.retreat) ≤ d.step + tolerance
    rw [Nat.cast_succ]
    linarith
  · show d.surface - (k + 1) * d.retreat - d.target ≤ d.step + tolerance
    rw [← hk, Nat.cast_succ] at hheld
    rw [retreat_real]
    linarith

theorem head_strokes_le (hs : 0 < d.step) (h : d.target < d.surface)
    (hn : d.HeldAfter (d.step / 2) n) :
    ∀ s ∈ d.strokes.head?, d.surface - s.plunge ≤ d.step + tolerance := by
  have ht := tolerance_pos
  have hheld := hn.held
  intro s hfirst
  rw [strokes_eq hs h hn] at hfirst
  cases n with
  | zero =>
    obtain rfl := Option.some.inj hfirst
    rw [Nat.cast_zero] at hheld
    show d.surface - d.target ≤ d.step + tolerance
    linarith
  | succ n =>
    rw [List.range_succ_eq_map] at hfirst
    obtain rfl := Option.some.inj hfirst
    show d.surface - (d.surface - d.step - (0 : ℕ) * d.retreat) ≤ d.step + tolerance
    rw [Nat.cast_zero]
    linarith

theorem retract_le_of_mem_strokes (hs : 0 < d.step) (h : d.target < d.surface)
    (hn : d.HeldAfter (d.step / 2) n) {s : Stroke ℝ} (hmem : s ∈ d.strokes) :
    ∀ z ∈ s.retract, z ≤ d.surface - d.step / 2 := by
  intro z hz
  rw [strokes_eq hs h hn] at hmem
  rcases List.mem_append.mp hmem with hmem | hmem
  · obtain ⟨k, -, rfl⟩ := List.mem_map.mp hmem
    obtain rfl := Option.some.inj hz
    have hdown : 0 ≤ (k : ℝ) * (d.step / 2) := mul_nonneg k.cast_nonneg (half_pos hs).le
    rw [retreat_real]
    linarith
  · rw [List.mem_singleton.mp hmem] at hz
    cases hz

theorem pecked_strokes (hs : 0 < d.step) (h : d.target < d.surface)
    (hn : d.HeldAfter (d.step / 2) n) : d.Pecked d.strokes := by
  have hstrokes := strokes_eq hs h hn
  have hlength : d.strokes.length = n + 1 := by simp [hstrokes]
  constructor
  case count =>
    rw [hlength, Nat.add_sub_cancel, ← tolerance_real]
    exact hn
  case full =>
    intro k hk
    rw [hlength] at hk
    have hk : k < n := Nat.succ_lt_succ_iff.mp hk
    have hretract : d.surface - d.step - k * (d.step / 2) + d.step / 2 =
        d.surface - (k + 1) * (d.step / 2) := by ring
    rw [hstrokes, List.getElem?_append_left (by simpa using hk), hretract]
    simp [hk, fullStroke, retreat_real]
  case last => exact getLast?_strokes hs h
  case first =>
    rw [← tolerance_real]
    exact head_strokes_le hs h hn
  case reach =>
    rw [← tolerance_real]
    exact isChain_strokes hs h hn
  case above => exact fun s hmem => (target_le_of_mem_strokes hs hmem).1
  case below => exact fun s hmem => retract_le_of_mem_strokes hs h hn hmem

end

/-- Whenever the bit was retracted, it is still above the target. -/
theorem target_lt_of_reaches (hs : 0 < d.step) (h : d.target < d.surface) {state : Option ℝ}
    (hstate : Reaches d.nextStroke? (some d.surface) state) : ∀ top ∈ state, d.target < top := by
  induction hstate with
  | start => simpa using h
  | @step before after stroke _ hnext ih =>
    cases before with
    | none => cases hnext
    | some top =>
      rcases nextStroke?_cases hs (ih top rfl) with hlast | ⟨z, hz, -, hfull, -⟩
      · cases hlast.symm.trans hnext
        simp
      · cases hfull.symm.trans hnext
        simpa using hz

/-- Strokes end, there is none exactly if the target is not below the surface, and else they peck
down to the target. They end with the stroke to the target, since the bit is never retracted to a
height that is not above it. -/
theorem strokes_pecked (hs : 0 < d.step) :
    Unrolls d.nextStroke? (some d.surface) d.strokes ∧
    (d.strokes = [] ↔ d.surface ≤ d.target) ∧
    (d.target < d.surface → d.Pecked d.strokes ∧
      ∀ top, Reaches d.nextStroke? (some d.surface) (some top) → d.target < top) := by
  obtain ⟨n, hn⟩ := d.exists_heldAfter (half_pos hs)
  rcases lt_or_ge d.target d.surface with h | h
  · have hstrokes := strokes_eq hs h hn
    have hne : d.strokes ≠ [] := by
      rw [hstrokes]
      exact List.concat_ne_nil _ _
    refine ⟨?_, iff_of_false hne h.not_ge, fun _ => ⟨pecked_strokes hs h hn, fun top htop => ?_⟩⟩
    · rw [hstrokes]
      exact unrolls_strokes hs h hn
    · exact target_lt_of_reaches hs h htop top rfl
  · have hnil := strokes_of_not_lt h.not_gt
    refine ⟨?_, iff_of_true hnil h, fun hlt => absurd h hlt.not_ge⟩
    rw [hnil]
    exact .done (if_neg h.not_gt)

/-- Four strokes of a fiftieth, of which the last one just reaches the target. -/
theorem strokes_pecked_even : (0 : ℝ) < 1 / 50 ∧
    (⟨0, -1 / 20, 1 / 50⟩ : Descent ℝ).strokes[1]? = some ⟨(-3 / 100 : ℝ), some (-1 / 50)⟩ ∧
    (⟨0, -1 / 20, 1 / 50⟩ : Descent ℝ).strokes.getLast? = some ⟨(-1 / 20 : ℝ), none⟩ := by
  have hs : (0 : ℝ) < 1 / 50 := by norm_num
  obtain ⟨-, -, hbelow⟩ := strokes_pecked (d := ⟨0, -1 / 20, 1 / 50⟩) hs
  obtain ⟨hpecked, -⟩ := hbelow (by norm_num)
  have hthree : IsLeast
      {n : ℕ | (0 : ℝ) - 1 / 50 - n * (1 / 50 / 2) < -1 / 20 + 1 / 10 ^ 9} 3 := by
    constructor
    · norm_num
    · intro n hn
      by_contra hfew
      have htwo : (n : ℝ) ≤ 2 := by exact_mod_cast Nat.le_of_lt_succ (not_le.mp hfew)
      have hheld : (0 : ℝ) - 1 / 50 - n * (1 / 50 / 2) < -1 / 20 + 1 / 10 ^ 9 := hn
      linarith
  have hcount := hpecked.count.unique hthree
  have hsecond := hpecked.full 1 (by omega)
  have hplunge : (0 : ℝ) - 1 / 50 - (1 : ℕ) * (1 / 50 / 2) = -3 / 100 := by norm_num
  have hretract : (-3 / 100 : ℝ) + 1 / 50 / 2 = -1 / 50 := by norm_num
  rw [hplunge, hretract] at hsecond
  exact ⟨hs, hsecond, hpecked.last⟩

end Descent
end Toolpath
