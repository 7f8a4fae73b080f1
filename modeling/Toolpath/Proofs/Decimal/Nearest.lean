import Mathlib.Algebra.Order.Round
import Mathlib.Data.Rat.Floor
import Mathlib.Tactic.FieldSimp
import Mathlib.Tactic.Ring
import Toolpath.Decimal.Fixed
import Toolpath.Proofs.Scalar.Nearest

/-!
Values rounded to decimal places: to the nearest multiple of the last place, and on a tie to the
even one. Rounding keeps order, so that a value has one such multiple.
-/
namespace Toolpath.Decimal

/-- The nearest to a value of all multiples of the last place, and of two the even one. -/
structure IsNearest (places : ℕ) (v : ℚ) (k : ℤ) : Prop where
  nearest (j : ℤ) : |v - k / 10 ^ places| ≤ |v - j / 10 ^ places|
  even (j : ℤ) (hne : j ≠ k) (htie : |v - j / 10 ^ places| = |v - k / 10 ^ places|) : Even k

variable {places : ℕ} {v w : ℚ} {k l : ℤ}

theorem abs_sub_div {d : ℚ} (hd : 0 < d) (v a : ℚ) : |v - a / d| = |v * d - a| / d := by
  have hdiv : v - a / d = (v * d - a) / d := by field_simp
  rw [hdiv, abs_div, abs_of_pos hd]

theorem abs_sub_div_places (places : ℕ) (v : ℚ) (j : ℤ) :
    |v - j / 10 ^ places| = |v * 10 ^ places - j| / 10 ^ places :=
  abs_sub_div (by positivity) v j

/-- Two whole numbers are not both closer than a half. -/
theorem one_le_abs_sub_add_abs_sub {j k : ℤ} (hne : j ≠ k) (v : ℚ) :
    1 ≤ |v - j| + |v - k| := by
  have hone : (1 : ℚ) ≤ |((j - k : ℤ) : ℚ)| := by
    exact_mod_cast Int.one_le_abs (sub_ne_zero.mpr hne)
  calc (1 : ℚ) ≤ |(j : ℚ) - k| := by rwa [Int.cast_sub] at hone
    _ ≤ |j - v| + |v - k| := abs_sub_le _ _ _
    _ = |v - j| + |v - k| := by rw [abs_sub_comm]

/-- Nearest is what is at most half of the last place away. -/
theorem isNearest_iff : IsNearest places v k ↔
    |v * 10 ^ places - k| ≤ 1 / 2 ∧ (|v * 10 ^ places - k| = 1 / 2 → Even k) := by
  have hpos : (0 : ℚ) < 10 ^ places := by positivity
  constructor
  · rintro ⟨hnearest, heven⟩
    simp only [abs_sub_div_places, div_le_div_iff_of_pos_right hpos, div_left_inj' hpos.ne']
      at hnearest heven
    refine ⟨(hnearest _).trans (abs_sub_round _), fun htie => ?_⟩
    rcases (abs_eq (by norm_num)).mp htie with hup | hdown
    · refine heven (k + 1) (by omega) ?_
      have hother : v * 10 ^ places - (k + 1 : ℤ) = -(1 / 2) := by
        push_cast
        linarith
      rw [hother, hup, abs_neg]
    · refine heven (k - 1) (by omega) ?_
      have hother : v * 10 ^ places - (k - 1 : ℤ) = 1 / 2 := by
        push_cast
        linarith
      rw [hother, hdown, abs_neg]
  · rintro ⟨hhalf, heven⟩
    constructor
    · intro j
      rw [abs_sub_div_places, abs_sub_div_places, div_le_div_iff_of_pos_right hpos]
      rcases eq_or_ne j k with rfl | hne
      · exact le_rfl
      · linarith [one_le_abs_sub_add_abs_sub hne (v * 10 ^ places)]
    · intro j hne htie
      rw [abs_sub_div_places, abs_sub_div_places, div_left_inj' hpos.ne'] at htie
      exact heven (by linarith [one_le_abs_sub_add_abs_sub hne (v * 10 ^ places)])

theorem IsNearest.neg (h : IsNearest places v k) : IsNearest places (-v) (-k) := by
  rw [isNearest_iff] at h ⊢
  have habs : |-v * 10 ^ places - (-k : ℤ)| = |v * 10 ^ places - k| := by
    rw [← abs_neg]
    congr 1
    push_cast
    ring
  rw [habs, even_neg]
  exact h

/-- A larger value is not rounded to a smaller multiple. -/
theorem IsNearest.mono (hk : IsNearest places v k) (hl : IsNearest places w l) (h : v ≤ w) :
    k ≤ l := by
  obtain ⟨hkhalf, hkeven⟩ := isNearest_iff.mp hk
  obtain ⟨hlhalf, hleven⟩ := isNearest_iff.mp hl
  have hscaled : v * 10 ^ places ≤ w * 10 ^ places :=
    mul_le_mul_of_nonneg_right h (by positivity)
  by_contra hlt
  have hnext : l + 1 ≤ k := by omega
  have hcast : (l + 1 : ℚ) ≤ k := by exact_mod_cast hnext
  have hlow := (abs_le.mp hkhalf).1
  have hhigh := (abs_le.mp hlhalf).2
  -- both values are half-way between the same two multiples, of which one is odd
  have hvtie : v * 10 ^ places - k = -(1 / 2) := by linarith
  have hwtie : w * 10 ^ places - l = 1 / 2 := by linarith
  have hsucc : k = l + 1 := by
    have hcast' : (k : ℚ) ≤ l + 1 := by linarith
    have hle : k ≤ l + 1 := by exact_mod_cast hcast'
    omega
  have hk' := hkeven (by rw [hvtie, abs_neg, abs_of_pos (by norm_num)])
  have hl' := hleven (by rw [hwtie, abs_of_pos (by norm_num)])
  rw [hsucc, Int.even_add_one] at hk'
  exact hk' hl'

theorem IsNearest.unique (hk : IsNearest places v k) (hl : IsNearest places v l) : k = l :=
  le_antisymm (hk.mono hl le_rfl) (hl.mono hk le_rfl)

theorem IsNearest.iff_eq (hk : IsNearest places v k) : IsNearest places v l ↔ l = k := by
  constructor
  · exact fun hl => hl.unique hk
  · rintro rfl
    exact hk

/-! ### Rounding -/

theorem roundEven_eq_quotient (n d : ℕ) : roundEven n d = Toolpath.Binary.quotient n d := by
  unfold roundEven Toolpath.Binary.quotient
  dsimp only
  rcases lt_trichotomy (2 * (n % d)) d with h | h | h
  · rw [compare_lt_iff_lt.mpr h, if_pos h]
  · rw [compare_eq_iff_eq.mpr h, if_neg h.not_lt, if_neg h.not_gt]
    change (if n / d % 2 = 0 then n / d else n / d + 1) = n / d + n / d % 2
    split_ifs <;> omega
  · rw [compare_gt_iff_gt.mpr h, if_neg h.not_gt, if_pos h]

/-- A rounded quotient is nearest to the quotient. -/
theorem isNearest_roundEven {n d : ℕ} (hd : 0 < d) (h : v * 10 ^ places = n / d) :
    IsNearest places v (roundEven n d) := by
  have hpos : (0 : ℚ) < d := Nat.cast_pos.mpr hd
  have hdist : |v * 10 ^ places - (roundEven n d : ℤ)| = |(n : ℚ) - roundEven n d * d| / d := by
    rw [h, abs_sub_comm, abs_sub_div hpos, abs_sub_comm, Int.cast_natCast]
  rw [isNearest_iff, hdist, roundEven_eq_quotient, Int.even_coe_nat]
  have hle := Toolpath.Binary.quotient_mul_le n d
  have hge := Toolpath.Binary.le_quotient_mul hd n
  constructor
  · rw [div_le_iff₀ hpos, abs_le]
    have hle' : (2 * (Toolpath.Binary.quotient n d * d) : ℚ) ≤ 2 * n + d := by exact_mod_cast hle
    have hge' : (2 * n : ℚ) ≤ 2 * (Toolpath.Binary.quotient n d * d) + d := by exact_mod_cast hge
    constructor <;> linarith
  · intro htie
    apply Toolpath.Binary.even_quotient hd
    rw [div_eq_iff hpos.ne', abs_eq (by positivity)] at htie
    rcases htie with htie | htie
    · left
      have hcast : (2 * n : ℚ) = 2 * (Toolpath.Binary.quotient n d * d) + d := by linarith
      exact_mod_cast hcast
    · right
      have hcast : (2 * n + d : ℚ) = 2 * (Toolpath.Binary.quotient n d * d) := by linarith
      exact_mod_cast hcast

theorem two_zpow_eq (q : ℤ) : (2 : ℚ) ^ q = 2 ^ q.toNat / 2 ^ (-q).toNat := by
  rw [← zpow_natCast, ← zpow_natCast, ← zpow_sub₀ two_ne_zero, Int.toNat_sub_toNat_neg]

/-- A significand under an exponent is rounded to the nearest multiple. -/
theorem isNearest_inPlaces (places m : ℕ) (q : ℤ) :
    IsNearest places (m * 2 ^ q) (inPlaces places m q) := by
  unfold inPlaces
  refine isNearest_roundEven (Nat.pow_pos two_pos) ?_
  rw [two_zpow_eq, Nat.pow_eq, Nat.pow_eq, Nat.pow_eq]
  push_cast
  ring

end Toolpath.Decimal
