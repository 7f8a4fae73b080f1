import Mathlib.Tactic.Ring
import Toolpath.Outline.Cursor
import Toolpath.Proofs.Scalar.Exact

/-! Exact angles as their cosines and sines are taken: one that is close to a whole number of
quarter turns is taken for that. -/
namespace Toolpath
open Scalar

theorem quarterTurn_real : (quarterTurn : ℝ) = Real.pi / 2 := by
  unfold quarterTurn
  rw [two_real]
  rfl

theorem fullTurn_real : (fullTurn : ℝ) = 2 * Real.pi := by
  unfold fullTurn
  rw [two_real]
  rfl

theorem fullTurn_eq : (fullTurn : ℝ) = 4 * quarterTurn := by
  rw [fullTurn_real, quarterTurn_real]
  ring

theorem quarterTurn_pos : (0 : ℝ) < quarterTurn := by
  rw [quarterTurn_real]
  exact half_pos Real.pi_pos

theorem fullTurn_pos : (0 : ℝ) < fullTurn := by
  rw [fullTurn_real]
  exact Real.two_pi_pos

theorem abs_real (a : ℝ) : Scalar.abs a = |a| := by
  unfold Scalar.abs
  split_ifs with h
  · exact (abs_of_neg h).symm
  · exact (abs_of_nonneg (not_lt.mp h)).symm

/-- A whole number less than a half away is the nearest one. -/
theorem round_eq_of_near {x : ℝ} {n : ℤ} (h : |x - n| < 1 / 2) : Scalar.round x = n := by
  obtain ⟨hlow, hhigh⟩ := abs_lt.mp h
  change (if x < 0 then -((⌊-x + 1 / 2⌋ : ℤ) : ℝ) else (⌊x + 1 / 2⌋ : ℤ)) = n
  split_ifs with hx
  · have hfloor : ⌊-x + 1 / 2⌋ = -n := by
      rw [Int.floor_eq_iff]
      push_cast
      constructor <;> linarith
    rw [hfloor, Int.cast_neg, neg_neg]
  · have hfloor : ⌊x + 1 / 2⌋ = n := by
      rw [Int.floor_eq_iff]
      constructor <;> linarith
    rw [hfloor]

theorem exists_round_eq (x : ℝ) : ∃ n : ℤ, Scalar.round x = n := by
  change ∃ n : ℤ, (if x < 0 then -((⌊-x + 1 / 2⌋ : ℤ) : ℝ) else (⌊x + 1 / 2⌋ : ℤ)) = n
  split_ifs
  · exact ⟨-⌊-x + 1 / 2⌋, (Int.cast_neg _).symm⟩
  · exact ⟨_, rfl⟩

theorem truncate_intCast (n : ℤ) : truncate (n : ℝ) = n := by
  change (if (n : ℝ) < 0 then ⌈(n : ℝ)⌉ else ⌊(n : ℝ)⌋) = n
  rw [Int.ceil_intCast, Int.floor_intCast, ite_self]

/-- An angle is so close to a whole number of quarter turns that it is taken for that. -/
def IsNear (angle : ℝ) (n : ℤ) : Prop := |angle / quarterTurn - n| < 1 / 10 ^ 12

theorem isNear_iff {angle : ℝ} {n : ℤ} :
    IsNear angle n ↔ |angle - n * quarterTurn| < quarterTurn / 10 ^ 12 := by
  have hpos : (0 : ℝ) < quarterTurn := quarterTurn_pos
  have hscaled : angle - n * quarterTurn = (angle / quarterTurn - n) * quarterTurn := by
    rw [sub_mul, div_mul_cancel₀ _ hpos.ne']
  unfold IsNear
  rw [hscaled, abs_mul, abs_of_pos hpos, ← one_div_mul_eq_div _ (quarterTurn : ℝ),
    mul_lt_mul_iff_left₀ hpos]

theorem isNear_mul_quarterTurn (n : ℤ) : IsNear (n * quarterTurn) n := by
  rw [isNear_iff, sub_self, abs_zero]
  exact div_pos quarterTurn_pos (by positivity)

/-- The angle that an angle is taken for. -/
noncomputable def snapped (angle : ℝ) : ℝ :=
  if |angle / quarterTurn - Scalar.round (angle / quarterTurn)| < 1 / 10 ^ 12
  then Scalar.round (angle / quarterTurn) * quarterTurn else angle

section
variable {angle : ℝ} {n : ℤ}

theorem IsNear.snapped_eq (h : IsNear angle n) : snapped angle = n * quarterTurn := by
  have hround : Scalar.round (angle / quarterTurn) = n :=
    round_eq_of_near (lt_trans h (by norm_num))
  unfold snapped
  rw [hround]
  exact if_pos h

theorem snapped_eq_self (h : ∀ n, ¬ IsNear angle n) : snapped angle = angle := by
  obtain ⟨n, hn⟩ := exists_round_eq (angle / quarterTurn)
  unfold snapped
  rw [hn]
  exact if_neg (h n)

theorem snapped_mul_quarterTurn (n : ℤ) : snapped (n * quarterTurn) = n * quarterTurn :=
  (isNear_mul_quarterTurn n).snapped_eq

theorem snapped_zero : snapped 0 = 0 := by
  simpa using snapped_mul_quarterTurn 0

theorem snapped_quarterTurn : snapped quarterTurn = quarterTurn := by
  simpa using snapped_mul_quarterTurn 1

/-- Snapping keeps the side of zero that an angle is on. -/
theorem snapped_nonneg (h : 0 ≤ angle) : 0 ≤ snapped angle := by
  by_cases hnear : ∃ n, IsNear angle n
  · obtain ⟨n, hn⟩ := hnear
    have hquarters : 0 ≤ angle / quarterTurn := div_nonneg h quarterTurn_pos.le
    have hlow : (-1 : ℝ) < n := by
      have hhigh := (abs_lt.mp hn).2
      linarith
    have hwhole : -1 < n := by exact_mod_cast hlow
    rw [hn.snapped_eq]
    exact mul_nonneg (by exact_mod_cast Int.le_of_sub_one_lt hwhole) quarterTurn_pos.le
  · rwa [snapped_eq_self (not_exists.mp hnear)]

theorem isNear_neg : IsNear (-angle) (-n) ↔ IsNear angle n := by
  unfold IsNear
  rw [neg_div, Int.cast_neg, neg_sub_neg, abs_sub_comm]

theorem snapped_neg (angle : ℝ) : snapped (-angle) = -snapped angle := by
  by_cases hnear : ∃ n, IsNear angle n
  · obtain ⟨n, hn⟩ := hnear
    rw [hn.snapped_eq, (isNear_neg.mpr hn).snapped_eq, Int.cast_neg, neg_mul]
  · have hfar := not_exists.mp hnear
    rw [snapped_eq_self hfar, snapped_eq_self fun n hn => hfar (-n) ?_]
    rwa [← isNear_neg, neg_neg]

/-- Angles of up to a full turn are taken for angles of up to a full turn. -/
theorem snapped_le (h : angle ≤ fullTurn) : snapped angle ≤ fullTurn := by
  by_cases hnear : ∃ n, IsNear angle n
  · obtain ⟨n, hn⟩ := hnear
    have hquarters : angle / quarterTurn ≤ 4 := by
      rwa [div_le_iff₀ quarterTurn_pos, ← fullTurn_eq]
    have hhigh : (n : ℝ) < 5 := by
      have hlow := (abs_lt.mp hn).1
      linarith
    have hwhole : n ≤ 4 := Int.le_of_lt_add_one (by exact_mod_cast hhigh)
    rw [hn.snapped_eq, fullTurn_eq]
    exact mul_le_mul_of_nonneg_right (by exact_mod_cast hwhole) quarterTurn_pos.le
  · rwa [snapped_eq_self (not_exists.mp hnear)]

end

/-- Four quarter turns are as good as none. -/
theorem cos_sin_mul_quarterTurn (n : ℤ) :
    (Real.cos (n * quarterTurn), Real.sin (n * quarterTurn)) =
      (Real.cos ((n % 4 : ℤ) * quarterTurn), Real.sin ((n % 4 : ℤ) * quarterTurn)) := by
  have hsplit : (n : ℝ) * quarterTurn =
      (n % 4 : ℤ) * quarterTurn + (n / 4 : ℤ) * (2 * Real.pi) := by
    have hdiv : (n : ℝ) = (n % 4 : ℤ) + 4 * (n / 4 : ℤ) := by
      exact_mod_cast (Int.emod_add_mul_ediv n 4).symm
    rw [← fullTurn_real, fullTurn_eq]
    linear_combination quarterTurn * hdiv
  rw [hsplit, Real.cos_add_int_mul_two_pi, Real.sin_add_int_mul_two_pi]

/-- What is taken for the cosine and sine of an angle are those of the angle it is taken for. -/
theorem unitAt_eq (angle : ℝ) :
    unitAt angle = (Real.cos (snapped angle), Real.sin (snapped angle)) := by
  have htolerance : (ofRatio 1 1000000000000 : ℝ) = 1 / 10 ^ 12 := by
    rw [ofRatio_real]
    norm_num
  unfold unitAt snapped
  dsimp only
  rw [abs_real, htolerance]
  split_ifs with hnear
  · obtain ⟨n, hn⟩ := exists_round_eq (angle / quarterTurn)
    rw [hn, truncate_intCast, cos_sin_mul_quarterTurn, quarterTurn_real]
    have hquarter : n % 4 = 0 ∨ n % 4 = 1 ∨ n % 4 = 2 ∨ n % 4 = 3 := by omega
    rcases hquarter with h | h | h | h
    · simp [h]
    · simp [h]
    · have hhalf : (2 : ℝ) * (Real.pi / 2) = Real.pi := by ring
      simp [h, hhalf]
    · have hthree : (3 : ℝ) * (Real.pi / 2) = Real.pi / 2 + Real.pi := by ring
      simp [h, hthree, Real.cos_add_pi, Real.sin_add_pi]
  · rfl

theorem unitAt_neg (angle : ℝ) : unitAt (-angle) = ((unitAt angle).1, -(unitAt angle).2) := by
  rw [unitAt_eq, unitAt_eq, snapped_neg, Real.cos_neg, Real.sin_neg]

end Toolpath
