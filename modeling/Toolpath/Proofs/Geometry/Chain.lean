import Mathlib.Algebra.Ring.Parity
import Mathlib.Data.List.Count
import Toolpath.Proofs.Geometry.Exact

/-! Placements one after another. Their determinants are multiplied, so that a chain of them turns
right hands into left ones exactly if an odd number of its members do. -/
namespace Toolpath

theorem Linear.determinant_mul (a b : Linear ℝ) :
    (a.mul b).determinant = a.determinant * b.determinant := by
  simp only [determinant, mul, Vec.dot, columnX, columnY, columnZ]
  ring

namespace Placement
variable {t u : Placement ℝ} {ts : List (Placement ℝ)}

@[simp] theorem identity_mul (t : Placement ℝ) : identity * t = t := by
  have hlinear : (identity * t).linear = t.linear := Linear.identity_mul _
  have hoffset : (identity * t).offset = t.offset := by
    ext <;> simp [identity, Vec.zero]
  exact Placement.ext hlinear hoffset

@[simp] theorem mul_identity (t : Placement ℝ) : t * identity = t := by
  have hlinear : (t * identity).linear = t.linear := Linear.mul_identity _
  have hoffset : (t * identity).offset = t.offset := by
    ext <;> simp [identity, Vec.zero, Linear.apply, Vec.dot]
  exact Placement.ext hlinear hoffset

theorem determinant_mul (t u : Placement ℝ) :
    (t * u).determinant = t.determinant * u.determinant :=
  Linear.determinant_mul t.linear u.linear

theorem isMirroring_iff : t.isMirroring = true ↔ t.determinant < 0 := decide_eq_true_iff

theorem determinant_identity : (identity : Placement ℝ).determinant = 1 := by
  simp [determinant, identity, Linear.determinant, Linear.identity]

theorem isMirroring_identity : (identity : Placement ℝ).isMirroring = false := by
  rw [Bool.eq_false_iff, ne_eq, isMirroring_iff, determinant_identity]
  exact zero_le_one.not_gt

/-- Two placements mirror together if one of them does and the other does not. -/
theorem isMirroring_mul (ht : t.determinant ≠ 0) (hu : u.determinant ≠ 0) :
    (t * u).isMirroring = true ↔ (t.isMirroring = true ↔ ¬ u.isMirroring = true) := by
  rw [isMirroring_iff, isMirroring_iff, isMirroring_iff, determinant_mul, not_lt, hu.symm.le_iff_lt]
  constructor
  · intro h
    rcases mul_neg_iff.mp h with ⟨htpos, huneg⟩ | ⟨htneg, hupos⟩
    · exact iff_of_false htpos.not_gt huneg.not_gt
    · exact iff_of_true htneg hupos
  · intro h
    rcases ht.lt_or_gt with htneg | htpos
    · exact mul_neg_of_neg_of_pos htneg (h.mp htneg)
    · have hule : u.determinant ≤ 0 := not_lt.mp fun hupos => htpos.not_gt (h.mpr hupos)
      have huneg : u.determinant < 0 := hu.lt_of_le hule
      exact mul_neg_of_pos_of_neg htpos huneg

/-- Placements one inside the other, from the outermost one inward. -/
noncomputable def chain : List (Placement ℝ) → Placement ℝ
  | [] => identity
  | t :: rest => t * chain rest

theorem determinant_chain_ne_zero (h : ∀ t ∈ ts, t.determinant ≠ 0) :
    (chain ts).determinant ≠ 0 := by
  induction ts with
  | nil =>
    rw [chain, determinant_identity]
    exact one_ne_zero
  | cons t rest ih =>
    obtain ⟨ht, hrest⟩ := List.forall_mem_cons.mp h
    rw [chain, determinant_mul]
    exact mul_ne_zero ht (ih hrest)

/-- A mirror image of a mirror image is none. -/
theorem isMirroring_chain (h : ∀ t ∈ ts, t.determinant ≠ 0) :
    (chain ts).isMirroring = true ↔ Odd (ts.countP isMirroring) := by
  induction ts with
  | nil => simp [chain, isMirroring_identity]
  | cons t rest ih =>
    obtain ⟨ht, hrest⟩ := List.forall_mem_cons.mp h
    rw [chain, isMirroring_mul ht (determinant_chain_ne_zero hrest), ih hrest, List.countP_cons]
    cases t.isMirroring with
    | true => simp [Nat.odd_add_one]
    | false => simp

end Placement
end Toolpath
