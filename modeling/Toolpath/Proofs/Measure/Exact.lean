import Mathlib.Data.Int.GCD
import Mathlib.Data.Nat.Cast.Field
import Mathlib.Tactic.FieldSimp
import Mathlib.Tactic.Ring
import Toolpath.Measure.Amount
import Toolpath.Proofs.Outcome
import Toolpath.Proofs.Scalar.Exact

/-! The real values of exact measures. An operation that succeeds is the operation on the values. -/
namespace Toolpath
open Scalar

namespace Ratio
variable {a b r : Ratio}

theorem toScalar_real (a : Ratio) : (a.toScalar : ℝ) = a.num / a.den := by
  rw [toScalar, ofRatio_real, Int.cast_natCast]

@[simp] theorem toScalar_zero : ((0 : Ratio).toScalar : ℝ) = 0 := by
  have h : ((0 : Ratio).toScalar : ℝ) = (0 : ℤ) / (1 : ℕ) := toScalar_real 0
  simpa using h

@[simp] theorem toScalar_one : ((1 : Ratio).toScalar : ℝ) = 1 := by
  have h : ((1 : Ratio).toScalar : ℝ) = (1 : ℤ) / (1 : ℕ) := toScalar_real 1
  simpa using h

/-- Reducing takes a common factor off and makes the lower part positive. -/
theorem reduce_eq_ok {n d : ℤ} (h : reduce n d = .ok r) : d ≠ 0 ∧
    r = ⟨(if d < 0 then -n else n) / Int.gcd n d, d.natAbs / Int.gcd n d⟩ := by
  by_cases hd : d = 0
  · rw [reduce, if_pos hd] at h
    cases h
  · rw [reduce, if_neg hd] at h
    refine ⟨hd, ?_⟩
    by_cases hrange : InRange ((if d < 0 then -n else n) / Int.gcd n d) ∧
        InRange ((d.natAbs / Int.gcd n d : ℕ) : ℤ)
    · exact (Except.ok.inj ((if_pos hrange).symm.trans h)).symm
    · cases (if_neg hrange).symm.trans h

/-- A reduced fraction has the value of the fraction it was reduced from. -/
theorem of_reduce {n d : ℤ} (h : reduce n d = .ok r) : d ≠ 0 ∧ (r.toScalar : ℝ) = n / d := by
  obtain ⟨hd, rfl⟩ := reduce_eq_ok h
  have hg : ((Int.gcd n d : ℤ) : ℝ) ≠ 0 := by
    exact_mod_cast fun h => hd (Int.gcd_eq_zero_iff.mp h).2
  have hnum : ∀ m : ℤ, (Int.gcd n d : ℤ) ∣ m →
      ((m / Int.gcd n d : ℤ) : ℝ) = m / (Int.gcd n d : ℤ) := fun m hm => Int.cast_div hm hg
  have hden : ((d.natAbs / Int.gcd n d : ℕ) : ℝ) = |(d : ℝ)| / (Int.gcd n d : ℤ) := by
    rw [Nat.cast_div (Int.natCast_dvd.mp (Int.gcd_dvd_right n d)) (by exact_mod_cast hg),
      Nat.cast_natAbs, Int.cast_abs, Int.cast_natCast]
  refine ⟨hd, ?_⟩
  rw [toScalar_real, hden]
  by_cases hneg : d < 0
  · rw [if_pos hneg, hnum _ (Int.gcd_dvd_left n d).neg_right, div_div_div_cancel_right₀ hg,
      abs_of_neg (by exact_mod_cast hneg), Int.cast_neg, neg_div_neg_eq]
  · rw [if_neg hneg, hnum _ (Int.gcd_dvd_left n d), div_div_div_cancel_right₀ hg,
      abs_of_nonneg (by exact_mod_cast not_lt.mp hneg)]

theorem den_ne_zero_of_reduce {n d : ℤ} (h : reduce n d = .ok r) : r.den ≠ 0 := by
  obtain ⟨hd, rfl⟩ := reduce_eq_ok h
  have hdvd : Int.gcd n d ∣ d.natAbs := Int.natCast_dvd.mp (Int.gcd_dvd_right n d)
  exact (Nat.div_pos (Nat.le_of_dvd (Int.natAbs_pos.mpr hd) hdvd)
    (Int.gcd_pos_of_ne_zero_right n hd)).ne'

theorem of_add (h : a.add b = .ok r) : (r.toScalar : ℝ) = a.toScalar + b.toScalar := by
  obtain ⟨hd, hr⟩ := of_reduce h
  have hden : (a.den : ℝ) ≠ 0 ∧ (b.den : ℝ) ≠ 0 := by
    exact_mod_cast mul_ne_zero_iff.mp hd
  obtain ⟨ha, hb⟩ := hden
  rw [hr, toScalar_real, toScalar_real]
  push_cast
  field_simp

theorem of_mul (h : a.mul b = .ok r) : (r.toScalar : ℝ) = a.toScalar * b.toScalar := by
  obtain ⟨-, hr⟩ := of_reduce h
  rw [hr, toScalar_real, toScalar_real, div_mul_div_comm]
  push_cast
  rfl

theorem of_div (h : a.div b = .ok r) : (r.toScalar : ℝ) = a.toScalar / b.toScalar := by
  obtain ⟨-, hr⟩ := of_reduce h
  rw [hr, toScalar_real, toScalar_real, div_div_div_eq]
  push_cast
  rfl

theorem ne_zero_of_div (h : a.div b = .ok r) (hb : b.den ≠ 0) : (b.toScalar : ℝ) ≠ 0 := by
  obtain ⟨hd, -⟩ := of_reduce h
  have hnum : (b.num : ℝ) ≠ 0 := by exact_mod_cast right_ne_zero_of_mul hd
  rw [toScalar_real]
  exact div_ne_zero hnum (Nat.cast_ne_zero.mpr hb)

end Ratio

/-- The length of one unit in millimeters, as far as the table knows it. -/
noncomputable def UnitTable.sizeOf (t : UnitTable) (u : UnitName) : ℝ :=
  ((t.millimeters? u).getD 0).toScalar

/-- A native unit that the table has with the same length. -/
structure LengthUnit.NativeIn (native : LengthUnit) (t : UnitTable) : Prop where
  known : t.millimeters? native.name = some native.millimeters
  pos : 0 < (native.millimeters.toScalar : ℝ)

namespace Amount
variable {native : LengthUnit} {t : UnitTable}

/-- The length of some terms in millimeters. -/
noncomputable def sizeOfTerms (t : UnitTable) (terms : List (UnitName × Ratio)) : ℝ :=
  (terms.map fun (u, value) => value.toScalar * t.sizeOf u).sum

/-- A term in the native unit is not converted, which makes no difference to its value. -/
theorem of_decodeTerm (hn : native.NativeIn t) {u : UnitName} {value r : Ratio}
    (h : decodeTerm native t u value = .ok r) :
    (r.toScalar : ℝ) = value.toScalar * t.sizeOf u / native.millimeters.toScalar := by
  have hne := hn.pos.ne'
  unfold decodeTerm at h
  by_cases hu : u = native.name
  · rw [if_pos hu] at h
    rw [← Except.ok.inj h, UnitTable.sizeOf, hu, hn.known]
    exact (mul_div_cancel_right₀ _ hne).symm
  · rw [if_neg hu] at h
    cases hm : t.millimeters? u with
    | none =>
      rw [hm] at h
      cases h
    | some size =>
      rw [hm] at h
      obtain ⟨product, hp, h⟩ := exists_of_bind_eq_ok h
      rw [Ratio.of_div h, Ratio.of_mul hp, UnitTable.sizeOf, hm]
      rfl

theorem of_decodeTerms (hn : native.NativeIn t) {terms : List (UnitName × Ratio)}
    {start total : Ratio}
    (h : terms.foldlM (fun sum (u, value) => do sum.add (← decodeTerm native t u value)) start =
      .ok total) :
    (total.toScalar : ℝ) =
      start.toScalar + sizeOfTerms t terms / native.millimeters.toScalar := by
  induction terms generalizing start with
  | nil =>
    rw [← Except.ok.inj h]
    simp [sizeOfTerms]
  | cons head rest ih =>
    obtain ⟨u, value⟩ := head
    rw [List.foldlM_cons] at h
    obtain ⟨next, hstep, hrest⟩ := exists_of_bind_eq_ok h
    obtain ⟨term, hterm, hadd⟩ := exists_of_bind_eq_ok hstep
    have hsum : sizeOfTerms t ((u, value) :: rest) =
        value.toScalar * t.sizeOf u + sizeOfTerms t rest := by
      simp [sizeOfTerms]
    rw [ih hrest, Ratio.of_add hadd, of_decodeTerm hn hterm, hsum, add_div, add_assoc]

theorem of_decode (hn : native.NativeIn t) {a : Amount} {r : Ratio}
    (h : a.decode native t = .ok r) :
    (r.toScalar : ℝ) = sizeOfTerms t a.terms / native.millimeters.toScalar := by
  rw [of_decodeTerms hn h, Ratio.toScalar_zero, zero_add]

theorem den_ne_zero_of_decode {a : Amount} {r : Ratio} (h : a.decode native t = .ok r) :
    r.den ≠ 0 := by
  have hterms : ∀ (terms : List (UnitName × Ratio)) (start : Ratio), start.den ≠ 0 →
      terms.foldlM (fun sum (u, value) => do sum.add (← decodeTerm native t u value)) start =
        .ok r → r.den ≠ 0 := by
    intro terms
    induction terms with
    | nil =>
      intro start hstart h
      exact Except.ok.inj h ▸ hstart
    | cons head rest ih =>
      intro start _ h
      rw [List.foldlM_cons] at h
      obtain ⟨next, hstep, hrest⟩ := exists_of_bind_eq_ok h
      obtain ⟨term, -, hadd⟩ := exists_of_bind_eq_ok hstep
      exact ih next (Ratio.den_ne_zero_of_reduce hadd) hrest
  exact hterms a.terms 0 one_ne_zero h

end Amount
end Toolpath
