import Toolpath.Proofs.Measure.LowestTerms

/-!
Differences of fractions. The right side is negated by itself, so besides the differences that are
out of range all those are refused whose right side has the least numerator, which has no negative
in range.
-/
namespace Toolpath.Ratio
variable {a b r : Ratio} {e : MeasureError}

theorem fits_neg_iff (hb : b.Canonical) : Fits (-b.value) ↔ b.num ≠ -0x8000000000000000 := by
  have hnum := hb.num_inRange
  have hneg : InRange (-b.num) ↔ b.num ≠ -0x8000000000000000 := by
    unfold InRange at *
    omega
  rw [Fits, Rat.num_neg_eq_neg_num, Rat.den_neg_eq_den, hb.num_value, hb.den_value, hneg,
    and_iff_left hb.den_inRange]

theorem exactly_some_eq_error {q : ℚ} :
    exactly (some q) = .error e ↔ e = .outOfRange ∧ ¬ Fits q := by
  by_cases hq : Fits q <;> simp [exactly, hq, eq_comm]

/-- A difference is given exactly where it is in range and the right side can be negated. Where it
is not given, the result is out of range. -/
theorem sub_exact_unless_least (ha : a.Canonical) (hb : b.Canonical) :
    (a.sub b = .ok r ↔
      Fits (a.value - b.value) ∧ b.num ≠ -0x8000000000000000 ∧ r = lowest (a.value - b.value)) ∧
    (a.sub b = .error e ↔
      e = .outOfRange ∧ (¬ Fits (a.value - b.value) ∨ b.num = -0x8000000000000000)) := by
  have hsub := sub_eq_exactly ha hb
  by_cases hleast : b.num = -0x8000000000000000
  · have hrefused : a.sub b = .error .outOfRange := by
      rw [hsub, if_neg fun hfits => (fits_neg_iff hb).mp hfits hleast]
    simp [hrefused, hleast, eq_comm]
  · rw [hsub, if_pos ((fits_neg_iff hb).mpr hleast), exactly_some_eq_ok, exactly_some_eq_error]
    simp [hleast]

/-- Minus one, less the least number, is the greatest one, and is refused. -/
theorem sub_exact_unless_least_refused :
    Canonical (ofInt (-1)) ∧ Canonical (ofInt (-0x8000000000000000)) ∧
      Fits (value (ofInt (-1)) - value (ofInt (-0x8000000000000000))) ∧
      (ofInt (-1)).sub (ofInt (-0x8000000000000000)) = .error .outOfRange := by
  have ha : Canonical (ofInt (-1)) := by decide
  have hb : Canonical (ofInt (-0x8000000000000000)) := by decide
  have hgreatest : value (ofInt (-1)) - value (ofInt (-0x8000000000000000)) =
      (0x7fffffffffffffff : ℤ) := by
    norm_num [value, ofInt]
  refine ⟨ha, hb, ?_, (sub_exact_unless_least (r := 0) ha hb).2.mpr ⟨rfl, .inr rfl⟩⟩
  rw [hgreatest, Fits, Rat.num_intCast, Rat.den_intCast]
  decide

end Toolpath.Ratio
