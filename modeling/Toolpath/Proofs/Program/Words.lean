import Toolpath.Proofs.Decimal.Exact
import Toolpath.Proofs.Decimal.Nearest
import Toolpath.Proofs.Decimal.Places

/-!
The words of a program stand for rounded values. A word is the decimal of the multiple of the last
place that is nearest to a value, and different multiples have different words, so that a word which
is left out is one that the axis already has.
-/
namespace Toolpath
open Decimal Ratio

variable {o : Options Float} {x y : Float} {k : ℤ}

/-- The word of a finite value is that of the nearest multiple of the last place. -/
theorem exists_fixedWord_eq (places : ℕ) (h : Scalar.isFinite x = true) :
    ∃ k, IsNearest places (Binary.exact x) k ∧ fixedWord places x = placesWord places k := by
  obtain ⟨negative, m, q, hfloat, hexact⟩ := Decimal.Binary.exists_ofFloat_eq_finite h
  have hnearest := isNearest_inPlaces places m q
  refine ⟨_, ?_, fixedWord_of_finite hfloat⟩
  rw [hexact]
  cases negative with
  | true => exact hnearest.neg
  | false => exact hnearest

theorem fixedWord_eq {places : ℕ} (h : Scalar.isFinite x = true)
    (hk : IsNearest places (Binary.exact x) k) : fixedWord places x = placesWord places k := by
  obtain ⟨l, hl, hword⟩ := exists_fixedWord_eq places h
  rw [hword, hl.unique hk]

/-- Values have the same word if they are rounded to the same multiple. -/
theorem fixedWord_eq_fixedWord_iff {places : ℕ} (hx : Scalar.isFinite x = true)
    (hy : Scalar.isFinite y = true) : fixedWord places x = fixedWord places y ↔
      ∃ k, IsNearest places (Binary.exact x) k ∧ IsNearest places (Binary.exact y) k := by
  constructor
  · intro h
    obtain ⟨k, hk, hxword⟩ := exists_fixedWord_eq places hx
    obtain ⟨l, hl, hyword⟩ := exists_fixedWord_eq places hy
    have hkl : k = l := placesWord_injective places (by rw [← hxword, h, hyword])
    exact ⟨k, hk, hkl ▸ hl⟩
  · rintro ⟨k, hk, hl⟩
    rw [fixedWord_eq hx hk, fixedWord_eq hy hl]

/-- An axis whose last word is that of a finite value keeps it exactly while it is set to values
that are rounded as that one is. -/
theorem Style.changed?_number_eq_none (hx : Scalar.isFinite x = true)
    (hy : Scalar.isFinite y = true) :
    o.style.changed? (some (o.style.number x)) (some y) = none ↔
      ∃ k, IsNearest o.fractionDigits (Binary.exact x) k ∧
        IsNearest o.fractionDigits (Binary.exact y) k := by
  rw [← fixedWord_eq_fixedWord_iff hx hy]
  unfold Style.changed?
  simp [Options.style]

/-- The word of a finite value is a decimal with the set number of places, which is the multiple of
the last place nearest to the value, a half going to the even one. It has a minus sign exactly if
that multiple is negative. Larger values do not have smaller words, and two values have the same
word exactly if they are rounded to the same multiple. -/
theorem number_denotes_nearest (o : Options Float) :
    (∀ x, Scalar.isFinite x = true → ∃ (k : ℤ) (n : Numeral),
      (∀ l, IsNearest o.fractionDigits (Binary.exact x) l ↔ l = k) ∧
      (o.style.number x).toList = n.text ∧ n.IsMultiple o.fractionDigits k) ∧
    ∀ x y, Scalar.isFinite x = true → Scalar.isFinite y = true →
      (x ≤ y → ∀ m n : Numeral, m.text = (o.style.number x).toList →
        n.text = (o.style.number y).toList → m.value ≤ n.value) ∧
      (o.style.number x = o.style.number y ↔
        ∃ k, IsNearest o.fractionDigits (Binary.exact x) k ∧
          IsNearest o.fractionDigits (Binary.exact y) k) := by
  refine ⟨fun x hx => ?_, fun x y hx hy => ⟨fun hle m n hm hn => ?_,
    fixedWord_eq_fixedWord_iff hx hy⟩⟩
  · obtain ⟨k, hk, hword⟩ := exists_fixedWord_eq o.fractionDigits hx
    have htext : (o.style.number x).toList = (wordNumeral o.fractionDigits k).text := by
      rw [← toList_placesWord, ← hword]
      rfl
    exact ⟨k, wordNumeral o.fractionDigits k, fun _ => hk.iff_eq, htext, isMultiple_wordNumeral _ k⟩
  · obtain ⟨k, hk, hxword⟩ := exists_fixedWord_eq o.fractionDigits hx
    obtain ⟨l, hl, hyword⟩ := exists_fixedWord_eq o.fractionDigits hy
    have hkl : k ≤ l := hk.mono hl (Binary.exact_le_exact hle)
    have hmvalue : m.value = k / 10 ^ o.fractionDigits :=
      value_of_text_eq_placesWord (hm.trans (congrArg String.toList hxword))
    have hnvalue : n.value = l / 10 ^ o.fractionDigits :=
      value_of_text_eq_placesWord (hn.trans (congrArg String.toList hyword))
    rw [hmvalue, hnvalue]
    exact div_le_div_of_nonneg_right (Int.cast_le.mpr hkl) (by positivity)

/-- With four places 0.03125 is half-way between two multiples, and is rounded to the even one, as
0.0312 is. A small negative value is rounded to zero, which has no sign. -/
theorem number_denotes_nearest_halves :
    (∃ (k : ℤ) (n : Numeral), (∀ l, IsNearest 4 (Binary.exact 0.03125) l ↔ l = k) ∧
      "0.0312".toList = n.text ∧ n.IsMultiple 4 k) ∧
    (∃ k, IsNearest 4 (Binary.exact 0.03125) k ∧ IsNearest 4 (Binary.exact 0.0312) k) ∧
    (∃ k, IsNearest 4 (Binary.exact (-0.00001)) k ∧ IsNearest 4 (Binary.exact 0) k) ∧
    (wordNumeral 4 0).value ≤ (wordNumeral 4 312).value := by
  obtain ⟨hdenotes, hwords⟩ := number_denotes_nearest Options.standard
  have hhalf : Scalar.isFinite (0.03125 : Float) = true := by decide +kernel
  have heven : Scalar.isFinite (0.0312 : Float) = true := by decide +kernel
  have hsmall : Scalar.isFinite (-0.00001 : Float) = true := by decide +kernel
  have hzero : Scalar.isFinite (0 : Float) = true := by decide +kernel
  have hword : (Options.standard : Options Float).style.number 0.03125 = "0.0312" := by
    decide +kernel
  have hnone : (Options.standard : Options Float).style.number (-0.00001) = "0.0000" := by
    decide +kernel
  refine ⟨?_, ?_, ?_, ?_⟩
  · have hdecimal := hdenotes 0.03125 hhalf
    rwa [hword] at hdecimal
  · exact (hwords 0.03125 0.0312 hhalf heven).2.mp (hword.trans (by decide +kernel))
  · exact (hwords (-0.00001) 0 hsmall hzero).2.mp (hnone.trans (by decide +kernel))
  · have hle : (-0.00001 : Float) ≤ 0.03125 := by decide +kernel
    refine (hwords (-0.00001) 0.03125 hsmall hhalf).1 hle _ _ ?_ ?_
    · rw [hnone, ← toList_placesWord]
      decide +kernel
    · rw [hword, ← toList_placesWord]
      decide +kernel

end Toolpath
