import Mathlib.Algebra.Order.Ring.Rat
import Toolpath.Program.Machine
import Toolpath.Proofs.Decimal.Digits
import Toolpath.Proofs.Measure.Numeral

/-!
Words with a set number of decimal places. Each is the decimal of a whole number of last places,
with all of its places, and has a sign exactly if that number is negative.
-/
namespace Toolpath
open Ratio

/-- The decimal is `k` last places: it has all of the places, no point if there are none, and a sign
below zero only. -/
structure Ratio.Numeral.IsMultiple (n : Numeral) (places : ℕ) (k : ℤ) : Prop where
  places_eq : n.places = places
  decimals_eq_none : n.decimals = none ↔ places = 0
  sign_eq : n.sign = if k < 0 then .minus else .absent
  value_eq : n.value = k / 10 ^ places

namespace Decimal

/-! ### Digits -/

/-- The digits of `n`, behind zeros where they would not reach past the point. -/
def paddedDigits (places n : ℕ) : List Char :=
  List.replicate (places + 1 - (Nat.toDigits 10 n).length) '0' ++ Nat.toDigits 10 n

/-- The digits in front of the point. -/
def wholeDigits (places n : ℕ) : List Char :=
  (paddedDigits places n).take ((paddedDigits places n).length - places)

/-- The digits behind the point. -/
def lastDigits (places n : ℕ) : List Char :=
  (paddedDigits places n).drop ((paddedDigits places n).length - places)

variable {places n : ℕ} {c : Char}

theorem wholeDigits_append_lastDigits (places n : ℕ) :
    wholeDigits places n ++ lastDigits places n = paddedDigits places n :=
  List.take_append_drop _ _

theorem lt_length_paddedDigits (places n : ℕ) : places < (paddedDigits places n).length := by
  rw [paddedDigits, List.length_append, List.length_replicate]
  omega

theorem length_lastDigits (places n : ℕ) : (lastDigits places n).length = places := by
  have hlength := lt_length_paddedDigits places n
  rw [lastDigits, List.length_drop]
  omega

theorem length_wholeDigits_pos (places n : ℕ) : 0 < (wholeDigits places n).length := by
  have hlength := lt_length_paddedDigits places n
  rw [wholeDigits, List.length_take]
  omega

theorem isDigit_of_mem_paddedDigits (h : c ∈ paddedDigits places n) : c.isDigit := by
  rcases List.mem_append.mp h with h | h
  · rw [List.eq_of_mem_replicate h]
    rfl
  · exact isDigit_of_mem_toDigits h

theorem ofDigitChars_paddedDigits (places n : ℕ) :
    Nat.ofDigitChars 10 (paddedDigits places n) 0 = n := by
  rw [paddedDigits, Nat.ofDigitChars_append, Nat.ofDigitChars_replicate_zero, mul_zero,
    Nat.ofDigitChars_ten_toDigits]

/-- Only zero has no digits but zeros. -/
theorem forall_mem_paddedDigits_eq_zero : (∀ c ∈ paddedDigits places n, c = '0') ↔ n = 0 := by
  constructor
  · intro h
    have hvalue := ofDigitChars_paddedDigits places n
    rw [List.eq_replicate_of_mem h, Nat.ofDigitChars_replicate_zero, mul_zero] at hvalue
    exact hvalue.symm
  · rintro rfl c hc
    rcases List.mem_append.mp hc with hc | hc
    · exact List.eq_of_mem_replicate hc
    · exact List.mem_singleton.mp hc

/-! ### Decimals -/

theorem areDigits_of_isDigit {s : List Char} (hpos : 0 < s.length) (h : ∀ c ∈ s, c.isDigit) :
    areDigits s := by
  rw [areDigits, Bool.and_eq_true, Bool.not_eq_true', List.isEmpty_eq_false_iff]
  exact ⟨List.ne_nil_of_length_pos hpos, List.all_eq_true.mpr h⟩

/-- The decimal of `n` last places. There is no point where there are no places. -/
def numeral (sign : Sign) (places n : ℕ) : Numeral where
  sign := sign
  ones := wholeDigits places n
  decimals := if places = 0 then none else some (lastDigits places n)
  areDigits_ones := areDigits_of_isDigit (length_wholeDigits_pos places n) fun _ hc =>
    isDigit_of_mem_paddedDigits (List.mem_of_mem_take hc)
  areDigits_decimals := by
    split_ifs with h
    · rfl
    · refine areDigits_of_isDigit ?_ fun _ hc =>
        isDigit_of_mem_paddedDigits (List.mem_of_mem_drop hc)
      rw [length_lastDigits]
      exact Nat.pos_of_ne_zero h

section Numeral
variable (sign : Sign) (places n : ℕ)

theorem decimals_numeral :
    (numeral sign places n).decimals = if places = 0 then none else some (lastDigits places n) :=
  rfl

theorem getD_decimals_numeral : (numeral sign places n).decimals.getD [] = lastDigits places n := by
  rw [decimals_numeral]
  split_ifs with h
  · have hnone := length_lastDigits places n
    rw [h] at hnone ⊢
    exact (List.length_eq_zero_iff.mp hnone).symm
  · rfl

theorem places_numeral : (numeral sign places n).places = places := by
  rw [Numeral.places, getD_decimals_numeral, length_lastDigits]

theorem digits_numeral : (numeral sign places n).digits = paddedDigits places n := by
  rw [Numeral.digits, getD_decimals_numeral]
  exact wholeDigits_append_lastDigits places n

theorem size_numeral : (numeral sign places n).size = n / 10 ^ places := by
  have hdigits : ofDigits (paddedDigits places n) = n := ofDigitChars_paddedDigits places n
  rw [← Numeral.ofDigits_digits, digits_numeral, places_numeral, hdigits]

theorem toList_placesText : (placesText places n).toList = (numeral sign places n).body := by
  change (String.ofList (wholeDigits places n) ++
    if places = 0 then "" else "." ++ String.ofList (lastDigits places n)).toList = _
  rw [String.toList_append, String.toList_ofList, Numeral.body, decimals_numeral]
  split_ifs with h
  · rfl
  · simp only [String.toList_append, String.toList_ofList]
    rfl

end Numeral

/-- Only the text of zero has no characters but zeros and a point. -/
theorem all_placesText : (placesText places n).toList.all (fun c => c == '0' || c == '.') = true ↔
    n = 0 := by
  have hzero : (∀ c ∈ paddedDigits places n, c = '0') ↔ n = 0 := forall_mem_paddedDigits_eq_zero
  rw [← hzero, ← digits_numeral .absent, toList_placesText .absent, List.all_eq_true]
  simp only [Bool.or_eq_true, beq_iff_eq, Numeral.mem_body_iff]
  constructor
  · intro h c hc
    have hpoint : c ≠ '.' := fun hpoint => by
      simpa [hpoint] using Numeral.isDigit_of_mem_digits hc
    exact (h c (.inl hc)).resolve_right hpoint
  · rintro h c (hc | ⟨rfl, -⟩)
    · exact .inl (h c hc)
    · exact .inr rfl

/-! ### Words -/

/-- The word of a whole number of last places. -/
def placesWord (places : ℕ) (k : ℤ) : String :=
  (if k < 0 then "-" else "") ++ placesText places k.natAbs

/-- The decimal that such a word is. -/
def wordNumeral (places : ℕ) (k : ℤ) : Numeral :=
  numeral (if k < 0 then .minus else .absent) places k.natAbs

theorem toList_placesWord (places : ℕ) (k : ℤ) :
    (placesWord places k).toList = (wordNumeral places k).text := by
  have hsign : (if k < 0 then "-" else "").toList =
      (if k < 0 then Sign.minus else Sign.absent).text := by
    split_ifs <;> rfl
  rw [placesWord, String.toList_append, hsign,
    toList_placesText (if k < 0 then .minus else .absent)]
  rfl

theorem sign_wordNumeral_eq_minus {k : ℤ} : (wordNumeral places k).sign = .minus ↔ k < 0 := by
  change (if k < 0 then Sign.minus else Sign.absent) = .minus ↔ k < 0
  split_ifs with hk <;> simp [hk]

theorem value_wordNumeral (places : ℕ) (k : ℤ) :
    (wordNumeral places k).value = k / 10 ^ places := by
  have hsize : (wordNumeral places k).size = k.natAbs / 10 ^ places := size_numeral _ _ _
  rw [Numeral.value, hsize, Nat.cast_natAbs, Int.cast_abs]
  by_cases hk : k < 0
  · have hneg : (k : ℚ) < 0 := Int.cast_lt_zero.mpr hk
    rw [if_pos (sign_wordNumeral_eq_minus.mpr hk), abs_of_neg hneg, neg_div, neg_neg]
  · have hnonneg : 0 ≤ (k : ℚ) := Int.cast_nonneg (not_lt.mp hk)
    rw [if_neg (sign_wordNumeral_eq_minus.not.mpr hk), abs_of_nonneg hnonneg]

theorem isMultiple_wordNumeral (places : ℕ) (k : ℤ) :
    (wordNumeral places k).IsMultiple places k where
  places_eq := places_numeral _ _ _
  decimals_eq_none := by
    rw [wordNumeral, decimals_numeral]
    split_ifs with h <;> simp [h]
  sign_eq := rfl
  value_eq := value_wordNumeral places k

/-- A decimal that is written as such a word has its value. -/
theorem value_of_text_eq_placesWord {n : Numeral} {k : ℤ}
    (h : n.text = (placesWord places k).toList) : n.value = k / 10 ^ places := by
  rw [toList_placesWord] at h
  rw [Numeral.value_eq_of_text_eq h, value_wordNumeral]

/-- Each multiple of the last place has one word. -/
theorem placesWord_injective (places : ℕ) : Function.Injective (placesWord places) := by
  intro k l h
  have htext : (wordNumeral places k).text = (placesWord places l).toList := by
    rw [← toList_placesWord, h]
  have hvalue := value_of_text_eq_placesWord htext
  rw [value_wordNumeral, div_left_inj' (pow_ne_zero _ (by norm_num))] at hvalue
  exact Int.cast_injective hvalue

end Decimal

open Decimal

theorem dropZeroSign_minus (t : String) : dropZeroSign ("-" ++ t) =
    if t.toList.all (fun c => c == '0' || c == '.') then t else "-" ++ t := by
  have hsplit : ("-" ++ t).toList = '-' :: t.toList := String.toList_append
  unfold dropZeroSign
  rw [hsplit]
  exact congrArg (fun s => if t.toList.all _ then s else "-" ++ t) String.ofList_toList

theorem dropZeroSign_of_digit {t : String} {c : Char} {r : List Char} (h : t.toList = c :: r)
    (hc : c.isDigit) : dropZeroSign t = t := by
  unfold dropZeroSign
  split
  · next hminus =>
    obtain ⟨rfl, -⟩ := List.cons.inj (h.symm.trans hminus)
    exact absurd hc (by decide)
  · rfl

/-- A sign that is taken away is that of zero. -/
theorem dropZeroSign_placesText (negative : Bool) (places n : ℕ) :
    dropZeroSign ((if negative then "-" else "") ++ placesText places n) =
      placesWord places (if negative then -(n : ℤ) else n) := by
  cases negative with
  | false =>
    obtain ⟨c, r, hbody, hc⟩ := (numeral .absent places n).exists_body_eq_cons
    have hword := dropZeroSign_of_digit ((toList_placesText .absent places n).trans hbody) hc
    have hnonneg : ¬ (n : ℤ) < 0 := not_lt.mpr (Int.natCast_nonneg n)
    simpa [placesWord, hnonneg] using hword
  | true =>
    simp only [if_true, dropZeroSign_minus, placesWord, all_placesText, Int.natAbs_neg,
      Int.natAbs_natCast, Int.neg_neg_iff_pos]
    rcases Nat.eq_zero_or_pos n with rfl | hn
    · simp
    · simp [hn, hn.ne']

/-- The word of a finite value is that of its rounded last places. -/
theorem fixedWord_of_finite {places m : ℕ} {x : Float} {negative : Bool} {q : ℤ}
    (h : Binary.ofFloat x = .finite negative m q) : fixedWord places x =
      placesWord places (if negative then -(inPlaces places m q : ℤ) else inPlaces places m q) := by
  rw [fixedWord, Decimal.fixed, h]
  exact dropZeroSign_placesText negative places (inPlaces places m q)

end Toolpath
