import Toolpath.Proofs.Decimal.Places

/-! The characters that numbers are written in. -/
namespace Toolpath

/-- Digits, signs and points, and the letters of values that have no digits. -/
def isNumeral (c : Char) : Bool :=
  c.isDigit || c == '-' || c == '.' || ['N', 'a', 'i', 'n', 'f'].contains c

theorem isNumeral_of_isDigit {c : Char} (h : c.isDigit) : isNumeral c := by
  simp [isNumeral, h]

/-- All numerals are printable ASCII, and come after the blank. -/
theorem toNat_of_isNumeral {c : Char} (h : isNumeral c) : 32 < c.toNat ∧ c.toNat < 127 := by
  simp only [isNumeral, List.contains_cons, List.contains_nil, Bool.or_eq_true, beq_iff_eq,
    Bool.false_eq_true, or_false] at h
  rcases h with ((h | rfl) | rfl) | rfl | rfl | rfl | rfl | rfl
  · obtain ⟨hzero, hnine⟩ := Char.isDigit_iff_toNat.mp h
    exact ⟨Nat.lt_of_lt_of_le (by decide) hzero, Nat.lt_of_le_of_lt hnine (by decide)⟩
  all_goals decide

namespace Decimal

theorem numeral_placesText (places n : Nat) : ∀ c ∈ (placesText places n).toList, isNumeral c := by
  intro c hc
  rw [toList_placesText .absent] at hc
  rcases Ratio.Numeral.mem_body hc with hdigit | rfl
  · exact isNumeral_of_isDigit hdigit
  · rfl

theorem numeral_fixed (places : Nat) (x : Float) : ∀ c ∈ (fixed places x).toList, isNumeral c := by
  unfold fixed
  cases Binary.ofFloat x with
  | nan => exact List.all_eq_true.mp (by decide : "NaN".toList.all isNumeral)
  | infinite negative =>
    cases negative with
    | false => exact List.all_eq_true.mp (by decide : "inf".toList.all isNumeral)
    | true => exact List.all_eq_true.mp (by decide : "-inf".toList.all isNumeral)
  | finite negative m q =>
    intro c hc
    dsimp only at hc
    rw [String.toList_append] at hc
    rcases List.mem_append.mp hc with hc | hc
    · split at hc
      · rw [List.mem_singleton.mp hc]
        rfl
      · cases hc
    · exact numeral_placesText _ _ c hc

end Decimal

theorem numeral_dropZeroSign {t : String} (h : ∀ c ∈ t.toList, isNumeral c) :
    ∀ c ∈ (dropZeroSign t).toList, isNumeral c := by
  intro c hc
  unfold dropZeroSign at hc
  split at hc
  · next r ht =>
    split at hc
    · rw [String.toList_ofList] at hc
      exact h c (ht ▸ List.mem_cons_of_mem _ hc)
    · exact h c hc
  · exact h c hc

theorem numeral_fixedWord (places : Nat) (x : Float) :
    ∀ c ∈ (fixedWord places x).toList, isNumeral c :=
  numeral_dropZeroSign (Decimal.numeral_fixed places x)

end Toolpath
