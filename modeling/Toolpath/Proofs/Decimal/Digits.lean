/-! Decimal digits and the whole numbers that they write. -/
namespace Toolpath.Decimal

theorem mem_digits_of_isDigit {c : Char} (h : c.isDigit) : c ∈ "0123456789".toList := by
  have hall : ∀ n < 58, 48 ≤ n → Char.ofNat n ∈ "0123456789".toList := by decide
  obtain ⟨hlow, hhigh⟩ := Char.isDigit_iff_toNat.mp h
  have hc := hall c.toNat (Nat.lt_succ_of_le hhigh) hlow
  rwa [Char.ofNat_toNat] at hc

theorem isDigit_of_mem_toDigits {n : Nat} {c : Char} (h : c ∈ Nat.toDigits 10 n) : c.isDigit :=
  Nat.isDigit_of_mem_toDigits (by decide) (by decide) h

/-- A whole number is a sign, if it is negative, and digits. -/
theorem toList_intRepr (n : Int) :
    (Int.repr n).toList = (if n < 0 then ['-'] else []) ++ Nat.toDigits 10 n.natAbs := by
  cases n with
  | ofNat m => simp [Int.repr, Nat.toList_repr]
  | negSucc m => simp [Int.repr, Nat.toList_repr, String.toList_append]

theorem intRepr_ne_nil (n : Int) : (Int.repr n).toList ≠ [] := by
  rw [toList_intRepr]
  exact List.append_ne_nil_of_right_ne_nil _ Nat.toDigits_ne_nil

theorem isDigit_of_mem_intRepr {n : Int} {c : Char} (h : c ∈ (Int.repr n).toList) :
    c = '-' ∨ c.isDigit := by
  rw [toList_intRepr, List.mem_append] at h
  rcases h with h | h
  · split at h
    · exact .inl (List.mem_singleton.mp h)
    · cases h
  · exact .inr (isDigit_of_mem_toDigits h)

theorem mem_digits_of_mem_intRepr {n : Int} {c : Char} (h : c ∈ (Int.repr n).toList) :
    c ∈ "-0123456789".toList := by
  rcases isDigit_of_mem_intRepr h with rfl | hdigit
  · exact List.mem_cons_self
  · exact List.mem_cons_of_mem _ (mem_digits_of_isDigit hdigit)

/-- Only zero starts with a zero. -/
theorem head?_toDigits {n : Nat} (h : n ≠ 0) : (Nat.toDigits 10 n).head? ≠ some '0' := by
  induction n using Nat.strongRecOn with
  | ind n ih =>
    by_cases hn : n < 10
    · have hdigit : ∀ d < 10, d ≠ 0 → Nat.digitChar d ≠ '0' := by decide
      rw [Nat.toDigits_of_lt_base hn, List.head?_cons]
      exact fun hzero => hdigit n hn h (Option.some.inj hzero)
    · have htens := ih (n / 10) (Nat.div_lt_self (Nat.pos_of_ne_zero h) (by decide)) (by omega)
      rw [Nat.toDigits_of_base_le (by decide) (Nat.le_of_not_lt hn)]
      cases hd : Nat.toDigits 10 (n / 10) with
      | nil => exact absurd hd Nat.toDigits_ne_nil
      | cons c r => rwa [hd] at htens

end Toolpath.Decimal
