import Mathlib.Algebra.Order.Group.Unbundled.Int
import Mathlib.Algebra.Order.Ring.Int
import Mathlib.Tactic.Linarith
import Mathlib.Tactic.SplitIfs

/-!
Rounding a whole number to 53 bits, to nearest and on a tie to even. The rounded number keeps
order, is off by at most one part in 2⁵³, and is the number itself where that has 53 bits.
-/
namespace Toolpath.Binary

/-- The nearest whole quotient, and of two the even one. -/
def quotient (n d : ℕ) : ℕ :=
  if 2 * (n % d) < d then n / d
  else if d < 2 * (n % d) then n / d + 1
  else n / d + n / d % 2

theorem quotient_of_dvd {n d : ℕ} (h : d ∣ n) : quotient n d = n / d := by
  unfold quotient
  rw [Nat.mod_eq_zero_of_dvd h, mul_zero]
  rcases Nat.eq_zero_or_pos d with rfl | hd
  · simp
  · rw [if_pos hd]

theorem quotient_mul (q : ℕ) {d : ℕ} (hd : 0 < d) : quotient (q * d) d = q := by
  rw [quotient_of_dvd (Nat.dvd_mul_left _ _), Nat.mul_div_cancel q hd]

theorem quotient_scale {c : ℕ} (hc : 0 < c) (n d : ℕ) :
    quotient (n * c) (d * c) = quotient n d := by
  have hlow : 2 * (n * c % (d * c)) < d * c ↔ 2 * (n % d) < d := by
    rw [Nat.mul_mod_mul_right, ← Nat.mul_assoc]
    exact Nat.mul_lt_mul_right hc
  have hhigh : d * c < 2 * (n * c % (d * c)) ↔ d < 2 * (n % d) := by
    rw [Nat.mul_mod_mul_right, ← Nat.mul_assoc]
    exact Nat.mul_lt_mul_right hc
  unfold quotient
  simp only [hlow, hhigh, Nat.mul_div_mul_right n d hc]

/-- A rounded quotient is the one below or the one above, whichever is not further away. -/
theorem quotient_cases (n d : ℕ) :
    quotient n d = n / d ∧ 2 * (n % d) ≤ d ∨ quotient n d = n / d + 1 ∧ d ≤ 2 * (n % d) := by
  unfold quotient
  split_ifs with hlow hhigh
  · exact .inl ⟨rfl, hlow.le⟩
  · exact .inr ⟨rfl, hhigh.le⟩
  · rcases Nat.mod_two_eq_zero_or_one (n / d) with heven | hodd
    · exact .inl ⟨by rw [heven, Nat.add_zero], not_lt.mp hhigh⟩
    · exact .inr ⟨by rw [hodd], not_lt.mp hlow⟩

theorem quotient_mono {m n : ℕ} (h : m ≤ n) (d : ℕ) : quotient m d ≤ quotient n d := by
  rcases (Nat.div_le_div_right h : m / d ≤ n / d).lt_or_eq with hlt | heq
  · rcases quotient_cases m d with hm | hm <;> rcases quotient_cases n d with hn | hn <;> omega
  · have hmod : m % d ≤ n % d := by
      have hm := Nat.div_add_mod m d
      have hn := Nat.div_add_mod n d
      rw [heq] at hm
      omega
    unfold quotient
    rw [heq]
    split_ifs <;> omega

theorem quotient_mul_le (n d : ℕ) : 2 * (quotient n d * d) ≤ 2 * n + d := by
  have hn := Nat.div_add_mod' n d
  rcases quotient_cases n d with ⟨h, -⟩ | ⟨h, hhigh⟩
  · rw [h]
    omega
  · rw [h, Nat.add_mul]
    omega

theorem le_quotient_mul {d : ℕ} (hd : 0 < d) (n : ℕ) : 2 * n ≤ 2 * (quotient n d * d) + d := by
  have hn := Nat.div_add_mod' n d
  have hmod := Nat.mod_lt n hd
  rcases quotient_cases n d with ⟨h, hlow⟩ | ⟨h, -⟩
  · rw [h]
    omega
  · rw [h, Nat.add_mul]
    omega

/-- Half-way between two quotients the even one is taken. -/
theorem even_quotient {n d : ℕ} (hd : 0 < d)
    (h : 2 * n = 2 * (quotient n d * d) + d ∨ 2 * n + d = 2 * (quotient n d * d)) :
    Even (quotient n d) := by
  have hn := Nat.div_add_mod' n d
  have hmod := Nat.mod_lt n hd
  unfold quotient at h ⊢
  split_ifs at h ⊢ with hlow hhigh
  · omega
  · rw [Nat.add_mul] at h
    omega
  · rw [Nat.even_iff]
    omega

/-- How far apart numbers of 53 bits are that are as long as a number. -/
def spacing (n : ℕ) : ℕ := 2 ^ (n.log2 - 52)

theorem spacing_pos (n : ℕ) : 0 < spacing n := Nat.two_pow_pos _

/-- The nearest number of 53 bits, and of two the one whose last bit is zero. -/
def nearest (n : ℕ) : ℕ := quotient n (spacing n) * spacing n

theorem nearest_of_spacing_dvd {n : ℕ} (h : spacing n ∣ n) : nearest n = n := by
  rw [nearest, quotient_of_dvd h, Nat.div_mul_cancel h]

/-- Numbers of 53 bits are rounded to themselves. -/
theorem nearest_mul_two_pow {m : ℕ} (hm : m < 2 ^ 53) (k : ℕ) :
    nearest (m * 2 ^ k) = m * 2 ^ k := by
  rcases Nat.eq_zero_or_pos m with rfl | hpos
  · rw [Nat.zero_mul]
    exact nearest_of_spacing_dvd (Nat.dvd_zero _)
  · have hlog : (m * 2 ^ k).log2 < 53 + k := by
      refine (Nat.log2_lt (Nat.mul_pos hpos (Nat.two_pow_pos k)).ne').mpr ?_
      rw [Nat.pow_add]
      exact Nat.mul_lt_mul_of_pos_right hm (Nat.two_pow_pos k)
    exact nearest_of_spacing_dvd (Dvd.dvd.mul_left (Nat.pow_dvd_pow 2 (by omega)) m)

theorem nearest_of_lt {n : ℕ} (h : n < 2 ^ 53) : nearest n = n := by
  simpa using nearest_mul_two_pow h 0

/-- Between two powers of two the spacing is the same, and rounding stays between them. -/
theorem nearest_mono {m n : ℕ} (h : m ≤ n) : nearest m ≤ nearest n := by
  rcases Nat.eq_zero_or_pos m with rfl | hm
  · rw [nearest_of_lt (by decide)]
    exact Nat.zero_le _
  have hn : 0 < n := hm.trans_le h
  rcases (show m.log2 ≤ n.log2 from (Nat.le_log2 hn.ne').mpr
    ((Nat.log2_self_le hm.ne').trans h)).lt_or_eq with hlt | heq
  · have hbelow : nearest m ≤ 2 ^ (m.log2 + 1) := by
      have hdvd : spacing m ∣ 2 ^ (m.log2 + 1) := Nat.pow_dvd_pow 2 (by omega)
      have hq := quotient_mono (Nat.lt_log2_self (n := m)).le (spacing m)
      rw [quotient_of_dvd hdvd] at hq
      exact (Nat.mul_le_mul_right _ hq).trans (Nat.div_mul_cancel hdvd).le
    have habove : 2 ^ n.log2 ≤ nearest n := by
      have hdvd : spacing n ∣ 2 ^ n.log2 := Nat.pow_dvd_pow 2 (by omega)
      have hq := quotient_mono (Nat.log2_self_le hn.ne') (spacing n)
      rw [quotient_of_dvd hdvd] at hq
      exact (Nat.div_mul_cancel hdvd).ge.trans (Nat.mul_le_mul_right _ hq)
    exact hbelow.trans ((Nat.pow_le_pow_right (by decide) hlt).trans habove)
  · unfold nearest spacing
    rw [heq]
    exact Nat.mul_le_mul_right _ (quotient_mono h _)

/-- Rounding moves a number by at most one part in 2⁵³. -/
theorem nearest_error (n : ℕ) :
    2 ^ 53 * nearest n ≤ 2 ^ 53 * n + n ∧ 2 ^ 53 * n ≤ 2 ^ 53 * nearest n + n := by
  by_cases h : n < 2 ^ 53
  · rw [nearest_of_lt h]
    omega
  · have hn : n ≠ 0 := by omega
    have hlog : 53 ≤ n.log2 := (Nat.le_log2 hn).mpr (not_lt.mp h)
    have hspacing : 2 ^ 52 * spacing n ≤ n := by
      rw [spacing, ← Nat.pow_add, Nat.add_sub_cancel' (by omega)]
      exact Nat.log2_self_le hn
    have hle := quotient_mul_le n (spacing n)
    have hge := le_quotient_mul (spacing_pos n) n
    unfold nearest
    omega

/-- The nearest number of 53 bits and a sign. -/
def nearestInt (z : ℤ) : ℤ := z.sign * nearest z.natAbs

theorem nearestInt_natCast (n : ℕ) : nearestInt n = nearest n := by
  rcases Nat.eq_zero_or_pos n with rfl | hn
  · rfl
  · rw [nearestInt, Int.natAbs_natCast, Int.sign_natCast_of_ne_zero hn.ne', one_mul]

theorem nearestInt_neg (z : ℤ) : nearestInt (-z) = -nearestInt z := by
  rw [nearestInt, Int.sign_neg, Int.natAbs_neg, neg_mul, nearestInt]

theorem nearestInt_mono {x y : ℤ} (h : x ≤ y) : nearestInt x ≤ nearestInt y := by
  rcases Int.eq_nat_or_neg x with ⟨m, rfl | rfl⟩ <;> rcases Int.eq_nat_or_neg y with ⟨n, rfl | rfl⟩
  · rw [nearestInt_natCast, nearestInt_natCast]
    exact_mod_cast nearest_mono (by omega)
  · obtain rfl : m = 0 := by omega
    obtain rfl : n = 0 := by omega
    rfl
  · rw [nearestInt_neg, nearestInt_natCast, nearestInt_natCast]
    omega
  · rw [nearestInt_neg, nearestInt_neg, nearestInt_natCast, nearestInt_natCast]
    exact neg_le_neg (by exact_mod_cast nearest_mono (by omega))

theorem nearestInt_error (z : ℤ) :
    2 ^ 53 * nearestInt z ≤ 2 ^ 53 * z + |z| ∧ 2 ^ 53 * z ≤ 2 ^ 53 * nearestInt z + |z| := by
  rw [Int.abs_eq_natAbs]
  rcases Int.eq_nat_or_neg z with ⟨n, rfl | rfl⟩
  · have h := nearest_error n
    rw [nearestInt_natCast]
    omega
  · have h := nearest_error n
    rw [nearestInt_neg, nearestInt_natCast]
    omega

end Toolpath.Binary
