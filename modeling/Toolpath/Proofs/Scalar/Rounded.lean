import Toolpath.Proofs.Scalar.Units

/-!
Sums, differences and halves in binary floating point are the exact ones, rounded. In units of the
smallest number the exact ones are whole numbers.
-/
namespace Toolpath.Binary
open Float.Model UnpackedFloat

section Shift

/-- A number shifted to the right, with what is shifted out reduced to two bits: whether it is at
least a half, and whether it is neither nothing nor a half. -/
def shifted (n k : ℕ) : ExtendedMantissa where
  mantissa := n / 2 ^ k
  roundBit := decide (2 ^ k ≤ 2 * (n % 2 ^ k))
  stickyBit := decide (n % 2 ^ k ≠ 0 ∧ 2 * (n % 2 ^ k) ≠ 2 ^ k)

theorem shifted_zero (n : ℕ) : shifted n 0 = ⟨n, false, false⟩ := by
  simp [shifted, Nat.mod_one]

theorem shiftRightOne_shifted (n k : ℕ) : (shifted n k).shiftRightOne = shifted n (k + 1) := by
  have hmod : n % 2 ^ (k + 1) = n % 2 ^ k + 2 ^ k * (n / 2 ^ k % 2) := Nat.mod_pow_succ
  have hlt : n % 2 ^ k < 2 ^ k := Nat.mod_lt _ (Nat.two_pow_pos k)
  have hpow : 2 ^ (k + 1) = 2 ^ k * 2 := pow_succ 2 k
  unfold shifted ExtendedMantissa.shiftRightOne
  rw [hmod, hpow, Nat.div_div_eq_div_mul]
  -- the last bit of the quotient is either of two, and both are about the remainder alone
  generalize n % 2 ^ k = r at *
  generalize 2 ^ k = d at *
  have hbit := Nat.mod_two_eq_zero_or_one (n / d)
  congr 1
  · rcases hbit with h | h <;> rw [h] <;> simp <;> omega
  · rcases hbit with h | h <;> rw [h, Bool.eq_iff_iff] <;> simp <;> omega

theorem shifted_shiftRight (n k j : ℕ) : shifted n k >>> j = shifted n (k + j) := by
  change j.repeat ExtendedMantissa.shiftRightOne (shifted n k) = _
  induction j with
  | zero => rfl
  | succ j ih => rw [Nat.repeat, ih, shiftRightOne_shifted, Nat.add_assoc]

theorem roundedMantissa_shifted (n k : ℕ) :
    (shifted n k).roundedMantissa = quotient n (2 ^ k) := by
  have hlt : n % 2 ^ k < 2 ^ k := Nat.mod_lt _ (Nat.two_pow_pos k)
  unfold shifted quotient ExtendedMantissa.roundedMantissa
  generalize n % 2 ^ k = r at *
  generalize 2 ^ k = d at *
  rcases Nat.lt_trichotomy (2 * r) d with h | h | h
  · have hround : decide (d ≤ 2 * r) = false := decide_eq_false (by omega)
    rw [hround, if_pos h]
    cases decide (r ≠ 0 ∧ 2 * r ≠ d) <;> rfl
  · have hround : decide (d ≤ 2 * r) = true := decide_eq_true (by omega)
    have hsticky : decide (r ≠ 0 ∧ 2 * r ≠ d) = false := decide_eq_false (by omega)
    rw [hround, hsticky, if_neg (by omega), if_neg (by omega)]
    rfl
  · have hround : decide (d ≤ 2 * r) = true := decide_eq_true (by omega)
    have hsticky : decide (r ≠ 0 ∧ 2 * r ≠ d) = true := decide_eq_true (by omega)
    rw [hround, hsticky, if_neg (by omega), if_pos h]
    rfl

end Shift

/-- The exponent that a number of the format has, given its first place. -/
def lastPlace (m : ℕ) (e : ℤ) : ℤ := max (m.log2 + e - 52) (-1074)

theorem targetExponent_eq (m : ℕ) (e : ℤ) :
    Format.binary64.targetExponent (totalExponent m e) = lastPlace m e := by
  have hmin : Format.binary64.minExponent = -1074 := by decide
  have hbits : Format.binary64.mantissaBits = 53 := rfl
  unfold Format.targetExponent totalExponent lastPlace
  rw [hmin, hbits]
  omega

/-- A value with a mantissa of the format, and with a given magnitude. -/
def IsRounded (s : Sign) (n : ℕ) (x : UnpackedFloat) : Prop :=
  x = .zero s ∧ n = 0 ∨ ∃ m e hm, x = .finite s m e hm ∧ Canonical m e ∧ magnitude m e = n

/-- A mantissa under an exponent as a value. -/
def settled (s : Sign) (m : ℕ) (e : ℤ) : UnpackedFloat :=
  if h : m = 0 then .zero s else .finite s m e (Nat.pos_of_ne_zero h)

theorem isRounded_settled (s : Sign) {m : ℕ} {e : ℤ} (hm : m < 2 ^ 53) (he : -1074 ≤ e)
    (hfull : 2 ^ 52 ≤ m ∨ e = -1074) : IsRounded s (magnitude m e) (settled s m e) := by
  by_cases h : m = 0
  · exact .inl ⟨dif_pos h, by rw [h, magnitude, Nat.zero_mul]⟩
  · exact .inr ⟨m, e, Nat.pos_of_ne_zero h, dif_neg h, ⟨hm, he, hfull⟩, rfl⟩

theorem shiftToTargetExponent_eq {m n k : ℕ} {acc : Accuracy}
    (hacc : ExtendedMantissa.ofMantissaAndAccuracy m acc = shifted n k) (e : ℤ) :
    shiftToTargetExponent .binary64 m e acc =
      (shifted n (k + (lastPlace m e - e).toNat), e + (lastPlace m e - e).toNat) := by
  unfold shiftToTargetExponent shiftToExponent
  dsimp only
  rw [targetExponent_eq, hacc, shifted_shiftRight]

/-- Rounding shifts to the last place, and once more where rounding made the mantissa too long. -/
theorem roundWithAccuracy_eq {m n k : ℕ} {acc : Accuracy}
    (hacc : ExtendedMantissa.ofMantissaAndAccuracy m acc = shifted n k) (s : Sign) {e : ℤ} {j : ℕ}
    (hj : lastPlace m e = e + j) : roundWithAccuracy .binary64 s m e acc =
      settled s (quotient n (2 ^ (k + j)) /
          2 ^ (lastPlace (quotient n (2 ^ (k + j))) (e + j) - (e + j)).toNat)
        (e + j + (lastPlace (quotient n (2 ^ (k + j))) (e + j) - (e + j)).toNat) := by
  have hcalls : roundWithAccuracy .binary64 s m e acc =
      (let p := shiftToTargetExponent .binary64 m e acc
       let q := shiftToTargetExponent .binary64 p.1.roundedMantissa p.2 .exact
       settled s q.1.mantissa q.2) := rfl
  have hshift : (lastPlace m e - e).toNat = j := by omega
  have hexact (r : ℕ) : ExtendedMantissa.ofMantissaAndAccuracy r .exact = shifted r 0 :=
    (shifted_zero r).symm
  rw [hcalls, shiftToTargetExponent_eq hacc, hshift]
  dsimp only
  rw [roundedMantissa_shifted, shiftToTargetExponent_eq (hexact _), Nat.zero_add]
  rfl

theorem lastPlace_le {r : ℕ} (h : r < 2 ^ 53) {t : ℤ} (ht : -1074 ≤ t) : lastPlace r t ≤ t := by
  have hlog : r.log2 < 53 := by
    rcases Nat.eq_zero_or_pos r with h0 | h0
    · rw [h0, Nat.log2_zero]
      decide
    · exact (Nat.log2_lt h0.ne').mpr h
  unfold lastPlace
  omega

theorem lastPlace_two_pow {t : ℤ} (ht : -1074 ≤ t) : lastPlace (2 ^ 53) t = t + 1 := by
  have hlog : (2 ^ 53).log2 = 53 := Nat.log2_two_pow
  unfold lastPlace
  omega

section Mantissa
variable {n k j : ℕ} {e : ℤ}

/-- A mantissa that is rounded at its last place is at most one place too long. -/
theorem quotient_le_of_lastPlace (hj : lastPlace (n / 2 ^ k) e = e + j) :
    quotient n (2 ^ (k + j)) ≤ 2 ^ 53 := by
  have hlog : (n / 2 ^ k).log2 + 1 ≤ 53 + j := by
    unfold lastPlace at hj
    omega
  have hm : n / 2 ^ k < 2 ^ (53 + j) :=
    Nat.lt_log2_self.trans_le (Nat.pow_le_pow_right (by decide) hlog)
  have hn : n ≤ 2 ^ 53 * 2 ^ (k + j) := by
    rw [Nat.div_lt_iff_lt_mul (Nat.two_pow_pos k), ← pow_add] at hm
    rw [← pow_add, show 53 + (k + j) = 53 + j + k by omega]
    exact hm.le
  exact (quotient_mono hn _).trans (quotient_mul _ (Nat.two_pow_pos _)).le

/-- Above the least exponent it has all its places. -/
theorem le_quotient_of_lastPlace (hj : lastPlace (n / 2 ^ k) e = e + j) (hne : e + j ≠ -1074) :
    2 ^ 52 ≤ quotient n (2 ^ (k + j)) := by
  have hlog : (n / 2 ^ k).log2 = 52 + j := by
    unfold lastPlace at hj
    omega
  have hm : 2 ^ (52 + j) ≤ n / 2 ^ k := by
    rw [← hlog]
    refine Nat.log2_self_le fun h => ?_
    rw [h, Nat.log2_zero] at hlog
    omega
  have hn : 2 ^ 52 * 2 ^ (k + j) ≤ n := by
    rw [Nat.le_div_iff_mul_le (Nat.two_pow_pos k), ← pow_add] at hm
    rwa [← pow_add, show 52 + (k + j) = 52 + j + k by omega]
  exact (quotient_mul _ (Nat.two_pow_pos _)).ge.trans (quotient_mono hn _)

end Mantissa

/-- A number that is shifted to its last place is rounded there. -/
theorem isRounded_roundWithAccuracy {m n k : ℕ} {acc : Accuracy}
    (hacc : ExtendedMantissa.ofMantissaAndAccuracy m acc = shifted n k) (s : Sign) {e : ℤ} {j : ℕ}
    (hj : lastPlace m e = e + j) : IsRounded s (magnitude (quotient n (2 ^ (k + j))) (e + j))
      (roundWithAccuracy .binary64 s m e acc) := by
  have hmantissa : m = n / 2 ^ k := by
    rw [show n / 2 ^ k = (shifted n k).mantissa from rfl, ← hacc]
    cases acc with
    | exact => rfl
    | inexact o => cases o <;> rfl
  have hmin : -1074 ≤ e + j := hj ▸ le_max_right _ _
  have hplace : lastPlace (n / 2 ^ k) e = e + j := hmantissa ▸ hj
  have hle := quotient_le_of_lastPlace hplace
  have hfull := or_iff_not_imp_right.mpr (le_quotient_of_lastPlace hplace)
  rw [roundWithAccuracy_eq hacc s hj]
  generalize e + (j : ℤ) = t at *
  generalize quotient n (2 ^ (k + j)) = r at *
  rcases hle.lt_or_eq with hlt | rfl
  · have hstay : (lastPlace r t - t).toNat = 0 :=
      Int.toNat_of_nonpos (sub_nonpos.mpr (lastPlace_le hlt hmin))
    rw [hstay, pow_zero, Nat.div_one]
    simpa using isRounded_settled s hlt hmin hfull
  · have hsame : magnitude (2 ^ 53) t = magnitude (2 ^ 52) (t + 1) := by
      rw [magnitude, magnitude, show (t + 1 + 1074).toNat = (t + 1074).toNat + 1 by omega, pow_succ]
      omega
    rw [lastPlace_two_pow hmin, add_sub_cancel_left, hsame]
    exact isRounded_settled s (by decide) (by omega) (.inl le_rfl)

theorem log2_mul_two_pow {m : ℕ} (hm : 0 < m) (k : ℕ) : (m * 2 ^ k).log2 = m.log2 + k := by
  refine (Nat.log2_eq_iff (Nat.mul_pos hm (Nat.two_pow_pos k)).ne').mpr ⟨?_, ?_⟩
  · rw [pow_add]
    exact Nat.mul_le_mul_right _ (Nat.log2_self_le hm.ne')
  · rw [show m.log2 + k + 1 = m.log2 + 1 + k by omega, pow_add]
    exact Nat.mul_lt_mul_of_pos_right Nat.lt_log2_self (Nat.two_pow_pos k)

/-- The last place of a number is the spacing around its magnitude. -/
theorem nearest_magnitude {m j : ℕ} (hm : 0 < m) {e : ℤ} (he : -1074 ≤ e)
    (hj : lastPlace m e = e + j) :
    nearest (magnitude m e) = magnitude (quotient m (2 ^ j)) (e + j) := by
  have hexponent : (e + j + 1074).toNat = j + (e + 1074).toNat := by omega
  have hspacing : spacing (magnitude m e) = 2 ^ j * 2 ^ (e + 1074).toNat := by
    unfold lastPlace at hj
    rw [spacing, magnitude, log2_mul_two_pow hm, ← pow_add]
    congr 1
    omega
  unfold nearest
  rw [hspacing, magnitude, quotient_scale (Nat.two_pow_pos _), magnitude, hexponent, pow_add]

theorem isRounded_round (s : Sign) {m : ℕ} (hm : 0 < m) {e : ℤ} (he : -1074 ≤ e) :
    IsRounded s (nearest (magnitude m e)) (UnpackedFloat.round .binary64 s m e) := by
  obtain ⟨c, hc⟩ : ∃ c : ℕ, (e - lastPlace m e).toNat = c := ⟨_, rfl⟩
  have hmin : -1074 ≤ lastPlace m e := le_max_right _ _
  have hround : UnpackedFloat.round .binary64 s m e =
      roundWithAccuracy .binary64 s (m * 2 ^ c) (e - c) .exact := by
    unfold UnpackedFloat.round decreaseExponent
    dsimp only
    rw [targetExponent_eq, hc, Nat.shiftLeft_eq]
  have hplace : lastPlace (m * 2 ^ c) (e - c) = lastPlace m e := by
    unfold lastPlace
    rw [log2_mul_two_pow hm]
    omega
  have hsame : magnitude (m * 2 ^ c) (e - c) = magnitude m e := by
    rw [magnitude, magnitude, mul_assoc, ← pow_add]
    congr 2
    omega
  obtain ⟨j, hj⟩ : ∃ j : ℕ, lastPlace (m * 2 ^ c) (e - c) = e - c + j :=
    ⟨(lastPlace m e - (e - c)).toNat, by omega⟩
  have hexact : ExtendedMantissa.ofMantissaAndAccuracy (m * 2 ^ c) .exact =
      shifted (m * 2 ^ c) 0 := (shifted_zero _).symm
  rw [hround, ← hsame, nearest_magnitude (Nat.mul_pos hm (Nat.two_pow_pos c)) (by omega) hj]
  simpa using isRounded_roundWithAccuracy hexact s hj

/-- A whole number as a number of the format: rounded, and infinite where it is too large. -/
def rounded (z : ℤ) : ℤ := max (-top) (min (nearestInt z) top)

theorem rounded_mono {x y : ℤ} (h : x ≤ y) : rounded x ≤ rounded y :=
  max_le_max_left _ (min_le_min_right _ (nearestInt_mono h))

theorem IsRounded.units_pack {s : Sign} {n : ℕ} {x : UnpackedFloat} (h : IsRounded s n x) :
    unpackedUnits? (Float.Model.pack x).unpack = some (s.apply (min n top : ℕ)) := by
  rcases h with ⟨rfl, rfl⟩ | ⟨m, e, hm, rfl, hcanonical, rfl⟩
  · rw [unpack_pack (x := .zero s) trivial]
    cases s <;> rfl
  · by_cases he : e ≤ 971
    · rw [unpack_pack (x := .finite s m e hm) ⟨hcanonical, he⟩,
        min_eq_left (hcanonical.magnitude_lt_top he).le]
      rfl
    · rw [unpack_pack_large s hm (not_le.mp he),
        min_eq_right (hcanonical.top_le_magnitude (not_le.mp he))]
      rfl

theorem rounded_zero : rounded 0 = 0 := by
  have hnearest : nearestInt 0 = 0 := rfl
  unfold rounded
  omega

theorem rounded_apply (s : Sign) (n : ℕ) :
    rounded (s.apply n) = s.apply (min (nearest n) top : ℕ) := by
  unfold rounded
  cases s with
  | negative =>
    change max _ (min (nearestInt (-n)) _) = -((min (nearest n) top : ℕ) : ℤ)
    rw [nearestInt_neg, nearestInt_natCast]
    omega
  | positive =>
    change max _ (min (nearestInt n) _) = ((min (nearest n) top : ℕ) : ℤ)
    rw [nearestInt_natCast]
    omega

theorem units_pack_round (s : Sign) {m : ℕ} (hm : 0 < m) {e : ℤ} (he : -1074 ≤ e) :
    unpackedUnits? (Float.Model.pack (UnpackedFloat.round .binary64 s m e)).unpack =
      some (rounded (s.apply (magnitude m e))) := by
  rw [(isRounded_round s hm he).units_pack, rounded_apply]

theorem units_pack_normalize (z : ℤ) {e : ℤ} (he : -1074 ≤ e) (s : Sign) :
    unpackedUnits? (Float.Model.pack (UnpackedFloat.normalize .binary64 z e s)).unpack =
      some (rounded (z * 2 ^ (e + 1074).toNat)) := by
  unfold UnpackedFloat.normalize
  rcases lt_trichotomy z 0 with hz | rfl | hz
  · obtain ⟨n, hn⟩ := Int.eq_ofNat_of_zero_le (neg_nonneg.mpr hz.le)
    obtain rfl : z = -n := by omega
    rw [compare_lt_iff_lt.mpr hz]
    dsimp only
    rw [neg_neg, Int.toNat_natCast, units_pack_round _ (by omega) he]
    congr 2
    change -((magnitude n e : ℕ) : ℤ) = _
    rw [magnitude, neg_mul]
    push_cast
    rfl
  · rw [compare_eq_iff_eq.mpr rfl, zero_mul]
    dsimp only
    rw [unpack_pack (x := .zero s) trivial, rounded_zero]
    rfl
  · obtain ⟨n, rfl⟩ := Int.eq_ofNat_of_zero_le hz.le
    rw [compare_gt_iff_gt.mpr hz]
    dsimp only
    rw [Int.toNat_natCast, units_pack_round _ (by omega) he]
    congr 2

/-- What is in the format is its own rounding. -/
theorem rounded_units {x : UnpackedFloat} (hx : InFormat x) {z : ℤ}
    (hz : unpackedUnits? x = some z) : rounded z = z := by
  cases x with
  | notANumber => cases hz
  | infinity s =>
    obtain rfl := Option.some.inj hz
    have hnearest : nearest top = top := by
      rw [top_eq]
      exact nearest_mul_two_pow (by decide) _
    rw [rounded_apply, hnearest, min_self]
  | zero s =>
    obtain rfl := Option.some.inj hz
    exact rounded_zero
  | finite s m e hm =>
    obtain rfl := Option.some.inj hz
    have hnearest : nearest (magnitude m e) = magnitude m e :=
      nearest_mul_two_pow hx.1.mantissa_lt _
    rw [rounded_apply, hnearest, min_eq_left (hx.1.magnitude_lt_top hx.2).le]

/-- The units of a sum whose second part is bounded. -/
def sum (x y : ℤ) : ℤ := if InRange x then rounded (x + y) else x

theorem rounded_bounds (z : ℤ) : -(top : ℤ) ≤ rounded z ∧ rounded z ≤ top := by
  have htop := top_pos
  unfold rounded
  omega

theorem sum_mono {x z : ℤ} (hx : -(top : ℤ) ≤ x) (hz : z ≤ top) (h : x ≤ z) (y : ℤ) :
    sum x y ≤ sum z y := by
  have hxy := rounded_bounds (x + y)
  have hzy := rounded_bounds (z + y)
  have hmono : rounded (x + y) ≤ rounded (z + y) := rounded_mono (by omega)
  unfold sum
  split_ifs <;> omega

theorem inRange_apply (s : Sign) {n : ℕ} (h : n < top) : InRange (s.apply n) := by
  cases s with
  | negative => change -(top : ℤ) < -n ∧ -(n : ℤ) < top; omega
  | positive => change -(top : ℤ) < n ∧ (n : ℤ) < top; omega

theorem not_inRange_top (s : Sign) : ¬ InRange (s.apply top) := by
  cases s with
  | negative => change ¬ (-(top : ℤ) < -top ∧ -(top : ℤ) < top); omega
  | positive => change ¬ (-(top : ℤ) < top ∧ (top : ℤ) < top); omega

theorem apply_neg (s : Sign) (z : ℤ) : (-s).apply z = -s.apply z := by
  cases s with
  | negative => exact (neg_neg z).symm
  | positive => rfl

theorem units_unpacked_neg {x : UnpackedFloat} {z : ℤ} (h : unpackedUnits? x = some z) :
    unpackedUnits? x.neg = some (-z) := by
  cases x with
  | notANumber => cases h
  | infinity s => rw [← Option.some.inj h]; exact congrArg some (apply_neg s _)
  | zero s => rw [← Option.some.inj h]; rfl
  | finite s m e hm => rw [← Option.some.inj h]; exact congrArg some (apply_neg s _)

theorem inFormat_neg {x : UnpackedFloat} (h : InFormat x) : InFormat x.neg := by
  cases x <;> exact h

theorem sub_eq_add (x y : UnpackedFloat) : x.sub .binary64 y = x.add .binary64 y.neg := by
  cases x with
  | notANumber => rfl
  | infinity s => cases y <;> rfl
  | zero s => cases y <;> rfl
  | finite s m e hm =>
    cases y with
    | notANumber => rfl
    | infinity t => rfl
    | zero t => rfl
    | finite t n k hn =>
      change UnpackedFloat.normalize _ (_ - _) _ _ = UnpackedFloat.normalize _ (_ + _) _ _
      rw [apply_neg, ← Int.sub_eq_add_neg]

theorem magnitude_shiftLeft (m : ℕ) {e t : ℤ} (ht : -1074 ≤ t) (h : t ≤ e) :
    magnitude (m <<< (e - t).toNat) t = magnitude m e := by
  rw [magnitude, magnitude, Nat.shiftLeft_eq, mul_assoc, ← pow_add]
  congr 2
  omega

theorem apply_magnitude (s : Sign) (m : ℕ) (e : ℤ) :
    s.apply (magnitude m e) = s.apply m * 2 ^ (e + 1074).toNat := by
  cases s with
  | negative =>
    change -((m * 2 ^ (e + 1074).toNat : ℕ) : ℤ) = -(m : ℤ) * _
    push_cast
    rw [neg_mul]
  | positive =>
    change ((m * 2 ^ (e + 1074).toNat : ℕ) : ℤ) = (m : ℤ) * _
    push_cast
    rfl

theorem units_unpacked_add {x y : UnpackedFloat} (hx : InFormat x) (hy : InFormat y) {i j : ℤ}
    (hi : unpackedUnits? x = some i) (hj : unpackedUnits? y = some j) (hbound : InRange j) :
    unpackedUnits? (Float.Model.pack (x.add .binary64 y)).unpack = some (sum i j) := by
  have htop := top_pos
  cases y with
  | notANumber => cases hj
  | infinity t =>
    obtain rfl := Option.some.inj hj
    exact absurd hbound (not_inRange_top t)
  | zero t =>
    obtain rfl := Option.some.inj hj
    have hsum : sum i 0 = i := by
      unfold sum
      rw [add_zero, rounded_units hx hi, ite_self]
    rw [hsum]
    cases x with
    | notANumber => cases hi
    | infinity s =>
      rw [← hi]
      exact congrArg _ (unpack_pack (x := .infinity s) trivial)
    | zero s =>
      rw [← hi]
      cases s <;> cases t <;> rfl
    | finite s m e hm =>
      rw [← hi]
      exact congrArg _ (unpack_pack hx)
  | finite t n k hn =>
    cases x with
    | notANumber => cases hi
    | infinity s =>
      obtain rfl := Option.some.inj hi
      rw [sum, if_neg (not_inRange_top s)]
      exact congrArg _ (unpack_pack (x := .infinity s) trivial)
    | zero s =>
      obtain rfl := Option.some.inj hi
      rw [sum, if_pos (by omega), zero_add, rounded_units hy hj, ← hj]
      exact congrArg _ (unpack_pack hy)
    | finite s m e hm =>
      have hmin : -1074 ≤ min e k := le_min hx.1.exponent_ge hy.1.exponent_ge
      obtain rfl := Option.some.inj hi
      obtain rfl := Option.some.inj hj
      rw [sum, if_pos (inRange_apply s (hx.1.magnitude_lt_top hx.2))]
      refine (units_pack_normalize _ hmin _).trans (congrArg (some ∘ rounded) ?_)
      rw [add_mul, ← apply_magnitude, ← apply_magnitude,
        magnitude_shiftLeft m hmin (min_le_left _ _),
        magnitude_shiftLeft n hmin (min_le_right _ _)]

section Half

/-- Half of some units, rounded. -/
def half (x : ℤ) : ℤ := x.sign * quotient x.natAbs 2

theorem half_apply (s : Sign) (n : ℕ) : half (s.apply n) = s.apply (quotient n 2 : ℕ) := by
  rcases Nat.eq_zero_or_pos n with rfl | hn
  · cases s <;> rfl
  · cases s with
    | negative =>
      change half (-(n : ℤ)) = -((quotient n 2 : ℕ) : ℤ)
      rw [half, Int.natAbs_neg, Int.natAbs_natCast, Int.sign_neg,
        Int.sign_natCast_of_ne_zero hn.ne', neg_one_mul]
    | positive =>
      change half (n : ℤ) = ((quotient n 2 : ℕ) : ℤ)
      rw [half, Int.natAbs_natCast, Int.sign_natCast_of_ne_zero hn.ne', one_mul]

/-- Half of a positive number is less than it, and off by at most half of a last place. -/
theorem half_bounds {x : ℤ} (hx : 0 < x) : 0 ≤ half x ∧ half x < x ∧ 2 * half x ≤ x + 1 := by
  obtain ⟨n, rfl⟩ := Int.eq_ofNat_of_zero_le hx.le
  have hhalf : half n = (quotient n 2 : ℕ) := half_apply .positive n
  rw [hhalf]
  rcases quotient_cases n 2 with ⟨h, -⟩ | ⟨h, hodd⟩
  · rw [h]
    omega
  · have hone : n ≠ 1 := by
      rintro rfl
      exact absurd h (by decide)
    rw [h]
    omega

theorem half_inRange {x : ℤ} (hpos : 0 < x) (hx : InRange x) : InRange (half x) := by
  obtain ⟨hnonneg, hlt, -⟩ := half_bounds hpos
  have htop := top_pos
  omega

theorem ofMantissaAndAccuracy_fraction (n k : ℕ) :
    ExtendedMantissa.ofMantissaAndAccuracy (n / 2 ^ k)
      (accuracyOfFraction (n % 2 ^ k) (2 ^ k)) = shifted n k := by
  have hlt : n % 2 ^ k < 2 ^ k := Nat.mod_lt _ (Nat.two_pow_pos k)
  unfold shifted accuracyOfFraction
  generalize n % 2 ^ k = r at *
  generalize 2 ^ k = d at *
  rcases Nat.eq_zero_or_pos r with rfl | hr
  · have hlow : decide (d ≤ 2 * 0) = false := decide_eq_false (by omega)
    rw [hlow, if_pos rfl]
    rfl
  · rw [if_neg hr.ne']
    rcases lt_trichotomy (2 * r) d with h | h | h
    · have hround : decide (d ≤ 2 * r) = false := decide_eq_false (by omega)
      have hsticky : decide (r ≠ 0 ∧ 2 * r ≠ d) = true := decide_eq_true (by omega)
      rw [hround, hsticky, compare_lt_iff_lt.mpr h]
      rfl
    · have hround : decide (d ≤ 2 * r) = true := decide_eq_true (by omega)
      have hsticky : decide (r ≠ 0 ∧ 2 * r ≠ d) = false := decide_eq_false (by omega)
      rw [hround, hsticky, compare_eq_iff_eq.mpr h]
      rfl
    · have hround : decide (d ≤ 2 * r) = true := decide_eq_true (by omega)
      have hsticky : decide (r ≠ 0 ∧ 2 * r ≠ d) = true := decide_eq_true (by omega)
      rw [hround, hsticky, compare_gt_iff_gt.mpr h]
      rfl

theorem unpack_two : (Scalar.two : Float).toModel.unpack =
    .finite .positive (2 ^ 52) (-51) (by decide) := rfl

/-- A quotient by two is taken with two places more than its mantissa has. -/
theorem div_two_eq (s : Sign) {m : ℕ} {e : ℤ} (hm : 0 < m) (hformat : Canonical m e) :
    ∃ c : ℕ, ∃ t : ℤ, t = max (m.log2 + e - 54) (-1074) ∧ t + c = e + 51 ∧
      (UnpackedFloat.finite s m e hm).div .binary64 (.finite .positive (2 ^ 52) (-51) (by decide)) =
        roundWithAccuracy .binary64 s (m * 2 ^ c / 2 ^ 52) t
          (accuracyOfFraction (m * 2 ^ c % 2 ^ 52) (2 ^ 52)) := by
  have hmin := hformat.exponent_ge
  have hlog : m.log2 < 53 := (Nat.log2_lt hm.ne').mpr hformat.mantissa_lt
  obtain ⟨t, ht⟩ : ∃ t : ℤ, t = max (m.log2 + e - 54) (-1074) := ⟨_, rfl⟩
  have htarget : min (e - -51) (Format.binary64.targetExponent
      (totalExponent m e - totalExponent (2 ^ 52) (-51))) = t := by
    have htwo : totalExponent (2 ^ 52) (-51) = 2 := rfl
    have hmin : Format.binary64.minExponent = -1074 := by decide
    have hbits : Format.binary64.mantissaBits = 53 := rfl
    rw [htwo, Format.targetExponent, hmin, hbits, totalExponent]
    omega
  have hcore : divCore .binary64 m e (2 ^ 52) (-51) = (m * 2 ^ (e + 51 - t).toNat / 2 ^ 52, t,
      accuracyOfFraction (m * 2 ^ (e + 51 - t).toNat % 2 ^ 52) (2 ^ 52)) := by
    unfold divCore
    dsimp only
    rw [htarget, Nat.shiftLeft_eq, sub_neg_eq_add]
  have hsign : s / Sign.positive = s := by cases s <;> rfl
  refine ⟨(e + 51 - t).toNat, t, ht, by omega, ?_⟩
  change (let (m, e, acc) := divCore .binary64 m e (2 ^ 52) (-51)
    roundWithAccuracy .binary64 (s / Sign.positive) m e acc) = _
  rw [hcore, hsign]

/-- Under the least exponent half of a number may lose its last bit. -/
theorem half_places_of_lt {m c : ℕ} {e : ℤ} (hm : 0 < m) (hmin : -1074 ≤ e)
    (hlow : (m.log2 : ℤ) + e < -1020) (hc : -1074 + c = e + 51) :
    lastPlace (m * 2 ^ c / 2 ^ 52) (-1074) = -1074 ∧
      magnitude (quotient (m * 2 ^ c) (2 ^ 52)) (-1074) = quotient (magnitude m e) 2 := by
  have hscaled : m * 2 ^ c = magnitude m e * 2 ^ 51 := by
    rw [magnitude, mul_assoc, ← pow_add]
    congr 2
    omega
  have hlength : (magnitude m e).log2 ≤ 53 := by
    rw [magnitude, log2_mul_two_pow hm]
    omega
  have hsize : magnitude m e < 2 ^ 54 :=
    Nat.lt_log2_self.trans_le (Nat.pow_le_pow_right (by decide) (by omega))
  rw [hscaled, show 2 ^ 52 = 2 * 2 ^ 51 from rfl, Nat.mul_div_mul_right _ _ (by decide),
    quotient_scale (by decide)]
  exact ⟨le_antisymm (lastPlace_le (by omega) le_rfl) (le_max_right _ _), Nat.mul_one _⟩

/-- Above it half of a number has the same places. -/
theorem half_places_of_le {m i : ℕ} {e t : ℤ} (hm : 0 < m) (ht : t = m.log2 + e - 54)
    (hmin : -1074 ≤ t) (hi : t + i + 2 = e) :
    lastPlace (m * 2 ^ (i + 53) / 2 ^ 52) t = t + 1 ∧
      magnitude (quotient (m * 2 ^ (i + 53)) (2 ^ 53)) (t + 1) = quotient (magnitude m e) 2 := by
  have hlonger : m * 2 ^ (i + 53) / 2 ^ 52 = m * 2 ^ (i + 1) := by
    rw [show i + 53 = i + 1 + 52 by omega, pow_add _ _ 52, ← mul_assoc]
    exact Nat.mul_div_cancel _ (by decide)
  have hdouble : magnitude m e = magnitude (m * 2 ^ i) (t + 1) * 2 := by
    rw [magnitude, magnitude, mul_assoc, mul_assoc, ← pow_succ, ← pow_add]
    congr 2
    omega
  constructor
  · rw [hlonger, lastPlace, log2_mul_two_pow hm]
    omega
  · rw [pow_add, ← mul_assoc, quotient_mul _ (Nat.two_pow_pos _), hdouble,
      quotient_mul _ (by decide)]

/-- Halving loses a last bit only where the exponent cannot be any less. -/
theorem half_places {m c : ℕ} {e t : ℤ} (hm : 0 < m) (hformat : Canonical m e)
    (ht : t = max (m.log2 + e - 54) (-1074)) (hc : t + c = e + 51) :
    ∃ j : ℕ, lastPlace (m * 2 ^ c / 2 ^ 52) t = t + j ∧
      magnitude (quotient (m * 2 ^ c) (2 ^ (52 + j))) (t + j) = quotient (magnitude m e) 2 := by
  have hlog : m.log2 < 53 := (Nat.log2_lt hm.ne').mpr hformat.mantissa_lt
  rcases lt_or_ge ((m.log2 : ℤ) + e) (-1020) with hlow | hhigh
  · obtain rfl : t = -1074 := by omega
    obtain ⟨hplace, hhalf⟩ := half_places_of_lt hm hformat.exponent_ge hlow hc
    exact ⟨0, by simpa using hplace, by simpa using hhalf⟩
  · obtain ⟨i, rfl⟩ : ∃ i, c = i + 53 := ⟨c - 53, by omega⟩
    exact ⟨1, half_places_of_le hm (by omega) (by omega) (by omega)⟩

theorem units_unpacked_half {x : UnpackedFloat} (hx : InFormat x) {i : ℤ}
    (hi : unpackedUnits? x = some i) (hbound : InRange i) :
    unpackedUnits? (Float.Model.pack
      (x.div .binary64 (Scalar.two : Float).toModel.unpack)).unpack = some (half i) := by
  rw [unpack_two]
  cases x with
  | notANumber => cases hi
  | infinity s =>
    obtain rfl := Option.some.inj hi
    exact absurd hbound (not_inRange_top s)
  | zero s =>
    obtain rfl := Option.some.inj hi
    cases s <;> rfl
  | finite s m e hm =>
    obtain rfl := Option.some.inj hi
    obtain ⟨c, t, ht, hc, hdiv⟩ := div_two_eq s hm hx.1
    obtain ⟨j, hj, hhalf⟩ := half_places hm hx.1 ht hc
    have hrounded :=
      isRounded_roundWithAccuracy (ofMantissaAndAccuracy_fraction (m * 2 ^ c) 52) s hj
    have hle : quotient (magnitude m e) 2 ≤ top := by
      have hlt := hx.1.magnitude_lt_top hx.2
      have hq := quotient_mul_le (magnitude m e) 2
      omega
    rw [hdiv, hrounded.units_pack, hhalf, min_eq_left hle, half_apply]

end Half

section Float
variable {a b : Float} {x y : ℤ}

theorem units_bounds (ha : units? a = some x) : -(top : ℤ) ≤ x ∧ x ≤ top := by
  have hx := rounded_bounds x
  rwa [rounded_units (inFormat_unpack _) ha] at hx

theorem units_add (ha : units? a = some x) (hb : units? b = some y) (hy : InRange y) :
    units? (a + b) = some (sum x y) :=
  units_unpacked_add (inFormat_unpack _) (inFormat_unpack _) ha hb hy

theorem units_sub (ha : units? a = some x) (hb : units? b = some y) (hy : InRange y) :
    units? (a - b) = some (sum x (-y)) := by
  change unpackedUnits?
    (Float.Model.pack (a.toModel.unpack.sub .binary64 b.toModel.unpack)).unpack = _
  rw [sub_eq_add]
  exact units_unpacked_add (inFormat_unpack _) (inFormat_neg (inFormat_unpack _)) ha
    (units_unpacked_neg hb) (by omega)

theorem units_sub_self (ha : ¬ ∃ x ∈ units? a, InRange x) : units? (a - a) = none := by
  have hunits : ∀ x ∈ unpackedUnits? a.toModel.unpack, ¬ InRange x := fun x hx h => ha ⟨x, hx, h⟩
  have hformat : InFormat a.toModel.unpack := inFormat_unpack _
  change unpackedUnits?
    (Float.Model.pack (a.toModel.unpack.sub .binary64 a.toModel.unpack)).unpack = _
  have htop := top_pos
  cases hunpack : a.toModel.unpack with
  | notANumber => rfl
  | infinity s => cases s <;> rfl
  | zero s =>
    rw [hunpack] at hunits
    exact absurd (show InRange 0 by omega) (hunits 0 rfl)
  | finite s m e hm =>
    rw [hunpack] at hunits hformat
    exact absurd (inRange_apply s (hformat.1.magnitude_lt_top hformat.2)) (hunits _ rfl)

theorem isFinite_iff : Scalar.isFinite a = true ↔ ∃ x ∈ units? a, InRange x := by
  constructor
  · intro h
    obtain ⟨d, hd, -⟩ := beq_iff_exists.mp h
    by_contra hnone
    rw [units_sub_self hnone] at hd
    cases hd
  · rintro ⟨x, ha, hx⟩
    have hsub := units_sub ha ha hx
    rw [sum, if_pos hx, add_neg_cancel, rounded_zero] at hsub
    exact beq_iff_exists.mpr ⟨0, hsub, 0, units?_zero, rfl⟩

theorem units_half (ha : units? a = some x) (hx : InRange x) :
    units? (a / Scalar.two) = some (half x) :=
  units_unpacked_half (inFormat_unpack _) ha hx

end Float

end Toolpath.Binary
