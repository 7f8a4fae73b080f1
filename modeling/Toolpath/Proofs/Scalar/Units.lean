import Mathlib.SetTheory.Cardinal.Finite
import Mathlib.Order.Compare
import Toolpath.Proofs.Scalar.Nearest
import Toolpath.Scalar

/-!
Binary floating point in units of its smallest positive number. What is a number at all has a whole
number of units, the infinities one beyond all others, and numbers compare as their units do.
-/
namespace Toolpath.Binary
open Float.Model UnpackedFloat

/-- The units of a mantissa under an exponent. -/
def magnitude (m : ℕ) (e : ℤ) : ℕ := m * 2 ^ (e + 1074).toNat

/-- The units of an infinity: those of the first number that is out of range. -/
@[irreducible] def top : ℕ := magnitude (2 ^ 52) 972

/-- The units of an unpacked value. -/
def unpackedUnits? : UnpackedFloat → Option ℤ
  | .notANumber => none
  | .infinity s => some (s.apply top)
  | .zero _ => some 0
  | .finite s m e _ => some (s.apply (magnitude m e))

/-- The mantissa of a finite value has 53 bits, or what the least exponent leaves of them. -/
structure Canonical (m : ℕ) (e : ℤ) : Prop where
  mantissa_lt : m < 2 ^ 53
  exponent_ge : -1074 ≤ e
  full : 2 ^ 52 ≤ m ∨ e = -1074

/-- What a packed value unpacks to. -/
def InFormat : UnpackedFloat → Prop
  | .finite _ m e _ => Canonical m e ∧ e ≤ 971
  | _ => True

theorem magnitude_pos {m : ℕ} (hm : 0 < m) (e : ℤ) : 0 < magnitude m e :=
  Nat.mul_pos hm (Nat.two_pow_pos _)

theorem magnitude_lt_magnitude {m n : ℕ} {e : ℤ} :
    magnitude m e < magnitude n e ↔ m < n := Nat.mul_lt_mul_right (Nat.two_pow_pos _)

theorem compare_of_strictMono {β γ : Type} [LinearOrder β] [LinearOrder γ] {f : β → γ}
    (h : StrictMono f) (a b : β) : compare (f a) (f b) = compare a b := by
  rw [← cmp_eq_compare, ← cmp_eq_compare, h.cmp_map_eq]

theorem compare_neg (a b : ℤ) : compare (-a) (-b) = (compare a b).swap := by
  have hneg : StrictAnti fun z : ℤ => -z := fun _ _ => neg_lt_neg
  rw [← cmp_eq_compare, ← cmp_eq_compare, cmp_swap]
  exact hneg.cmp_map_eq a b

theorem top_eq : top = magnitude (2 ^ 52) 972 := by
  unfold top
  rfl

/-- The units of what is bounded. -/
abbrev InRange (z : ℤ) : Prop := -(top : ℤ) < z ∧ z < top

theorem top_pos : 0 < top := by
  rw [top_eq]
  exact magnitude_pos (Nat.two_pow_pos _) _

theorem canonical_top : Canonical (2 ^ 52) 972 := ⟨by decide, by decide, .inl le_rfl⟩

namespace Canonical
variable {m n : ℕ} {e k : ℤ}

/-- A larger exponent is a larger magnitude, whatever the mantissas. -/
theorem magnitude_lt_of_exponent_lt (hm : Canonical m e) (hn : Canonical n k) (h : e < k) :
    magnitude m e < magnitude n k := by
  have hmin := hm.exponent_ge
  have hfull : 2 ^ 52 ≤ n := hn.full.resolve_right (by omega)
  have hpow : 2 ^ ((e + 1074).toNat + 1) ≤ 2 ^ (k + 1074).toNat :=
    Nat.pow_le_pow_right (by decide) (by omega)
  calc m * 2 ^ (e + 1074).toNat < 2 ^ 53 * 2 ^ (e + 1074).toNat :=
        Nat.mul_lt_mul_of_pos_right hm.mantissa_lt (Nat.two_pow_pos _)
    _ = 2 ^ 52 * 2 ^ ((e + 1074).toNat + 1) := by rw [Nat.pow_succ]; omega
    _ ≤ magnitude n k := Nat.mul_le_mul hfull hpow

theorem magnitude_lt_top (hm : Canonical m e) (he : e ≤ 971) : magnitude m e < top := by
  rw [top_eq]
  exact magnitude_lt_of_exponent_lt hm canonical_top (by omega)

theorem top_le_magnitude (hm : Canonical m e) (he : 971 < e) : top ≤ magnitude m e := by
  rw [top_eq]
  rcases (show 972 ≤ e by omega).lt_or_eq with h | rfl
  · exact (magnitude_lt_of_exponent_lt canonical_top hm h).le
  · exact Nat.mul_le_mul_right _ (hm.full.resolve_right (by omega))

/-- Comparing exponents and then mantissas compares magnitudes. -/
theorem compare_magnitude (hm : Canonical m e) (hn : Canonical n k) :
    (compare e k).then (compare m n) = compare (magnitude m e) (magnitude n k) := by
  rcases lt_trichotomy e k with h | rfl | h
  · rw [compare_lt_iff_lt.mpr h, compare_lt_iff_lt.mpr (magnitude_lt_of_exponent_lt hm hn h)]
    rfl
  · rw [compare_eq_iff_eq.mpr rfl]
    exact (compare_of_strictMono (fun _ _ => magnitude_lt_magnitude.mpr) m n).symm
  · rw [compare_gt_iff_gt.mpr h, compare_gt_iff_gt.mpr (magnitude_lt_of_exponent_lt hn hm h)]
    rfl

end Canonical

section Compare
variable {a b : ℤ}

private theorem some_lt (h : a < b) : some Ordering.lt = some (compare a b) := by
  rw [compare_lt_iff_lt.mpr h]

private theorem some_eq (h : a = b) : some Ordering.eq = some (compare a b) := by
  rw [compare_eq_iff_eq.mpr h]

private theorem some_gt (h : b < a) : some Ordering.gt = some (compare a b) := by
  rw [compare_gt_iff_gt.mpr h]

end Compare

/-- Values of the format compare as their units do. -/
theorem compare_eq_units {x y : UnpackedFloat} (hx : InFormat x) (hy : InFormat y) :
    x.compare y = (unpackedUnits? x).bind fun a => (unpackedUnits? y).map fun b => compare a b := by
  have htop := top_pos
  cases x with
  | notANumber => rfl
  | infinity s =>
    cases y with
    | notANumber => cases s <;> rfl
    | infinity t =>
      cases s <;> cases t
      · exact some_eq rfl
      · exact some_lt (show -(top : ℤ) < top by omega)
      · exact some_gt (show -(top : ℤ) < top by omega)
      · exact some_eq rfl
    | zero t =>
      cases s
      · exact some_lt (show -(top : ℤ) < 0 by omega)
      · exact some_gt (show (0 : ℤ) < top by omega)
    | finite t n k hn =>
      have hlt := hy.1.magnitude_lt_top hy.2
      cases s <;> cases t
      · exact some_lt (show -(top : ℤ) < -(magnitude n k) by omega)
      · exact some_lt (show -(top : ℤ) < magnitude n k by omega)
      · exact some_gt (show -(magnitude n k : ℤ) < top by omega)
      · exact some_gt (show (magnitude n k : ℤ) < top by omega)
  | zero s =>
    cases y with
    | notANumber => rfl
    | infinity t =>
      cases t
      · exact some_gt (show -(top : ℤ) < 0 by omega)
      · exact some_lt (show (0 : ℤ) < top by omega)
    | zero t => exact some_eq rfl
    | finite t n k hn =>
      have hpos := magnitude_pos hn k
      cases t
      · exact some_gt (show -(magnitude n k : ℤ) < 0 by omega)
      · exact some_lt (show (0 : ℤ) < magnitude n k by omega)
  | finite s m e hm =>
    have hlt := hx.1.magnitude_lt_top hx.2
    have hpos := magnitude_pos hm e
    cases y with
    | notANumber => cases s <;> rfl
    | infinity t =>
      cases s <;> cases t
      · exact some_gt (show -(top : ℤ) < -(magnitude m e) by omega)
      · exact some_lt (show -(magnitude m e : ℤ) < top by omega)
      · exact some_gt (show -(top : ℤ) < magnitude m e by omega)
      · exact some_lt (show (magnitude m e : ℤ) < top by omega)
    | zero t =>
      cases s
      · exact some_lt (show -(magnitude m e : ℤ) < 0 by omega)
      · exact some_gt (show (0 : ℤ) < magnitude m e by omega)
    | finite t n k hn =>
      have hpos' := magnitude_pos hn k
      have hmagnitude := hx.1.compare_magnitude hy.1
      cases s <;> cases t
      · change some ((compare e k).then (compare m n)).swap =
          some (compare (-(magnitude m e : ℤ)) (-(magnitude n k)))
        rw [hmagnitude, compare_neg, compare_of_strictMono Int.natCast_strictMono]
      · exact some_lt (show -(magnitude m e : ℤ) < magnitude n k by omega)
      · exact some_gt (show -(magnitude n k : ℤ) < magnitude m e by omega)
      · change some ((compare e k).then (compare m n)) =
          some (compare (magnitude m e : ℤ) (magnitude n k))
        rw [hmagnitude, compare_of_strictMono Int.natCast_strictMono]

section Pack

theorem ofBitVec_unpackSign (s : Sign) (e : BitVec 11) (m : BitVec 52) :
    Sign.ofBitVec (unpackSign (packComponents .binary64 s e m)) = s := by
  unfold unpackSign packComponents BitVec.extractLsb
  rw [BitVec.extractLsb'_append_eq_of_le (by decide),
    BitVec.extractLsb'_append_eq_of_le (by decide)]
  cases s <;> rfl

theorem toNat_implicit (m : BitVec 52) : (1#1 ++ m).toNat = 2 ^ 52 + m.toNat := by
  rw [BitVec.toNat_append, ← Nat.shiftLeft_add_eq_or_of_lt m.isLt]
  rfl

theorem unpack_packedInfinity (s : Sign) :
    UnpackedFloat.unpack .binary64 (packedInfinity .binary64 s) = .infinity s := by
  cases s <;> rfl

theorem unpack_packedZero (s : Sign) :
    UnpackedFloat.unpack .binary64 (packedZero .binary64 s) = .zero s := by
  cases s <;> rfl

theorem finite_congr {s t : Sign} {m n : Nat} {e k : ℤ} (hs : s = t) (hmn : m = n) (he : e = k)
    (hm : 0 < m) (hn : 0 < n) : UnpackedFloat.finite s m e hm = .finite t n k hn := by
  subst hs hmn he
  rfl

theorem unpack_of_normal {spec : Format} {s : Sign} {e : BitVec spec.exponentBits}
    {m : BitVec spec.mantissaBitsWithoutImplicit} {b : BitVec spec.numBits}
    (hs : Sign.ofBitVec (unpackSign b) = s) (he : unpackExponent b = e) (hm : unpackMantissa b = m)
    (hne : e ≠ -1#_) (hnz : e ≠ 0#_) (h : 0 < (1#1 ++ m).toNat) :
    UnpackedFloat.unpack spec b = .finite s (1#1 ++ m).toNat
      (e.toNat - (spec.exponentBias + spec.mantissaBitsWithoutImplicit)) h := by
  subst hs he hm
  unfold UnpackedFloat.unpack
  exact (if_neg hne).trans (if_neg hnz)

theorem unpack_of_subnormal {spec : Format} {s : Sign} {e : BitVec spec.exponentBits}
    {m : BitVec spec.mantissaBitsWithoutImplicit} {b : BitVec spec.numBits}
    (hs : Sign.ofBitVec (unpackSign b) = s) (he : unpackExponent b = e) (hm : unpackMantissa b = m)
    (hne : e ≠ -1#_) (hz : e = 0#_) (hnz : m ≠ 0#_) (h : 0 < m.toNat) :
    UnpackedFloat.unpack spec b = .finite s m.toNat
      (e.toNat - (spec.exponentBias + spec.mantissaBitsWithoutImplicit) + 1) h := by
  subst hs he hm
  unfold UnpackedFloat.unpack
  exact (if_neg hne).trans ((if_pos hz).trans (dif_neg hnz))

theorem unpack_of_zero {spec : Format} {b : BitVec spec.numBits} (hne : unpackExponent b ≠ -1#_)
    (hz : unpackExponent b = 0#_) (hm : unpackMantissa b = 0#_) :
    UnpackedFloat.unpack spec b = .zero (Sign.ofBitVec (unpackSign b)) := by
  unfold UnpackedFloat.unpack
  exact (if_neg hne).trans ((if_pos hz).trans (dif_pos hm))

theorem unpack_of_largest {spec : Format} {b : BitVec spec.numBits} (h : unpackExponent b = -1#_) :
    UnpackedFloat.unpack spec b = .notANumber ∨ ∃ s, UnpackedFloat.unpack spec b = .infinity s := by
  unfold UnpackedFloat.unpack
  by_cases hm : unpackMantissa b = 0#_
  · exact .inr ⟨_, (if_pos h).trans (if_pos hm)⟩
  · exact .inl ((if_pos h).trans (if_neg hm))

theorem unpack_normal (s : Sign) {e : BitVec 11} (hne : e ≠ -1#11) (hnz : e ≠ 0#11)
    (m : BitVec 52) : UnpackedFloat.unpack .binary64 (packComponents .binary64 s e m) =
      .finite s (2 ^ 52 + m.toNat) (e.toNat - 1075) (by omega) := by
  have hpos : 0 < (1#1 ++ m).toNat := by
    rw [toNat_implicit]
    omega
  exact (unpack_of_normal (ofBitVec_unpackSign s e m) unpackExponent_packComponents
    unpackMantissa_packComponents hne hnz hpos).trans
      (finite_congr rfl (toNat_implicit m) rfl _ _)

theorem unpack_subnormal (s : Sign) {m : BitVec 52} (hm : 0 < m.toNat) :
    UnpackedFloat.unpack .binary64 (packComponents .binary64 s 0#11 m) =
      .finite s m.toNat (-1074) hm := by
  have hne : (0#11 : BitVec 11) ≠ -1#11 := by decide
  have hnz : m ≠ 0#52 := by
    rintro rfl
    exact absurd hm (by decide)
  exact unpack_of_subnormal (ofBitVec_unpackSign s _ m) unpackExponent_packComponents
    unpackMantissa_packComponents hne rfl hnz hm

theorem exponentBias_binary64 : Format.binary64.exponentBias = 1023 := rfl

theorem mantissaBits_binary64 : Format.binary64.mantissaBitsWithoutImplicit = 52 := rfl

theorem biased_binary64 (e : ℤ) : e + (Format.binary64.exponentBias : ℕ) +
    (Format.binary64.mantissaBitsWithoutImplicit : ℕ) = e + 1075 := by
  rw [exponentBias_binary64, mantissaBits_binary64]
  omega

/-- Whatever the bits, what they are unpacked to is in the format. -/
theorem inFormat_unpack (b : BitVec 64) : InFormat (UnpackedFloat.unpack .binary64 b) := by
  have hm : (@unpackMantissa .binary64 b).toNat < 2 ^ 52 := BitVec.isLt _
  have he : (@unpackExponent .binary64 b).toNat < 2 ^ 11 := BitVec.isLt _
  have hpos : 0 < (1#1 ++ @unpackMantissa .binary64 b).toNat := by
    rw [toNat_implicit]
    omega
  by_cases hinf : @unpackExponent .binary64 b = -1#11
  · rcases unpack_of_largest hinf with h | ⟨s, h⟩ <;> rw [h] <;> trivial
  by_cases hsub : @unpackExponent .binary64 b = 0#11
  · by_cases hzero : @unpackMantissa .binary64 b = 0#52
    · rw [unpack_of_zero hinf hsub hzero]
      trivial
    · have hne : 0 < (@unpackMantissa .binary64 b).toNat :=
        Nat.pos_of_ne_zero fun h => hzero (BitVec.eq_of_toNat_eq h)
      rw [unpack_of_subnormal rfl rfl rfl hinf hsub hzero hne]
      refine ⟨⟨by omega, ?_, .inr ?_⟩, ?_⟩ <;> rw [hsub, exponentBias_binary64] <;> decide
  · have hinf' : (@unpackExponent .binary64 b).toNat ≠ 2 ^ 11 - 1 :=
      fun h => hinf (BitVec.eq_of_toNat_eq h)
    have hsub' : (@unpackExponent .binary64 b).toNat ≠ 0 :=
      fun h => hsub (BitVec.eq_of_toNat_eq h)
    rw [unpack_of_normal rfl rfl rfl hinf hsub hpos]
    refine ⟨⟨?_, ?_, .inl ?_⟩, ?_⟩
    · rw [toNat_implicit]
      omega
    · rw [exponentBias_binary64, mantissaBits_binary64]
      omega
    · rw [toNat_implicit]
      omega
    · rw [exponentBias_binary64, mantissaBits_binary64]
      omega

theorem pack_finite (spec : Format) (s : Sign) (m : ℕ) (e : ℤ) (hm : 0 < m) :
    UnpackedFloat.pack spec (.finite s m e hm) =
      if 2 ^ spec.exponentBits ≤
          (e + spec.exponentBias + spec.mantissaBitsWithoutImplicit).toNat + 1 then
        packedInfinity spec s
      else if m.log2 + 1 = spec.mantissaBits then
        packComponents spec s (BitVec.ofNat _
          (e + spec.exponentBias + spec.mantissaBitsWithoutImplicit).toNat) (BitVec.ofNat _ m)
      else packComponents spec s 0#_ (BitVec.ofNat _ m) :=
  rfl

/-- Packing keeps what is in the format. -/
theorem unpack_pack {x : UnpackedFloat} (hx : InFormat x) : (Float.Model.pack x).unpack = x := by
  change UnpackedFloat.unpack .binary64 (UnpackedFloat.pack .binary64 x) = x
  cases x with
  | notANumber => rfl
  | infinity s => exact unpack_packedInfinity s
  | zero s => exact unpack_packedZero s
  | finite s m e hm =>
    obtain ⟨⟨hlt, hmin, hfull⟩, hmax⟩ := hx
    have hrange : ¬ 2 ^ 11 ≤ (e + 1075).toNat + 1 := by omega
    rw [pack_finite, biased_binary64, if_neg hrange]
    by_cases h : 2 ^ 52 ≤ m
    · have hlog : m.log2 + 1 = Format.binary64.mantissaBits :=
        congrArg (· + 1) ((Nat.log2_eq_iff hm.ne').mpr ⟨h, hlt⟩)
      have hexponent : (BitVec.ofNat 11 (e + 1075).toNat).toNat = (e + 1075).toNat :=
        Nat.mod_eq_of_lt (by omega)
      have hne : BitVec.ofNat 11 (e + 1075).toNat ≠ -1#11 := fun hb => by
        have := hexponent.symm.trans (congrArg BitVec.toNat hb)
        change (e + 1075).toNat = 2 ^ 11 - 1 at this
        omega
      have hnz : BitVec.ofNat 11 (e + 1075).toNat ≠ 0#11 := fun hb => by
        have := hexponent.symm.trans (congrArg BitVec.toNat hb)
        change (e + 1075).toNat = 0 at this
        omega
      have hmantissa : 2 ^ 52 + (BitVec.ofNat 52 m).toNat = m := by
        rw [BitVec.toNat_ofNat]
        omega
      rw [if_pos hlog, unpack_normal s hne hnz]
      exact finite_congr rfl hmantissa (by rw [hexponent]; omega) _ _
    · have hlog : ¬ m.log2 + 1 = Format.binary64.mantissaBits := fun hlog =>
        h ((Nat.log2_eq_iff hm.ne').mp (Nat.succ_injective hlog)).1
      have hmantissa : (BitVec.ofNat 52 m).toNat = m := Nat.mod_eq_of_lt (by omega)
      rw [if_neg hlog, unpack_subnormal s (hmantissa.symm ▸ hm)]
      exact finite_congr rfl hmantissa (by omega) _ _

/-- What is too large for the format is packed as an infinity. -/
theorem unpack_pack_large (s : Sign) {m : ℕ} {e : ℤ} (hm : 0 < m) (he : 971 < e) :
    (Float.Model.pack (.finite s m e hm)).unpack = .infinity s := by
  have hrange : 2 ^ 11 ≤ (e + 1075).toNat + 1 := by omega
  change UnpackedFloat.unpack .binary64 (UnpackedFloat.pack .binary64 _) = _
  rw [pack_finite, biased_binary64, if_pos hrange]
  exact unpack_packedInfinity s

end Pack

/-- The units of a value, if it is a number. -/
def units? (a : Float) : Option ℤ := unpackedUnits? a.toModel.unpack

theorem units?_zero : units? (0 : Float) = some 0 := rfl

/-- The units of a number. -/
def units (a : Float) : ℤ := (units? a).getD 0

section Order
variable {a b : Float} {x y : ℤ}

theorem units_eq (ha : units? a = some x) : units a = x := by rw [units, ha, Option.getD_some]

theorem compare_float (a b : Float) : a.toModel.unpack.compare b.toModel.unpack =
    (units? a).bind fun x => (units? b).map fun y => compare x y :=
  compare_eq_units (inFormat_unpack _) (inFormat_unpack _)

theorem lt_iff_exists : a < b ↔ ∃ x ∈ units? a, ∃ y ∈ units? b, x < y := by
  change (decide (a.toModel.unpack.lt b.toModel.unpack = true) = true) ↔ _
  rw [decide_eq_true_iff, UnpackedFloat.lt, compare_float]
  cases units? a <;> cases units? b <;> simp [compare_lt_iff_lt]

theorem le_iff_exists : a ≤ b ↔ ∃ x ∈ units? a, ∃ y ∈ units? b, x ≤ y := by
  change (decide (a.toModel.unpack.le b.toModel.unpack = true) = true) ↔ _
  rw [decide_eq_true_iff, UnpackedFloat.le, compare_float]
  cases units? a <;> cases units? b <;> simp [Int.isLE_compare]

theorem beq_iff_exists : (a == b) = true ↔ ∃ x ∈ units? a, ∃ y ∈ units? b, y = x := by
  change (a.toModel.unpack.compare b.toModel.unpack == some .eq) = true ↔ _
  rw [compare_float]
  cases units? a <;> cases units? b <;> simp
  exact eq_comm

theorem lt_iff (ha : units? a = some x) (hb : units? b = some y) : a < b ↔ x < y := by
  simp [lt_iff_exists, ha, hb]

theorem le_iff (ha : units? a = some x) (hb : units? b = some y) : a ≤ b ↔ x ≤ y := by
  simp [le_iff_exists, ha, hb]

theorem float_lt_of_lt_of_le {c : Float} (hab : a < b) (hbc : b ≤ c) : a < c := by
  obtain ⟨x, hx, y, hy, hxy⟩ := lt_iff_exists.mp hab
  obtain ⟨_, hy', z, hz, hyz⟩ := le_iff_exists.mp hbc
  obtain rfl := Option.some.inj (hy.symm.trans hy')
  exact lt_iff_exists.mpr ⟨x, hx, z, hz, hxy.trans_le hyz⟩

theorem float_le_of_le_of_le {c : Float} (hab : a ≤ b) (hbc : b ≤ c) : a ≤ c := by
  obtain ⟨x, hx, y, hy, hxy⟩ := le_iff_exists.mp hab
  obtain ⟨_, hy', z, hz, hyz⟩ := le_iff_exists.mp hbc
  obtain rfl := Option.some.inj (hy.symm.trans hy')
  exact le_iff_exists.mpr ⟨x, hx, z, hz, hxy.trans hyz⟩

theorem isNaN_iff : Scalar.isNaN a = true ↔ units? a = none := by
  have hself := beq_iff_exists (a := a) (b := a)
  unfold Scalar.isNaN
  cases ha : units? a <;> simp_all

theorem not_lt_iff (ha : units? a = some x) (hb : units? b = some y) : ¬ a < b ↔ b ≤ a := by
  rw [lt_iff ha hb, le_iff hb ha, not_lt]

/-- The larger of two values is at least a bound exactly if one of them is. -/
theorem le_greater_iff {c : Float} (ha : units? a = some x) :
    c ≤ Scalar.greater a b ↔ c ≤ a ∨ c ≤ b := by
  unfold Scalar.greater
  cases hb : units? b with
  | none =>
    have hnan : Scalar.isNaN b = true := isNaN_iff.mpr hb
    have hnot : ¬ c ≤ b := by simp [le_iff_exists, hb]
    rw [if_pos hnan, ite_self]
    exact ⟨.inl, fun h => h.resolve_right hnot⟩
  | some y =>
    have hnan : ¬ Scalar.isNaN b = true := by simp [isNaN_iff, hb]
    rw [if_neg hnan]
    split_ifs with hlt
    · have hle : b ≤ a := (le_iff hb ha).mpr ((lt_iff hb ha).mp hlt).le
      exact ⟨.inl, fun h => h.elim id fun hcb => float_le_of_le_of_le hcb hle⟩
    · have hle : a ≤ b := (not_lt_iff hb ha).mp hlt
      exact ⟨.inr, fun h => h.elim (fun hca => float_le_of_le_of_le hca hle) id⟩

end Order

section Card

/-- The bits of a value as a number below 2⁶⁴. -/
def bits (a : Float) : Fin UInt64.size := a.toModel.toBits.toFin

theorem bits_injective : Function.Injective bits := by
  rintro ⟨⟨a, ha⟩⟩ ⟨⟨b, hb⟩⟩ h
  obtain rfl : a = b := UInt64.toFin_inj.mp h
  rfl

instance finite_float : Finite Float := Finite.of_injective bits bits_injective

theorem card_float_le : Nat.card Float ≤ UInt64.size := by
  have h := Nat.card_le_card_of_injective bits bits_injective
  rwa [Nat.card_fin] at h

end Card

end Toolpath.Binary
