import Mathlib.Algebra.Order.Ring.Abs
import Toolpath.Proofs.Measure.LowestTerms

/-!
The arithmetic of fractions in 128-bit steps. A step whose result does not fit is stuck, and none
ever is: parts of 64 bits leave room for products and their sum, and a remainder is no larger than
what it is taken from.
-/
namespace Toolpath.Ratio
namespace Wide

/-- A computation with an outcome, or stuck at an integer that 128 bits do not hold. -/
abbrev Steps := ExceptT MeasureError Option

/-- The signed 128-bit integers. -/
def Holds (n : ℤ) : Prop :=
  -0x80000000000000000000000000000000 ≤ n ∧ n < 0x80000000000000000000000000000000

instance (n : ℤ) : Decidable (Holds n) := inferInstanceAs (Decidable (_ ∧ _))

/-- One intermediate result. -/
def keep (n : ℤ) : Steps ℤ := if Holds n then pure n else ExceptT.mk none

/-- A computation that is not stuck. -/
def done {β : Type} (outcome : Except MeasureError β) : Steps β := ExceptT.mk (some outcome)

/-- Remainders until one is zero. -/
def euclid (a b : ℤ) : Steps ℤ :=
  if b = 0 then pure a
  else if Holds (a.tmod b) then euclid b (a.tmod b)
  else ExceptT.mk none
termination_by b.natAbs
decreasing_by
  rw [Int.natAbs_tmod]
  exact Nat.mod_lt _ (Int.natAbs_pos.mpr ‹_›)

/-- Euclid's algorithm on the absolute values. -/
def gcd (a b : ℤ) : Steps ℤ := do
  let a ← keep |a|
  let b ← keep |b|
  euclid a b

def changeSign (flip : Bool) (n : ℤ) : Steps ℤ := if flip then keep (-n) else pure n

/-- The parts are narrowed to 64 bits. -/
def narrow (num den : ℤ) : Steps Ratio :=
  if InRange num ∧ InRange den then pure ⟨num, den.toNat⟩ else throw .outOfRange

/-- Common factors are divided out first, and the signs are changed last. -/
def reduce (n d : ℤ) : Steps Ratio :=
  if d = 0 then throw .zeroDivisor
  else do
    let g ← gcd n d
    let num ← keep (n.tdiv (max g 1))
    let den ← keep (d.tdiv (max g 1))
    let flip := decide (den < 0)
    let num ← changeSign flip num
    let den ← changeSign flip den
    narrow num den

def add (a b : Ratio) : Steps Ratio := do
  let left ← keep (a.num * b.den)
  let right ← keep (b.num * a.den)
  let num ← keep (left + right)
  let den ← keep (a.den * b.den)
  reduce num den

def mul (a b : Ratio) : Steps Ratio := do
  let num ← keep (a.num * b.num)
  let den ← keep (a.den * b.den)
  reduce num den

def div (a b : Ratio) : Steps Ratio := do
  let num ← keep (a.num * b.den)
  let den ← keep (a.den * b.num)
  reduce num den

def cmp (a b : Ratio) : Steps Ordering := do
  let left ← keep (a.num * b.den)
  let right ← keep (b.num * a.den)
  pure (compare left right)

/-- A power of ten or digits that do not fit are refused before anything is computed with them. -/
def ofDecimal (negative : Bool) (n places : ℕ) : Steps Ratio :=
  if Holds (10 ^ places) ∧ Holds n then do
    let num ← changeSign negative n
    reduce num (10 ^ places)
  else throw .outOfRange

variable {a b : Ratio}

theorem keep_bind {β : Type} {n : ℤ} (h : Holds n) (k : ℤ → Steps β) : (keep n >>= k) = k n := by
  rw [keep, if_pos h, pure_bind]

/-- An integer whose absolute value fits next to its negative. -/
theorem holds_of_abs_lt {n : ℤ} (h : |n| < 0x80000000000000000000000000000000) : Holds n := by
  have := abs_lt.mp h
  exact ⟨by omega, by omega⟩

theorem euclid_eq {a b : ℤ} (ha : 0 ≤ a) (hb : 0 ≤ b)
    (hb' : b < 0x80000000000000000000000000000000) : euclid a b = pure (Int.gcd a b : ℤ) := by
  induction a, b using euclid.induct with
  | case1 a =>
    rw [euclid, if_pos rfl, Int.gcd_zero_right, Int.natAbs_of_nonneg ha]
  | case2 a b hzero hholds ih =>
    have hlt : a.tmod b < b := Int.tmod_lt_of_pos a (by omega)
    have hgcd : Int.gcd b (a.tmod b) = Int.gcd a b := by
      rw [Int.tmod_eq_emod_of_nonneg ha, Int.gcd_comm, Int.gcd_emod]
    rw [euclid, if_neg hzero, if_pos hholds, ih hb (Int.tmod_nonneg b ha) (by omega), hgcd]
  | case3 a b hzero hstuck =>
    have hlt : a.tmod b < b := Int.tmod_lt_of_pos a (by omega)
    have hnonneg : 0 ≤ a.tmod b := Int.tmod_nonneg b ha
    exact absurd ⟨by omega, by omega⟩ hstuck

/-- Neither the absolute values nor the remainders leave the width. -/
theorem gcd_eq {a b : ℤ} (ha : |a| < 0x80000000000000000000000000000000)
    (hb : |b| < 0x80000000000000000000000000000000) : gcd a b = pure (Int.gcd a b : ℤ) := by
  have hkeep : ∀ {n : ℤ}, |n| < 0x80000000000000000000000000000000 → Holds |n| := fun h =>
    holds_of_abs_lt (by rwa [abs_abs])
  rw [gcd, keep_bind (hkeep ha), keep_bind (hkeep hb), euclid_eq (abs_nonneg a) (abs_nonneg b) hb,
    Int.abs_eq_natAbs, Int.abs_eq_natAbs, Int.gcd_natCast_natCast]
  rfl

theorem abs_ediv_lt {n g : ℤ} (hdvd : g ∣ n) (h : |n| < 0x80000000000000000000000000000000) :
    |n / g| < 0x80000000000000000000000000000000 := by
  have hle : |n / g| ≤ |n| := by
    rw [← Int.tdiv_eq_ediv_of_dvd hdvd, Int.abs_eq_natAbs, Int.abs_eq_natAbs]
    exact_mod_cast Int.natAbs_tdiv_le_natAbs n g
  exact lt_of_le_of_lt hle h

theorem changeSign_bind {β : Type} {n : ℤ} (h : |n| < 0x80000000000000000000000000000000)
    (flip : Bool) (k : ℤ → Steps β) :
    (changeSign flip n >>= k) = k (if flip then -n else n) := by
  cases flip with
  | true => exact keep_bind (holds_of_abs_lt (by rwa [abs_neg])) k
  | false => rfl

theorem narrow_natCast (num : ℤ) (den : ℕ) : narrow num den =
    done (if InRange num ∧ InRange den then .ok ⟨num, den⟩ else .error .outOfRange) := by
  unfold narrow
  split <;> rfl

/-- Dividing first and changing the signs afterwards gives the same parts. -/
theorem reduce_eq {n d : ℤ} (hn : |n| < 0x80000000000000000000000000000000)
    (hd : |d| < 0x80000000000000000000000000000000) : reduce n d = done (Ratio.reduce n d) := by
  by_cases hzero : d = 0
  · rw [reduce, if_pos hzero, Ratio.reduce, if_pos hzero]
    rfl
  have hpos : 0 < (Int.gcd n d : ℤ) := by
    exact_mod_cast Int.gcd_pos_of_ne_zero_right n hzero
  have hmax : max (Int.gcd n d : ℤ) 1 = Int.gcd n d := max_eq_left (by omega)
  have hleft : (Int.gcd n d : ℤ) ∣ n := Int.gcd_dvd_left n d
  have hright : (Int.gcd n d : ℤ) ∣ d := Int.gcd_dvd_right n d
  have hnum := abs_ediv_lt hleft hn
  have hden := abs_ediv_lt hright hd
  rw [reduce, if_neg hzero, gcd_eq hn hd, pure_bind, hmax, Int.tdiv_eq_ediv_of_dvd hleft,
    Int.tdiv_eq_ediv_of_dvd hright, keep_bind (holds_of_abs_lt hnum),
    keep_bind (holds_of_abs_lt hden), Ratio.reduce, if_neg hzero]
  have hflip : decide (d / (Int.gcd n d : ℤ) < 0) = decide (d < 0) := by
    rw [decide_eq_decide]
    refine ⟨fun h => ?_, fun h => Int.ediv_neg_of_neg_of_pos h hpos⟩
    by_contra hneg
    exact absurd (Int.ediv_nonneg (not_lt.mp hneg) hpos.le) (not_le.mpr h)
  have hnum_sign : (if d < 0 then -(n / (Int.gcd n d : ℤ)) else n / Int.gcd n d) =
      (if d < 0 then -n else n) / Int.gcd n d := by
    rw [← Int.neg_ediv_of_dvd hleft]
    split <;> rfl
  have hden_sign : (if d < 0 then -(d / (Int.gcd n d : ℤ)) else d / Int.gcd n d) =
      ((d.natAbs / Int.gcd n d : ℕ) : ℤ) := by
    have habs : (d.natAbs : ℤ) = if d < 0 then -d else d := by split <;> omega
    rw [← Int.neg_ediv_of_dvd hright, Int.natCast_div, habs]
    split <;> rfl
  simp only [hflip]
  rw [changeSign_bind hnum, changeSign_bind hden]
  simp only [decide_eq_true_eq, hnum_sign, hden_sign]
  exact narrow_natCast _ _

/-! ### Operations -/

/-- Parts of 64 bits have products of 126 bits and a sign. -/
theorem abs_mul_le {m n : ℤ} (hm : InRange m) (hn : InRange n) :
    |m * n| ≤ 0x40000000000000000000000000000000 := by
  have hm' : |m| ≤ 0x8000000000000000 := abs_le.mpr ⟨hm.1, hm.2.le⟩
  have hn' : |n| ≤ 0x8000000000000000 := abs_le.mpr ⟨hn.1, hn.2.le⟩
  calc |m * n| = |m| * |n| := abs_mul m n
    _ ≤ 0x8000000000000000 * 0x8000000000000000 :=
      mul_le_mul hm' hn' (abs_nonneg n) (by decide)
    _ = 0x40000000000000000000000000000000 := by norm_num

/-- A positive part leaves the product below the bound, so that two of them can be added. -/
theorem abs_mul_lt {m : ℤ} {n : ℕ} (hm : InRange m) (hn : InRange n) :
    |m * n| < 0x40000000000000000000000000000000 := by
  have hm' : |m| ≤ 0x8000000000000000 := abs_le.mpr ⟨hm.1, hm.2.le⟩
  calc |m * n| = |m| * n := by rw [abs_mul, Nat.abs_cast]
    _ ≤ 0x8000000000000000 * n := mul_le_mul_of_nonneg_right hm' (Int.natCast_nonneg n)
    _ < 0x40000000000000000000000000000000 := by have := hn.2; omega

theorem abs_lt_of_abs_mul_le {n : ℤ} (h : |n| ≤ 0x40000000000000000000000000000000) :
    |n| < 0x80000000000000000000000000000000 := by
  omega

theorem add_eq (ha : a.Canonical) (hb : b.Canonical) : add a b = done (a.add b) := by
  have hleft := abs_mul_lt ha.num_inRange hb.den_inRange
  have hright := abs_mul_lt hb.num_inRange ha.den_inRange
  have hden := abs_lt_of_abs_mul_le (abs_mul_le ha.den_inRange hb.den_inRange)
  have hsum : |a.num * b.den + b.num * a.den| < 0x80000000000000000000000000000000 := by
    have := abs_add_le (a.num * b.den) (b.num * a.den)
    omega
  rw [add, keep_bind (holds_of_abs_lt (hleft.trans (by decide))),
    keep_bind (holds_of_abs_lt (hright.trans (by decide))), keep_bind (holds_of_abs_lt hsum),
    keep_bind (holds_of_abs_lt hden), reduce_eq hsum hden]
  rfl

theorem mul_eq (ha : a.Canonical) (hb : b.Canonical) : mul a b = done (a.mul b) := by
  have hnum := abs_lt_of_abs_mul_le (abs_mul_le ha.num_inRange hb.num_inRange)
  have hden := abs_lt_of_abs_mul_le (abs_mul_le ha.den_inRange hb.den_inRange)
  rw [mul, keep_bind (holds_of_abs_lt hnum), keep_bind (holds_of_abs_lt hden),
    reduce_eq hnum hden]
  rfl

theorem div_eq (ha : a.Canonical) (hb : b.Canonical) : div a b = done (a.div b) := by
  have hnum := abs_lt_of_abs_mul_le (abs_mul_le ha.num_inRange hb.den_inRange)
  have hden := abs_lt_of_abs_mul_le (abs_mul_le ha.den_inRange hb.num_inRange)
  rw [div, keep_bind (holds_of_abs_lt hnum), keep_bind (holds_of_abs_lt hden),
    reduce_eq hnum hden]
  rfl

theorem cmp_eq (ha : a.Canonical) (hb : b.Canonical) : cmp a b = done (.ok (a.cmp b)) := by
  have hleft := abs_lt_of_abs_mul_le (abs_mul_le ha.num_inRange hb.den_inRange)
  have hright := abs_lt_of_abs_mul_le (abs_mul_le hb.num_inRange ha.den_inRange)
  rw [cmp, keep_bind (holds_of_abs_lt hleft), keep_bind (holds_of_abs_lt hright)]
  rfl

theorem reduce_eq_of_inRange {n d : ℤ} (hn : InRange n) (hd : InRange d) :
    reduce n d = done (Ratio.reduce n d) := by
  have hlt : ∀ {m : ℤ}, InRange m → |m| < 0x80000000000000000000000000000000 := fun hm =>
    abs_lt.mpr ⟨by have := hm.1; omega, by have := hm.2; omega⟩
  exact reduce_eq (hlt hn) (hlt hd)

/-- The powers of ten that fit are the first 39. -/
theorem holds_pow_iff {places : ℕ} : Holds (10 ^ places) ↔ places ≤ 38 := by
  constructor
  · intro h
    by_contra hlarge
    have hle : (10 : ℤ) ^ 39 ≤ 10 ^ places := pow_le_pow_right₀ (by decide) (by omega)
    have := h.2
    omega
  · intro h
    have hle : (10 : ℤ) ^ places ≤ 10 ^ 38 := pow_le_pow_right₀ (by decide) h
    have hpos : (0 : ℤ) < 10 ^ places := pow_pos (by decide) places
    exact ⟨by omega, by omega⟩

theorem ofDecimal_eq (negative : Bool) (n places : ℕ) :
    ofDecimal negative n places = done (Ratio.ofDecimal negative n places) := by
  by_cases hplaces : places ≤ 38
  · by_cases hdigits : n < 0x80000000000000000000000000000000
    · have hn : |(n : ℤ)| < 0x80000000000000000000000000000000 := by
        rw [Nat.abs_cast]
        exact_mod_cast hdigits
      have hnum : |if negative then -(n : ℤ) else n| < 0x80000000000000000000000000000000 := by
        cases negative with
        | true => rwa [if_pos rfl, abs_neg]
        | false => rwa [if_neg Bool.false_ne_true]
      have hpow := holds_pow_iff.mpr hplaces
      have hden : |(10 : ℤ) ^ places| < 0x80000000000000000000000000000000 := by
        rw [abs_of_pos (pow_pos (by decide) places)]
        exact hpow.2
      have hsmall : ¬ (38 < places ∨ 0x80000000000000000000000000000000 ≤ n) := by omega
      rw [ofDecimal, if_pos ⟨hpow, holds_of_abs_lt hn⟩, changeSign_bind hn, reduce_eq hnum hden,
        Ratio.ofDecimal, if_neg hsmall]
      rfl
    · have hlarge : ¬ Holds n := fun h => hdigits (by have := h.2; omega)
      rw [ofDecimal, if_neg fun h => hlarge h.2, Ratio.ofDecimal, if_pos (.inr (not_lt.mp hdigits))]
      rfl
  · have hlarge : ¬ Holds (10 ^ places) := fun h => hplaces (holds_pow_iff.mp h)
    rw [ofDecimal, if_neg fun h => hlarge h.1, Ratio.ofDecimal, if_pos (.inl (not_le.mp hplaces))]
    rfl

end Wide

variable {a b : Ratio}

/-- Arithmetic is exact or refused. Whatever is made is in lowest terms, so that equality and order
are those of the numbers; an operation gives the exact value where the lowest terms of that are in
range and an error of its own where there is no value; and 128 bits hold every step. -/
theorem exact_or_refused (ha : Made a) (hb : Made b) {n d : ℤ} (hn : InRange n) (hd : InRange d) :
    a.Canonical ∧ (a = b ↔ a.value = b.value) ∧ a.cmp b = compare a.value b.value ∧
    (reduce n d = exactly (quotient? n d) ∧
      a.add b = exactly (some (a.value + b.value)) ∧
      a.mul b = exactly (some (a.value * b.value)) ∧
      a.div b = exactly (quotient? a.value b.value) ∧
      a.neg = exactly (some (-a.value))) ∧
    (Wide.reduce n d = Wide.done (reduce n d) ∧
      Wide.add a b = Wide.done (a.add b) ∧
      Wide.mul a b = Wide.done (a.mul b) ∧
      Wide.div a b = Wide.done (a.div b) ∧
      Wide.cmp a b = Wide.done (.ok (a.cmp b)) ∧
      ∀ negative digits places,
        Wide.ofDecimal negative digits places = Wide.done (ofDecimal negative digits places)) := by
  have ha' := made_iff_canonical.mp ha
  have hb' := made_iff_canonical.mp hb
  refine ⟨ha', ha'.eq_iff hb', ha'.cmp_eq hb', ⟨?_, ?_, ?_, ?_, ?_⟩, ?_, ?_, ?_, ?_, ?_, ?_⟩
  · exact reduce_eq_exactly n d
  · exact add_eq_exactly ha' hb'
  · exact mul_eq_exactly ha' hb'
  · exact div_eq_exactly ha' hb'
  · exact neg_eq_exactly ha'
  · exact Wide.reduce_eq_of_inRange hn hd
  · exact Wide.add_eq ha' hb'
  · exact Wide.mul_eq ha' hb'
  · exact Wide.div_eq ha' hb'
  · exact Wide.cmp_eq ha' hb'
  · exact Wide.ofDecimal_eq

/-- The least whole number and the smallest positive fraction: their product just fits, their sum
does not, and neither does the least number without its sign. -/
theorem exact_or_refused_extremes :
    exactly (some (value (ofInt (-0x8000000000000000)) * value ⟨1, 0x7fffffffffffffff⟩)) =
        .ok ⟨-0x8000000000000000, 0x7fffffffffffffff⟩ ∧
      exactly (some (value (ofInt (-0x8000000000000000)) + value ⟨1, 0x7fffffffffffffff⟩)) =
        .error .outOfRange ∧
      exactly (some (-value (ofInt (-0x8000000000000000)))) = .error .outOfRange ∧
      exactly (quotient? (-0x8000000000000000 : ℤ) (-0x8000000000000000 : ℤ)) = .ok 1 := by
  have hleast : InRange (-0x8000000000000000) := by decide
  have hsmall : Canonical ⟨1, 0x7fffffffffffffff⟩ := by decide
  obtain ⟨-, -, -, ⟨hreduce, hadd, hmul, -, hneg⟩, -⟩ :=
    exact_or_refused (.ofInt hleast) (made_iff_canonical.mpr hsmall) hleast hleast
  rw [← hreduce, ← hadd, ← hmul, ← hneg]
  decide

end Toolpath.Ratio
