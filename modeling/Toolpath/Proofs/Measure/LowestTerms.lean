import Mathlib.Algebra.Order.Ring.Unbundled.Rat
import Mathlib.Data.Rat.Lemmas
import Mathlib.Tactic.FieldSimp
import Mathlib.Tactic.Ring
import Toolpath.Proofs.Measure.Written

/-!
The rational values of fractions. A fraction in lowest terms is the only one of its value, and an
operation gives the fraction of the exact value wherever that one has both its parts in range.
-/
namespace Toolpath.Ratio
variable {a b r : Ratio}

/-- The number that a fraction stands for. -/
def value (a : Ratio) : ℚ := a.num / a.den

/-- The lowest terms of a number are in range. -/
def Fits (q : ℚ) : Prop := InRange q.num ∧ InRange q.den

instance (q : ℚ) : Decidable (Fits q) := inferInstanceAs (Decidable (_ ∧ _))

/-- The outcome that an operation owes to its exact value, where it has one. -/
def exactly : Option ℚ → Except MeasureError Ratio
  | none => .error .zeroDivisor
  | some q => if Fits q then .ok ⟨q.num, q.den⟩ else .error .outOfRange

/-- Division has no value at zero. -/
def quotient? (x y : ℚ) : Option ℚ := if y = 0 then none else some (x / y)

namespace Canonical

theorem num_value (h : a.Canonical) : a.value.num = a.num := by
  have hpos : 0 < (a.den : ℤ) := by exact_mod_cast h.pos
  have hnum := Rat.num_div_eq_of_coprime hpos h.coprime
  rwa [Int.cast_natCast] at hnum

theorem den_value (h : a.Canonical) : a.value.den = a.den := by
  have hpos : 0 < (a.den : ℤ) := by exact_mod_cast h.pos
  have hden := Rat.den_div_eq_of_coprime hpos h.coprime
  rw [Int.cast_natCast] at hden
  exact Int.ofNat_inj.mp hden

theorem den_ne_zero (h : a.Canonical) : (a.den : ℚ) ≠ 0 := Nat.cast_ne_zero.mpr h.pos.ne'

/-- Equality of fractions is equality of numbers. -/
theorem eq_iff (ha : a.Canonical) (hb : b.Canonical) : a = b ↔ a.value = b.value := by
  refine ⟨fun h => congrArg value h, fun h => ?_⟩
  have hnum : a.num = b.num := by rw [← ha.num_value, ← hb.num_value, h]
  have hden : a.den = b.den := by rw [← ha.den_value, ← hb.den_value, h]
  obtain ⟨num, den⟩ := a
  obtain rfl : num = b.num := hnum
  obtain rfl : den = b.den := hden
  rfl

/-- The cross products are in the order of the numbers. -/
theorem cmp_eq (ha : a.Canonical) (hb : b.Canonical) : a.cmp b = compare a.value b.value := by
  have hlt : a.num * b.den < b.num * a.den ↔ a.value < b.value := by
    rw [Rat.lt_iff, ha.num_value, ha.den_value, hb.num_value, hb.den_value]
  have heq : a.num * b.den = b.num * a.den ↔ a.value = b.value := by
    rw [Rat.eq_iff_mul_eq_mul, ha.num_value, ha.den_value, hb.num_value, hb.den_value]
  rw [cmp, LinearOrder.compare_eq_compareOfLessAndEq, LinearOrder.compare_eq_compareOfLessAndEq]
  simp only [compareOfLessAndEq, hlt, heq]

end Canonical

/-! ### Outcomes -/

theorem exactly_eq_ok {q? : Option ℚ} :
    exactly q? = .ok r ↔ ∃ q, q? = some q ∧ Fits q ∧ r = ⟨q.num, q.den⟩ := by
  cases q? with
  | none => simp [exactly]
  | some q => by_cases hq : Fits q <;> simp [exactly, hq, eq_comm]

/-- Whatever comes out is in lowest terms. -/
theorem canonical_of_exactly {q? : Option ℚ} (h : exactly q? = .ok r) : r.Canonical := by
  obtain ⟨q, -, hq, rfl⟩ := exactly_eq_ok.mp h
  exact ⟨q.pos, q.reduced, hq.1, hq.2⟩

theorem value_of_exactly {q : ℚ} (h : exactly (some q) = .ok r) : r.value = q := by
  obtain ⟨q', hq', -, rfl⟩ := exactly_eq_ok.mp h
  rw [Option.some.inj hq']
  exact Rat.num_div_den q'

/-- The fraction of a number, in lowest terms. -/
def lowest (q : ℚ) : Ratio := ⟨q.num, q.den⟩

@[simp] theorem value_lowest (q : ℚ) : (lowest q).value = q := Rat.num_div_den q

theorem exactly_some_eq_ok {q : ℚ} : exactly (some q) = .ok r ↔ Fits q ∧ r = lowest q := by
  rw [exactly_eq_ok]
  constructor
  · rintro ⟨q', hq', hfits, hr⟩
    obtain rfl := Option.some.inj hq'
    exact ⟨hfits, hr⟩
  · rintro ⟨hfits, hr⟩
    exact ⟨q, rfl, hfits, hr⟩

theorem canonical_lowest {q : ℚ} (h : Fits q) : (lowest q).Canonical :=
  canonical_of_exactly (exactly_some_eq_ok.mpr ⟨h, rfl⟩)

/-- Reducing gives the lowest terms of the quotient. -/
theorem reduce_eq_exactly (n d : ℤ) : reduce n d = exactly (quotient? n d) := by
  by_cases hd : d = 0
  · simp [reduce, exactly, quotient?, hd]
  have hnum : ((n : ℚ) / d).num = (if d < 0 then -n else n) / Int.gcd n d := by
    rw [Rat.intCast_div_eq_divInt, Rat.num_divInt, Int.gcd_comm]
    by_cases hneg : d < 0
    · rw [Int.sign_eq_neg_one_of_neg hneg, neg_one_mul, if_pos hneg]
    · rw [Int.sign_eq_one_of_pos (by omega), one_mul, if_neg hneg]
  have hden : ((n : ℚ) / d).den = d.natAbs / Int.gcd n d := by
    rw [Rat.intCast_div_eq_divInt, Rat.den_divInt, if_neg hd, Int.gcd_comm]
  have hd' : (d : ℚ) ≠ 0 := Int.cast_ne_zero.mpr hd
  rw [reduce, if_neg hd, quotient?, if_neg hd']
  simp only [exactly, Fits, hnum, hden]

theorem canonical_of_reduce {n d : ℤ} (h : reduce n d = .ok r) : r.Canonical :=
  canonical_of_exactly (reduce_eq_exactly n d ▸ h)

theorem add_eq_exactly (ha : a.Canonical) (hb : b.Canonical) :
    a.add b = exactly (some (a.value + b.value)) := by
  have hda := ha.den_ne_zero
  have hdb := hb.den_ne_zero
  have hvalue : ((a.num * b.den + b.num * a.den : ℤ) : ℚ) / ((a.den * b.den : ℤ) : ℚ) =
      a.value + b.value := by
    rw [value, value]
    push_cast
    field_simp
  have hne : ((a.den * b.den : ℤ) : ℚ) ≠ 0 := by
    push_cast
    exact mul_ne_zero hda hdb
  rw [add, reduce_eq_exactly, quotient?, if_neg hne, hvalue]

theorem mul_eq_exactly (ha : a.Canonical) (hb : b.Canonical) :
    a.mul b = exactly (some (a.value * b.value)) := by
  have hvalue : ((a.num * b.num : ℤ) : ℚ) / ((a.den * b.den : ℤ) : ℚ) = a.value * b.value := by
    rw [value, value, div_mul_div_comm]
    push_cast
    rfl
  have hne : ((a.den * b.den : ℤ) : ℚ) ≠ 0 := by
    push_cast
    exact mul_ne_zero ha.den_ne_zero hb.den_ne_zero
  rw [mul, reduce_eq_exactly, quotient?, if_neg hne, hvalue]

theorem div_eq_exactly (ha : a.Canonical) (hb : b.Canonical) :
    a.div b = exactly (quotient? a.value b.value) := by
  have hvalue : ((a.num * b.den : ℤ) : ℚ) / ((a.den * b.num : ℤ) : ℚ) = a.value / b.value := by
    rw [value, value, div_div_div_eq]
    push_cast
    rfl
  have hzero : ((a.den * b.num : ℤ) : ℚ) = 0 ↔ b.value = 0 := by
    rw [value, div_eq_zero_iff, or_iff_left hb.den_ne_zero]
    push_cast
    rw [mul_eq_zero, or_iff_right ha.den_ne_zero]
  rw [div, reduce_eq_exactly, quotient?, quotient?, hvalue]
  simp only [hzero]

theorem add_lowest_eq_ok {p q : ℚ} (hp : Fits p) (hq : Fits q) :
    (lowest p).add (lowest q) = .ok r ↔ Fits (p + q) ∧ r = lowest (p + q) := by
  rw [add_eq_exactly (canonical_lowest hp) (canonical_lowest hq), value_lowest, value_lowest,
    exactly_some_eq_ok]

theorem div_lowest_eq_ok {p q : ℚ} (hp : Fits p) (hq : Fits q) :
    (lowest p).div (lowest q) = .ok r ↔ q ≠ 0 ∧ Fits (p / q) ∧ r = lowest (p / q) := by
  rw [div_eq_exactly (canonical_lowest hp) (canonical_lowest hq), value_lowest, value_lowest,
    quotient?]
  by_cases hzero : q = 0
  · rw [if_pos hzero]
    exact ⟨fun h => (nomatch h), fun h => absurd hzero h.1⟩
  · rw [if_neg hzero, exactly_some_eq_ok, and_iff_right hzero]

theorem neg_eq_exactly (ha : a.Canonical) : a.neg = exactly (some (-a.value)) := by
  simp only [neg, exactly, Fits, Rat.num_neg_eq_neg_num, Rat.den_neg_eq_den, ha.num_value,
    ha.den_value, ha.den_inRange, and_true]

/-- The right side is negated first, so a difference may be refused that a sum would give. -/
theorem sub_eq_exactly (ha : a.Canonical) (hb : b.Canonical) :
    a.sub b = if Fits (-b.value) then exactly (some (a.value - b.value))
      else .error .outOfRange := by
  rw [sub, neg_eq_exactly hb]
  by_cases hfit : Fits (-b.value)
  · have hneg : exactly (some (-b.value)) = .ok ⟨(-b.value).num, (-b.value).den⟩ := if_pos hfit
    have hadd := add_eq_exactly ha (canonical_of_exactly hneg)
    rw [value_of_exactly hneg, ← sub_eq_add_neg] at hadd
    rw [if_pos hfit, hneg, ← hadd]
    rfl
  · have hneg : exactly (some (-b.value)) = .error .outOfRange := if_neg hfit
    rw [if_neg hfit, hneg]
    rfl

/-! ### Where fractions come from -/

theorem canonical_of_ofDecimal {negative : Bool} {n places : ℕ}
    (h : ofDecimal negative n places = .ok r) : r.Canonical := by
  unfold ofDecimal at h
  split at h
  · cases h
  · exact canonical_of_reduce h

/-- A text gives a sum, a quotient or a decimal, each in lowest terms. -/
theorem canonical_of_read {s : List Char} (h : read s = .ok r) : r.Canonical := by
  rw [read_eq] at h
  split at h
  · obtain ⟨x, -, h⟩ := exists_of_bind_eq_ok h
    obtain ⟨y, -, h⟩ := exists_of_bind_eq_ok h
    exact canonical_of_reduce h
  · split at h
    · obtain ⟨x, -, h⟩ := exists_of_bind_eq_ok h
      obtain ⟨y, -, h⟩ := exists_of_bind_eq_ok h
      exact canonical_of_reduce h
    · cases hdecimal : readDecimal (Text.trim s) with
      | none =>
        rw [hdecimal] at h
        cases h
      | some outcome =>
        rw [hdecimal, Option.getD_some] at h
        subst h
        simp only [readDecimal, Option.ite_none_right_eq_some, Option.some.injEq] at hdecimal
        exact canonical_of_ofDecimal hdecimal.2

/-- The fractions that constants, texts and operations give. -/
inductive Made : Ratio → Prop where
  | zero : Made 0
  | one : Made 1
  | length {u : UnitName} {z : Ratio} (h : UnitTable.standard.millimeters? u = some z) : Made z
  | ofInt {n : ℤ} (h : InRange n) : Made (ofInt n)
  | reduce {n d : ℤ} {z : Ratio} (hn : InRange n) (hd : InRange d) (h : reduce n d = .ok z) :
    Made z
  | parse {s : String} {z : Ratio} (h : parse s = .ok z) : Made z
  | neg {x z : Ratio} (hx : Made x) (h : x.neg = .ok z) : Made z
  | apply (op : Operation) {x y z : Ratio} (hx : Made x) (hy : Made y)
    (h : op.apply x y = .ok z) : Made z

theorem canonical_of_apply {op : Operation} (h : op.apply a b = .ok r) : r.Canonical := by
  cases op with
  | add => exact canonical_of_reduce h
  | sub =>
    obtain ⟨c, -, h⟩ := exists_of_bind_eq_ok (x := b.neg) (k := a.add) h
    exact canonical_of_reduce h
  | mul => exact canonical_of_reduce h
  | div => exact canonical_of_reduce h

/-- Exactly the fractions in lowest terms are ever made. -/
theorem made_iff_canonical : Made r ↔ r.Canonical := by
  constructor
  · intro h
    induction h with
    | zero => decide
    | one => decide
    | @length u r h =>
      cases u with
      | board => cases h
      | inch =>
        obtain rfl := Option.some.inj h
        decide
      | millimeter =>
        obtain rfl := Option.some.inj h
        decide
    | ofInt h => exact canonical_ofInt h
    | reduce _ _ h => exact canonical_of_reduce h
    | parse h => exact canonical_of_read h
    | neg _ h ih => exact canonical_of_exactly (neg_eq_exactly ih ▸ h)
    | apply op _ _ h => exact canonical_of_apply h
  · intro h
    exact .reduce h.num_inRange h.den_inRange (reduce_of_canonical h)

end Toolpath.Ratio
