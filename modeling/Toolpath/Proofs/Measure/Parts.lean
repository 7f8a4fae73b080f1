import Toolpath.Proofs.Measure.Total

/-!
Amounts unit by unit. A sum and a multiple are formed for each unit by itself, and a unit that only
one of two amounts has is taken as it is.
-/
namespace Toolpath

namespace Ratio

/-- Both cross products and denominators trade places, so even the errors are the same. -/
theorem add_comm (a b : Ratio) : a.add b = b.add a := by
  unfold add
  rw [Int.add_comm (a.num * b.den), Int.mul_comm (a.den : ℤ)]

theorem isOne_iff {s : Ratio} : s.isOne = true ↔ s = 1 := by
  obtain ⟨num, den⟩ := s
  have hone : (1 : Ratio) = ⟨1, 1⟩ := rfl
  simp [isOne, hone]

end Ratio

namespace Amount
variable {a b c : Amount} {s : Ratio}

/-- An amount whose fractions are in lowest terms. -/
def Canonical (a : Amount) : Prop := ∀ u, ∀ x ∈ a.get? u, x.Canonical

instance (a : Amount) : Decidable a.Canonical :=
  decidable_of_iff (∀ u ∈ UnitName.all, ∀ x ∈ a.get? u, x.Canonical)
    ⟨fun h u => h u (by cases u <;> decide), fun h u _ => h u⟩

/-- The value of a term, zero if it is missing. -/
def termValue (x : Option Ratio) : ℚ := (x.map Ratio.value).getD 0

/-- How many of a unit an amount has. -/
def quantity (a : Amount) (u : UnitName) : ℚ := termValue (a.get? u)

/-- The amount with another term of a unit, or without one. -/
def replace (a : Amount) (u : UnitName) (x : Option Ratio) : Amount :=
  match u with
  | .board => { a with board := x }
  | .inch => { a with inch := x }
  | .millimeter => { a with millimeter := x }

/-- The amount whose terms are given unit by unit. -/
def ofParts (part : UnitName → Except MeasureError (Option Ratio)) :
    Except MeasureError Amount := do
  return ⟨← part .board, ← part .inch, ← part .millimeter⟩

/-- The sum of two terms of a unit, either of which may be missing. -/
def joined : Option Ratio → Option Ratio → Except MeasureError (Option Ratio)
  | some x, some y => some <$> x.add y
  | some x, none => pure (some x)
  | none, y => pure y

/-- The multiple of a term that may be missing. -/
def multiplied (s : Ratio) : Option Ratio → Except MeasureError (Option Ratio)
  | some x => some <$> x.mul s
  | none => pure none

theorem ofParts_eq_ok {part : UnitName → Except MeasureError (Option Ratio)} :
    ofParts part = .ok a ↔ ∀ u, part u = .ok (a.get? u) := by
  constructor
  · intro h
    obtain ⟨board, hboard, h⟩ := exists_of_bind_eq_ok h
    obtain ⟨inch, hinch, h⟩ := exists_of_bind_eq_ok h
    obtain ⟨millimeter, hmillimeter, h⟩ := exists_of_bind_eq_ok h
    obtain rfl := Except.ok.inj h
    intro u
    cases u with
    | board => exact hboard
    | inch => exact hinch
    | millimeter => exact hmillimeter
  · intro h
    have hboard : part .board = .ok a.board := h .board
    have hinch : part .inch = .ok a.inch := h .inch
    have hmillimeter : part .millimeter = .ok a.millimeter := h .millimeter
    unfold ofParts
    rw [hboard, hinch, hmillimeter]
    rfl

/-! ### Sums -/

theorem joined_none (x : Option Ratio) : joined x none = pure x := by
  cases x <;> rfl

theorem joined_comm (x y : Option Ratio) : joined x y = joined y x := by
  cases x with
  | none => exact (joined_none y).symm
  | some x =>
    cases y with
    | none => rfl
    | some y => exact congrArg (some <$> ·) (x.add_comm y)

theorem addTerm_eq (a : Amount) (u : UnitName) (y : Ratio) :
    a.addTerm u y = a.replace u <$> joined (a.get? u) (some y) := by
  have hset : ∀ z, a.set u z = a.replace u (some z) := fun z => by cases u <;> rfl
  unfold addTerm
  cases a.get? u with
  | none => exact congrArg Except.ok (hset y)
  | some x => simp [joined, hset]

/-- Terms of different units do not meet. -/
theorem add_eq (a b : Amount) : a.add b = ofParts fun u => joined (a.get? u) (b.get? u) := by
  obtain ⟨board, inch, millimeter⟩ := b
  cases board <;> cases inch <;> cases millimeter <;>
    simp [add, terms, UnitName.all, get?, ofParts, addTerm_eq, replace, joined_none] <;> rfl

theorem add_eq_ok : a.add b = .ok c ↔ ∀ u, joined (a.get? u) (b.get? u) = .ok (c.get? u) := by
  rw [add_eq, ofParts_eq_ok]

theorem add_comm (a b : Amount) : a.add b = b.add a := by
  rw [add_eq, add_eq]
  simp only [joined_comm]

/-- The fraction of the sum in lowest terms, missing only if both terms are. -/
theorem of_joined {x y z : Option Ratio} (hx : ∀ r ∈ x, r.Canonical) (hy : ∀ r ∈ y, r.Canonical)
    (h : joined x y = .ok z) : (∀ r ∈ z, r.Canonical) ∧
      termValue z = termValue x + termValue y ∧ z.isSome = (x.isSome || y.isSome) := by
  cases x with
  | none =>
    obtain rfl := Except.ok.inj h
    simpa [termValue] using hy
  | some x =>
    cases y with
    | none =>
      obtain rfl := Except.ok.inj h
      simpa [termValue] using hx
    | some y =>
      obtain ⟨sum, hsum, h⟩ := exists_of_bind_eq_ok (k := fun r => pure (some r)) h
      obtain rfl := Except.ok.inj h
      rw [Ratio.add_eq_exactly (hx x rfl) (hy y rfl)] at hsum
      have hcanonical := Ratio.canonical_of_exactly hsum
      have hvalue := Ratio.value_of_exactly hsum
      simpa [termValue] using ⟨hcanonical, hvalue⟩

theorem of_add (ha : a.Canonical) (hb : b.Canonical) (h : a.add b = .ok c) :
    c.Canonical ∧ ∀ u, c.quantity u = a.quantity u + b.quantity u := by
  have hparts := fun u => of_joined (ha u) (hb u) (add_eq_ok.mp h u)
  constructor
  · intro u
    exact (hparts u).1
  · intro u
    exact (hparts u).2.1

/-- Terms in lowest terms are equal if both are there, or neither, and their values are equal. -/
theorem eq_of_termValue_eq {x y : Option Ratio} (hx : ∀ r ∈ x, r.Canonical)
    (hy : ∀ r ∈ y, r.Canonical) (hsome : x.isSome = y.isSome)
    (hvalue : termValue x = termValue y) : x = y := by
  cases x with
  | none => exact (Option.not_isSome_iff_eq_none.mp (hsome ▸ Bool.false_ne_true)).symm
  | some x =>
    obtain ⟨y, rfl⟩ := Option.isSome_iff_exists.mp hsome.symm
    have hxy : x.value = y.value := hvalue
    rw [((hx x rfl).eq_iff (hy y rfl)).mpr hxy]

/-- Either way of adding three amounts may fail by itself, but both never differ. -/
theorem add_assoc_of_ok {ab bc d e : Amount} (ha : a.Canonical) (hb : b.Canonical)
    (hc : c.Canonical)
    (hab : a.add b = .ok ab) (hd : ab.add c = .ok d) (hbc : b.add c = .ok bc)
    (he : a.add bc = .ok e) : d = e := by
  refine eq_of_get?_eq fun u => ?_
  obtain ⟨hab, habValue, habSome⟩ := of_joined (ha u) (hb u) (add_eq_ok.mp hab u)
  obtain ⟨hbc, hbcValue, hbcSome⟩ := of_joined (hb u) (hc u) (add_eq_ok.mp hbc u)
  obtain ⟨hd, hdValue, hdSome⟩ := of_joined hab (hc u) (add_eq_ok.mp hd u)
  obtain ⟨he, heValue, heSome⟩ := of_joined (ha u) hbc (add_eq_ok.mp he u)
  apply eq_of_termValue_eq hd he
  · rw [hdSome, heSome, habSome, hbcSome, Bool.or_assoc]
  · rw [hdValue, heValue, habValue, hbcValue, add_assoc]

/-! ### Multiples -/

theorem scale_eq (h : s.isOne = false) (a : Amount) :
    a.scale s = ofParts fun u => multiplied s (a.get? u) := by
  obtain ⟨board, inch, millimeter⟩ := a
  cases board <;> cases inch <;> cases millimeter <;>
    simp [scale, terms, UnitName.all, get?, ofParts, set, multiplied, h]

theorem of_multiplied {x z : Option Ratio} (hx : ∀ r ∈ x, r.Canonical) (hs : s.Canonical)
    (h : multiplied s x = .ok z) :
    (∀ r ∈ z, r.Canonical) ∧ termValue z = termValue x * s.value := by
  cases x with
  | none =>
    obtain rfl := Except.ok.inj h
    simp [termValue]
  | some x =>
    obtain ⟨product, hproduct, h⟩ := exists_of_bind_eq_ok (k := fun r => pure (some r)) h
    obtain rfl := Except.ok.inj h
    rw [Ratio.mul_eq_exactly (hx x rfl) hs] at hproduct
    have hcanonical := Ratio.canonical_of_exactly hproduct
    have hvalue := Ratio.value_of_exactly hproduct
    simpa [termValue] using ⟨hcanonical, hvalue⟩

/-- Once an amount is the amount itself. -/
theorem of_scale (ha : a.Canonical) (hs : s.Canonical) (h : a.scale s = .ok b) :
    b.Canonical ∧ ∀ u, b.quantity u = a.quantity u * s.value := by
  cases hone : s.isOne with
  | true =>
    obtain rfl := Ratio.isOne_iff.mp hone
    obtain rfl := Except.ok.inj h
    have hvalue : (1 : Ratio).value = 1 := Ratio.value_lowest 1
    simpa [hvalue] using ha
  | false =>
    rw [scale_eq hone, ofParts_eq_ok] at h
    have hparts := fun u => of_multiplied (ha u) hs (h u)
    constructor
    · intro u
      exact (hparts u).1
    · intro u
      exact (hparts u).2

end Amount
end Toolpath
