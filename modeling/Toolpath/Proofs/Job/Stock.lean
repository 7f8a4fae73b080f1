import Toolpath.Job.Basic
import Toolpath.Proofs.Measure.Linear

/-!
The stock of a job. Its thickness is positive and decoded exactly, one board is that thick whatever
the native unit is, and two jobs on the same stock decode to lengths that differ by the quotient of
their native units.
-/
namespace Toolpath
open Ratio (Fits lowest)

theorem CarveError.ofMeasure_eq_ok {α β : Type} {x : Except MeasureError β} {b : β}
    (h : (CarveError.ofMeasure x : Except (CarveError α) β) = .ok b) : x = .ok b := by
  cases x with
  | error e => cases h
  | ok _ => exact congrArg Except.ok (Except.ok.inj h)

theorem Ratio.Canonical.isPositive_iff {a : Ratio} (h : a.Canonical) :
    a.isPositive = true ↔ 0 < a.value := by
  have hzero : (0 : Ratio).value = 0 := Ratio.value_lowest 0
  rw [isPositive, cmp_eq (by decide) h, hzero, beq_iff_eq, compare_lt_iff_lt]

theorem Ratio.exactly_some_cases (q : ℚ) : exactly (some q) = .error .outOfRange ∨
    Fits q ∧ exactly (some q) = .ok (lowest q) := by
  by_cases h : Fits q
  · exact .inr ⟨h, if_pos h⟩
  · exact .inl (if_neg h)

/-- Only inches and millimeters have a length without a board. -/
theorem UnitTable.eq_of_get {name : String} {native : LengthUnit}
    (h : UnitTable.standard.get name = .ok native) :
    native = ⟨.inch, ⟨127, 5⟩⟩ ∨ native = ⟨.millimeter, 1⟩ := by
  unfold get find? at h
  cases hname : UnitName.ofAlias? name with
  | none => simp [hname] at h
  | some u =>
    cases u with
    | board => simp [hname, unit?, millimeters?, standard] at h
    | inch =>
      left
      simpa [hname, unit?, millimeters?, eq_comm] using h
    | millimeter =>
      right
      simpa [hname, unit?, millimeters?, eq_comm] using h

/-- Inches and millimeters are in every table, with lengths of their own. -/
theorem UnitTable.unit?_of_get {name : String} {native : LengthUnit}
    (h : UnitTable.standard.get name = .ok native) (t : UnitTable) :
    t.unit? native.name = some native ∧ native.name ≠ .board ∧ native.millimeters.value ≠ 0 := by
  obtain rfl | rfl := eq_of_get h
  · exact ⟨rfl, by decide, by norm_num [Ratio.value]⟩
  · have hone : (1 : Ratio).value = 1 := Ratio.value_lowest 1
    exact ⟨rfl, by decide, hone ▸ one_ne_zero⟩

namespace Job
variable {α : Type}

/-- What a job is made of. -/
structure MadeOf (job : Job α) (name : String) (thickness : Amount) : Prop where
  native : UnitTable.standard.get name = .ok job.native
  decoded : thickness.decode job.native .standard = .ok job.thickness
  positive : job.thickness.isPositive = true
  board : ∃ board, job.thickness.mul job.native.millimeters = .ok board ∧
    job.units = UnitTable.standard.withBoard board

theorem madeOf_new {name : String} {thickness : Amount} {bit : Bit α} {job : Job α}
    (h : Job.new name thickness bit = .ok job) : job.MadeOf name thickness := by
  obtain ⟨native, hnative, h⟩ := exists_of_bind_eq_ok h
  obtain ⟨-, h⟩ := of_check_eq_ok h
  obtain ⟨-, h⟩ := of_check_eq_ok h
  obtain ⟨t, ht, h⟩ := exists_of_bind_eq_ok h
  obtain ⟨hpositive, h⟩ := of_check_eq_ok h
  obtain ⟨board, hboard, h⟩ := exists_of_bind_eq_ok h
  obtain rfl := Except.ok.inj h
  exact ⟨CarveError.ofMeasure_eq_ok hnative, CarveError.ofMeasure_eq_ok ht,
    by simpa using hpositive, board, CarveError.ofMeasure_eq_ok hboard, rfl⟩

namespace MadeOf
variable {job job' : Job α} {name name' : String} {thickness : Amount} {a : Amount}
  {r x y : Ratio}

/-- The thickness in native units, and a board in millimeters. -/
theorem exists_board (h : job.MadeOf name thickness) (hthickness : thickness.Canonical) :
    job.thickness.Canonical ∧
    job.thickness.value = thickness.length .standard / job.native.millimeters.value ∧
    ∃ board : Ratio, board.Canonical ∧ job.units = UnitTable.standard.withBoard board ∧
      board.value = job.thickness.value * job.native.millimeters.value := by
  have hstandard : UnitTable.standard.Canonical :=
    UnitTable.canonical_of_board fun z hz => nomatch hz
  obtain ⟨hunit, -, hsize⟩ := UnitTable.unit?_of_get h.native .standard
  obtain ⟨hcanonical, hvalue⟩ :=
    Amount.of_decode_canonical hstandard hunit hsize hthickness h.decoded
  have hlength := hstandard _ _ (UnitTable.size_of_unit? hunit).1
  obtain ⟨board, hboard, hunits⟩ := h.board
  rw [Ratio.mul_eq_exactly hcanonical hlength] at hboard
  exact ⟨hcanonical, hvalue, board, Ratio.canonical_of_exactly hboard, hunits,
    Ratio.value_of_exactly hboard⟩

theorem canonical_units (h : job.MadeOf name thickness) (hthickness : thickness.Canonical) :
    job.units.Canonical := by
  obtain ⟨-, -, board, hboard, hunits, -⟩ := h.exists_board hthickness
  rw [hunits]
  exact UnitTable.canonical_of_board fun z hz => Option.some.inj hz ▸ hboard

/-- A board is divided back by the native unit that the thickness was multiplied with. -/
theorem unitValue_board (h : job.MadeOf name thickness) (hthickness : thickness.Canonical) :
    job.unitValue "board" = .ok job.thickness := by
  obtain ⟨hcanonical, -, board, hboard, hunits, hvalue⟩ := h.exists_board hthickness
  obtain ⟨hunit, -, hsize⟩ := UnitTable.unit?_of_get h.native job.units
  have hlength := h.canonical_units hthickness _ _ (UnitTable.size_of_unit? hunit).1
  have hget : job.units.get "board" = .ok ⟨.board, board⟩ := by
    rw [hunits]
    rfl
  have hquotient : board.value / job.native.millimeters.value = job.thickness.value := by
    rw [hvalue]
    exact mul_div_cancel_right₀ _ hsize
  simp only [unitValue, hget, bind, Except.bind]
  rw [Ratio.div_eq_exactly hboard hlength, Ratio.quotient?, if_neg hsize, hquotient]
  exact hcanonical.exactly_value

/-- Boards are decoded to as many times the thickness, or a result on the way is out of range. -/
theorem decode_boards (h : job.MadeOf name thickness) (hthickness : thickness.Canonical)
    (hr : r.Canonical) : job.decode (.single .board r) = .error .outOfRange ∨
      ∃ x, job.decode (.single .board r) = .ok x ∧ x.value = r.value * job.thickness.value := by
  obtain ⟨-, -, board, hboard, hunits, hvalue⟩ := h.exists_board hthickness
  obtain ⟨hunit, hname, hsize⟩ := UnitTable.unit?_of_get h.native job.units
  have hlength := h.canonical_units hthickness _ _ (UnitTable.size_of_unit? hunit).1
  have hquotient : r.value * board.value / job.native.millimeters.value =
      r.value * job.thickness.value := by
    rw [hvalue, ← mul_assoc]
    exact mul_div_cancel_right₀ _ hsize
  have hterm : Amount.decodeTerm job.native job.units .board r =
      (do (← r.mul board).div job.native.millimeters) := by
    rw [hunits, Amount.decodeTerm, if_neg hname.symm]
    rfl
  have hdecode : job.decode (.single .board r) =
      (do (0 : Ratio).add (← (do (← r.mul board).div job.native.millimeters))) := by
    rw [← hterm]
    exact bind_pure _
  rw [hdecode, Ratio.mul_eq_exactly hr hboard]
  obtain hproduct | ⟨hproductFits, hproduct⟩ := Ratio.exactly_some_cases (r.value * board.value)
  · left
    simp only [hproduct, bind, Except.bind]
  have hdiv := Ratio.div_eq_exactly (Ratio.canonical_lowest hproductFits) hlength
  rw [Ratio.value_lowest, Ratio.quotient?, if_neg hsize, hquotient] at hdiv
  obtain hrefused | ⟨hfits, hresult⟩ :=
    Ratio.exactly_some_cases (r.value * job.thickness.value)
  · left
    simp only [hproduct, hdiv, hrefused, bind, Except.bind]
  · right
    have hsum := (Ratio.add_lowest_eq_ok (by decide) hfits).mpr
      ⟨(zero_add (r.value * job.thickness.value)).symm ▸ hfits, rfl⟩
    rw [zero_add] at hsum
    refine ⟨_, ?_, Ratio.value_lowest _⟩
    simp only [hproduct, hdiv, hresult, bind, Except.bind]
    exact hsum

/-- Two jobs on the same stock measure in the same units, whatever their native ones are. -/
theorem size_units (h : job.MadeOf name thickness) (h' : job'.MadeOf name' thickness)
    (hthickness : thickness.Canonical) (u : UnitName) : job.units.size u = job'.units.size u := by
  have hboard {job : Job α} {name : String} (h : job.MadeOf name thickness) :
      job.units.size .board = thickness.length .standard := by
    obtain ⟨-, hdecoded, board, -, hunits, hvalue⟩ := h.exists_board hthickness
    obtain ⟨-, -, hsize⟩ := UnitTable.unit?_of_get h.native .standard
    have hlength : job.units.size .board = board.value := by
      rw [hunits]
      rfl
    rw [hlength, hvalue, hdecoded, div_mul_cancel₀ _ hsize]
  cases u with
  | board => rw [hboard h, hboard h']
  | inch => rfl
  | millimeter => rfl

theorem decode_native (h : job.MadeOf name thickness) (h' : job'.MadeOf name' thickness)
    (hthickness : thickness.Canonical) (ha : a.Canonical) (hx : job.decode a = .ok x)
    (hy : job'.decode a = .ok y) :
    y.value * job'.native.millimeters.value = x.value * job.native.millimeters.value := by
  obtain ⟨hunit, -, hsize⟩ := UnitTable.unit?_of_get h.native job.units
  obtain ⟨hunit', -, hsize'⟩ := UnitTable.unit?_of_get h'.native job'.units
  obtain ⟨-, hxValue⟩ :=
    Amount.of_decode_canonical (h.canonical_units hthickness) hunit hsize ha hx
  obtain ⟨-, hyValue⟩ :=
    Amount.of_decode_canonical (h'.canonical_units hthickness) hunit' hsize' ha hy
  have hlength : a.length job.units = a.length job'.units := by
    simp only [Amount.length, h.size_units h' hthickness]
  rw [hxValue, hyValue, div_mul_cancel₀ _ hsize, div_mul_cancel₀ _ hsize', hlength]

end MadeOf
variable {name : String} {thickness : Amount} {bit : Bit α} {job : Job α}

/-- The thickness is positive and decoded exactly, and one board is that thick. Boards are decoded
to as many times the thickness if no result is out of range. A job in millimeters on the same stock
decodes any amount to 127/5 times what one in inches does. -/
theorem board_is_thickness (hthickness : thickness.Canonical)
    (h : Job.new name thickness bit = .ok job) :
    (0 < job.thickness.value ∧ thickness.decode job.native .standard = .ok job.thickness ∧
      job.thickness.value = (thickness.terms.map fun e =>
        e.2.value * UnitTable.standard.size e.1 / job.native.millimeters.value).sum) ∧
    job.unitValue "board" = .ok job.thickness ∧
    (∀ r : Ratio, r.Canonical → job.decode (.single .board r) = .error .outOfRange ∨
      ∃ x, job.decode (.single .board r) = .ok x ∧ x.value = r.value * job.thickness.value) ∧
    ∀ (name' : String) (bit' : Bit α) (job' : Job α), Job.new name' thickness bit' = .ok job' →
      job.native.name = .inch → job'.native.name = .millimeter →
      ∀ (a : Amount) (x y : Ratio), a.Canonical → job.decode a = .ok x → job'.decode a = .ok y →
        y.value = 127 / 5 * x.value := by
  have hmade := madeOf_new h
  obtain ⟨hcanonical, hvalue, -⟩ := hmade.exists_board hthickness
  refine ⟨⟨hcanonical.isPositive_iff.mp hmade.positive, hmade.decoded, ?_⟩,
    hmade.unitValue_board hthickness, fun r hr => hmade.decode_boards hthickness hr, ?_⟩
  · exact hvalue.trans (Amount.sum_converted _ _ _).symm
  intro name' bit' job' h' hinch hmillimeter a x y ha hx hy
  have hmade' := madeOf_new h'
  have hsizes := hmade.decode_native hmade' hthickness ha hx hy
  obtain ⟨hunit, -⟩ := UnitTable.unit?_of_get hmade.native .standard
  obtain ⟨hunit', -⟩ := UnitTable.unit?_of_get hmade'.native .standard
  have hlength : job.native.millimeters = ⟨127, 5⟩ := by
    have hknown := (UnitTable.size_of_unit? hunit).1
    rw [hinch] at hknown
    exact (Option.some.inj hknown).symm
  have hlength' : job'.native.millimeters = 1 := by
    have hknown := (UnitTable.size_of_unit? hunit').1
    rw [hmillimeter] at hknown
    exact (Option.some.inj hknown).symm
  have hone : (1 : Ratio).value = 1 := Ratio.value_lowest 1
  rw [hlength, hlength', hone, mul_one, mul_comm] at hsizes
  exact hsizes.trans (by norm_num [Ratio.value])

/-- Stock of an eighth of an inch and a millimeter. -/
theorem board_is_thickness_mixed :
    let thickness : Amount := ⟨none, some ⟨1, 8⟩, some 1⟩
    let amount : Amount := ⟨some ⟨2, 1⟩, none, some ⟨1, 2⟩⟩
    ∃ inch metric : Job Float, Job.new "in" thickness ⟨"", .flat 1⟩ = .ok inch ∧
      Job.new "mm" thickness ⟨"", .flat 1⟩ = .ok metric ∧
      inch.unitValue "board" = .ok ⟨167, 1016⟩ ∧ metric.unitValue "board" = .ok ⟨167, 40⟩ ∧
      ∃ x y, inch.decode amount = .ok x ∧ metric.decode amount = .ok y ∧
        y.value = 127 / 5 * x.value := by
  intro thickness amount
  obtain ⟨bit, hbit⟩ : ∃ bit : Bit Float, bit = ⟨"", .flat 1⟩ := ⟨_, rfl⟩
  rw [← hbit]
  have hthickness : thickness.Canonical := by decide
  have hinch : Job.new "in" thickness bit =
      .ok ⟨⟨.inch, ⟨127, 5⟩⟩, ⟨some ⟨167, 40⟩⟩, ⟨167, 1016⟩, bit⟩ := rfl
  have hmetric : Job.new "mm" thickness bit =
      .ok ⟨⟨.millimeter, 1⟩, ⟨some ⟨167, 40⟩⟩, ⟨167, 40⟩, bit⟩ := rfl
  obtain ⟨-, hboard, -, hother⟩ := board_is_thickness hthickness hinch
  obtain ⟨-, hboard', -⟩ := board_is_thickness hthickness hmetric
  have hx : amount.decode ⟨.inch, ⟨127, 5⟩⟩ ⟨some ⟨167, 40⟩⟩ = .ok ⟨177, 508⟩ := by decide
  have hy : amount.decode ⟨.millimeter, 1⟩ ⟨some ⟨167, 40⟩⟩ = .ok ⟨177, 20⟩ := by decide
  exact ⟨_, _, hinch, hmetric, hboard, hboard', _, _, hx, hy,
    hother "mm" bit _ hmetric rfl rfl amount _ _ (by decide) hx hy⟩

end Job
end Toolpath
