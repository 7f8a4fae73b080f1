import Mathlib.Algebra.BigOperators.Ring.List
import Toolpath.Proofs.Measure.Parts

/-!
What amounts measure, as rational numbers, and how they are decoded. Decoding gives the sum of what
the terms measure in native units, provided that the units are known and all results on the way fit.
The sum is linear in the amount, so decoding is too.
-/
namespace Toolpath
open Ratio (Fits lowest)

namespace Ratio.Canonical
variable {a : Ratio}

theorem lowest_value (h : a.Canonical) : lowest a.value = a := by
  rw [lowest, h.num_value, h.den_value]

theorem fits_value (h : a.Canonical) : Fits a.value := by
  rw [Fits, h.num_value, h.den_value]
  exact ⟨h.num_inRange, h.den_inRange⟩

/-- A fraction in lowest terms is the outcome owed to its value. -/
theorem exactly_value (h : a.Canonical) : Ratio.exactly (some a.value) = .ok a :=
  Ratio.exactly_some_eq_ok.mpr ⟨h.fits_value, h.lowest_value.symm⟩

end Ratio.Canonical

namespace UnitTable

/-- How many millimeters one unit measures, zero if the table does not know it. -/
def size (t : UnitTable) (u : UnitName) : ℚ := ((t.millimeters? u).map Ratio.value).getD 0

/-- A table whose lengths are in lowest terms. -/
def Canonical (t : UnitTable) : Prop := ∀ u, ∀ z ∈ t.millimeters? u, z.Canonical

/-- The length of an inch and of a millimeter are. -/
theorem canonical_of_board {t : UnitTable} (h : ∀ z ∈ t.board, z.Canonical) : t.Canonical := by
  intro u z hz
  cases u with
  | board => exact h z hz
  | inch =>
    obtain rfl := Option.some.inj hz
    decide
  | millimeter =>
    obtain rfl := Option.some.inj hz
    decide

theorem size_of_unit? {t : UnitTable} {native : LengthUnit}
    (h : t.unit? native.name = some native) :
    t.millimeters? native.name = some native.millimeters ∧
      t.size native.name = native.millimeters.value := by
  obtain ⟨z, hz, hnative⟩ := Option.map_eq_some_iff.mp h
  have hlength : z = native.millimeters := congrArg LengthUnit.millimeters hnative
  rw [size, hz, hlength]
  exact ⟨rfl, rfl⟩

end UnitTable

namespace Amount

/-- What an amount measures in millimeters. -/
def length (a : Amount) (t : UnitTable) : ℚ := (a.terms.map fun e => e.2.value * t.size e.1).sum

section
variable (native : LengthUnit) (t : UnitTable)

/-- What a term measures in native units. -/
def converted (e : UnitName × Ratio) : ℚ := e.2.value * t.size e.1 / native.millimeters.value

/-- A term of a known unit, none of the results of whose conversion is out of range. -/
structure Convertible (e : UnitName × Ratio) : Prop where
  known : (t.millimeters? e.1).isSome
  product : e.1 ≠ native.name → Fits (e.2.value * t.size e.1)
  quotient : Fits (converted native t e)

/-- An amount that can be decoded: each term can be converted, and the first terms have sums that
fit. -/
structure Decodable (a : Amount) : Prop where
  terms : ∀ e ∈ a.terms, Convertible native t e
  sums : ∀ front, front <+: a.terms → Fits (front.map (converted native t)).sum

end

variable {native : LengthUnit} {t : UnitTable} {a b c : Amount} {r s : Ratio}

/-! ### Decoding -/

/-- A term in the native unit is taken as it is, which is what converting it would give. -/
theorem decodeTerm_eq_ok (ht : t.Canonical) (hnative : t.unit? native.name = some native)
    (hsize : native.millimeters.value ≠ 0) {u : UnitName} {x : Ratio} (hx : x.Canonical) :
    decodeTerm native t u x = .ok r ↔
      Convertible native t (u, x) ∧ r = lowest (converted native t (u, x)) := by
  obtain ⟨hknown, hvalue⟩ := UnitTable.size_of_unit? hnative
  unfold decodeTerm
  by_cases hu : u = native.name
  · have hsame : converted native t (u, x) = x.value := by
      rw [converted, hu, hvalue]
      exact mul_div_cancel_right₀ _ hsize
    have hconvertible : Convertible native t (u, x) := by
      constructor
      · rw [hu, hknown]
        rfl
      · exact fun hne => absurd hu hne
      · rw [hsame]
        exact hx.fits_value
    rw [if_pos hu, hsame, hx.lowest_value, and_iff_right hconvertible]
    exact ⟨fun h => (Except.ok.inj h).symm, fun h => congrArg Except.ok h.symm⟩
  · rw [if_neg hu]
    cases hz : t.millimeters? u with
    | none =>
      constructor
      · intro h
        cases h
      · rintro ⟨h, -⟩
        have hsome := h.known
        rw [hz] at hsome
        cases hsome
    | some z =>
      have hlength : t.size u = z.value := by
        rw [UnitTable.size, hz]
        rfl
      have hproduct : x.mul z = Ratio.exactly (some (x.value * t.size u)) := by
        rw [hlength]
        exact Ratio.mul_eq_exactly hx (ht u z hz)
      have hcanonical := ht native.name native.millimeters hknown
      constructor
      · intro h
        obtain ⟨product, hmul, hdiv⟩ := exists_of_bind_eq_ok h
        obtain ⟨hfits, rfl⟩ := Ratio.exactly_some_eq_ok.mp (hproduct ▸ hmul)
        rw [← hcanonical.lowest_value] at hdiv
        obtain ⟨-, hquotient, hr⟩ := (Ratio.div_lowest_eq_ok hfits hcanonical.fits_value).mp hdiv
        refine ⟨⟨?_, fun _ => hfits, hquotient⟩, hr⟩
        rw [hz]
        rfl
      · rintro ⟨h, hr⟩
        have hfits := h.product hu
        have hdiv := (Ratio.div_lowest_eq_ok hfits hcanonical.fits_value).mpr
          ⟨hsize, h.quotient, hr⟩
        rw [hcanonical.lowest_value] at hdiv
        simp only [hproduct, Ratio.exactly_some_eq_ok.mpr ⟨hfits, rfl⟩]
        exact hdiv

/-- Terms are added to a total from the first to the last. -/
theorem decodeTerms_eq_ok (ht : t.Canonical) (hnative : t.unit? native.name = some native)
    (hsize : native.millimeters.value ≠ 0) {terms : List (UnitName × Ratio)}
    (hterms : ∀ e ∈ terms, e.2.Canonical) {q : ℚ} (hq : Fits q) :
    terms.foldlM (fun total (u, x) => do total.add (← decodeTerm native t u x)) (lowest q) =
        .ok r ↔
      (∀ e ∈ terms, Convertible native t e) ∧
      (∀ front, front <+: terms → Fits (q + (front.map (converted native t)).sum)) ∧
      r = lowest (q + (terms.map (converted native t)).sum) := by
  induction terms generalizing q with
  | nil =>
    simp only [List.foldlM_nil, List.prefix_nil, List.not_mem_nil, forall_eq, List.map_nil,
      List.sum_nil, add_zero, false_imp_iff, implies_true, true_and, and_iff_right hq]
    exact ⟨fun h => (Except.ok.inj h).symm, fun h => congrArg Except.ok h.symm⟩
  | cons e rest ih =>
    obtain ⟨u, x⟩ := e
    obtain ⟨hx, hrest⟩ := List.forall_mem_cons.mp hterms
    have hterm (y : Ratio) : decodeTerm native t u x = .ok y ↔
        Convertible native t (u, x) ∧ y = lowest (converted native t (u, x)) :=
      decodeTerm_eq_ok ht hnative hsize hx
    rw [List.foldlM_cons, List.forall_mem_cons, forall_prefix_cons]
    simp only [List.map_nil, List.sum_nil, add_zero, List.map_cons, List.sum_cons, ← add_assoc]
    constructor
    · intro h
      obtain ⟨next, hstep, h⟩ := exists_of_bind_eq_ok h
      obtain ⟨y, hy, hadd⟩ := exists_of_bind_eq_ok hstep
      obtain ⟨hconvertible, rfl⟩ := (hterm y).mp hy
      obtain ⟨hnext, rfl⟩ := (Ratio.add_lowest_eq_ok hq hconvertible.quotient).mp hadd
      obtain ⟨hall, hsums, hr⟩ := (ih hrest hnext).mp h
      exact ⟨⟨hconvertible, hall⟩, ⟨hq, hsums⟩, hr⟩
    · rintro ⟨⟨hconvertible, hall⟩, ⟨-, hsums⟩, hr⟩
      have hnext := hsums [] List.nil_prefix
      rw [List.map_nil, List.sum_nil, add_zero] at hnext
      have hy := (hterm _).mpr ⟨hconvertible, rfl⟩
      have hadd := (Ratio.add_lowest_eq_ok hq hconvertible.quotient).mpr ⟨hnext, rfl⟩
      have hstep : (do (lowest q).add (← decodeTerm native t u x)) =
          .ok (lowest (q + converted native t (u, x))) := by
        rw [hy]
        exact hadd
      exact (congrArg (· >>= _) hstep).trans ((ih hrest hnext).mpr ⟨hall, hsums, hr⟩)

theorem canonical_of_mem_terms (ha : a.Canonical) : ∀ e ∈ a.terms, e.2.Canonical := by
  intro e he
  obtain ⟨u, -, hu⟩ := List.mem_filterMap.mp he
  obtain ⟨x, hx, rfl⟩ := Option.map_eq_some_iff.mp hu
  exact ha u x hx

theorem decode_eq_ok (ht : t.Canonical) (hnative : t.unit? native.name = some native)
    (hsize : native.millimeters.value ≠ 0) (ha : a.Canonical) : a.decode native t = .ok r ↔
      a.Decodable native t ∧ r = lowest (a.terms.map (converted native t)).sum := by
  have hzero : Fits 0 := by decide
  have hterms := decodeTerms_eq_ok (r := r) ht hnative hsize (canonical_of_mem_terms ha) hzero
  simp only [zero_add] at hterms
  refine hterms.trans ?_
  constructor
  · rintro ⟨hall, hsums, hr⟩
    exact ⟨⟨hall, hsums⟩, hr⟩
  · rintro ⟨h, hr⟩
    exact ⟨h.terms, h.sums, hr⟩

theorem sum_converted (native : LengthUnit) (t : UnitTable) (a : Amount) :
    (a.terms.map (converted native t)).sum = a.length t / native.millimeters.value := by
  unfold converted
  simp only [div_eq_mul_inv, List.sum_map_mul_right]
  rfl

/-- Whatever comes out is the length in native units. -/
theorem of_decode_canonical (ht : t.Canonical) (hnative : t.unit? native.name = some native)
    (hsize : native.millimeters.value ≠ 0) (ha : a.Canonical) (h : a.decode native t = .ok r) :
    r.Canonical ∧ r.value = a.length t / native.millimeters.value := by
  obtain ⟨hdecodable, rfl⟩ := (decode_eq_ok ht hnative hsize ha).mp h
  have hfits := hdecodable.sums a.terms List.prefix_rfl
  refine ⟨Ratio.canonical_lowest hfits, ?_⟩
  rw [Ratio.value_lowest, sum_converted]

/-! ### Linearity -/

/-- A sum over the terms is one over all units if a unit that is missing adds nothing. -/
theorem sum_terms (a : Amount) {f : UnitName → ℚ → ℚ} (hf : ∀ u, f u 0 = 0) :
    (a.terms.map fun e => f e.1 e.2.value).sum =
      (UnitName.all.map fun u => f u (a.quantity u)).sum := by
  unfold terms
  induction UnitName.all with
  | nil => rfl
  | cons u rest ih =>
    rw [List.map_cons, List.sum_cons, ← ih]
    cases hu : a.get? u with
    | none =>
      have hmissing : a.quantity u = 0 := by rw [quantity, hu, termValue]; rfl
      rw [List.filterMap_cons_none (by rw [hu]; rfl), hmissing, hf, zero_add]
    | some x =>
      have hvalue : a.quantity u = x.value := by rw [quantity, hu, termValue]; rfl
      rw [List.filterMap_cons_some (by rw [hu]; rfl), List.map_cons, List.sum_cons, hvalue]

theorem length_eq (a : Amount) (t : UnitTable) :
    a.length t = (UnitName.all.map fun u => a.quantity u * t.size u).sum :=
  a.sum_terms (f := fun u q => q * t.size u) fun u => zero_mul (t.size u)

theorem length_add (ha : a.Canonical) (hb : b.Canonical) (h : a.add b = .ok c) :
    c.length t = a.length t + b.length t := by
  obtain ⟨-, hquantity⟩ := of_add ha hb h
  simp only [length_eq, hquantity, add_mul, List.sum_map_add]

theorem length_scale (ha : a.Canonical) (hs : s.Canonical) (h : a.scale s = .ok b) :
    b.length t = s.value * a.length t := by
  obtain ⟨-, hquantity⟩ := of_scale ha hs h
  have hterm (u : UnitName) : b.quantity u * t.size u = s.value * (a.quantity u * t.size u) := by
    rw [hquantity]
    ring
  simp only [length_eq, hterm, List.sum_map_mul_left]

/-- An amount that can be decoded is decoded to the sum of its terms, each of them times the length
of its unit and divided by the length of the native one. Multiples and sums of amounts are decoded
to the multiples and sums of what the amounts are decoded to. The order in which amounts are added
makes no difference, nor does it matter which two of three are added first. -/
theorem decode_linear (ht : t.Canonical) (hnative : t.unit? native.name = some native)
    (hsize : native.millimeters.value ≠ 0) :
    (∀ a : Amount, a.Canonical → ∀ r, a.decode native t = .ok r ↔
      a.Decodable native t ∧ r.Canonical ∧
        r.value = (a.terms.map fun e => e.2.value * t.size e.1 / native.millimeters.value).sum) ∧
    (∀ (a b : Amount) (s x y : Ratio), a.Canonical → s.Canonical → a.scale s = .ok b →
      a.decode native t = .ok x → b.decode native t = .ok y → s.mul x = .ok y) ∧
    (∀ (a b c : Amount) (x y z : Ratio), a.Canonical → b.Canonical → a.add b = .ok c →
      a.decode native t = .ok x → b.decode native t = .ok y → c.decode native t = .ok z →
      x.add y = .ok z) ∧
    (∀ a b : Amount, a.add b = b.add a) ∧
    ∀ a b c ab bc d e : Amount, a.Canonical → b.Canonical → c.Canonical →
      a.add b = .ok ab → ab.add c = .ok d → b.add c = .ok bc → a.add bc = .ok e → d = e := by
  refine ⟨fun a ha r => ?_, fun a b s x y ha hs hb hx hy => ?_,
    fun a b c x y z ha hb hc hx hy hz => ?_, add_comm, fun a b c ab bc d e ha hb hc hab hd hbc he =>
      add_assoc_of_ok ha hb hc hab hd hbc he⟩
  · constructor
    · intro h
      obtain ⟨hdecodable, -⟩ := (decode_eq_ok ht hnative hsize ha).mp h
      obtain ⟨hr, hvalue⟩ := of_decode_canonical ht hnative hsize ha h
      exact ⟨hdecodable, hr, hvalue.trans (sum_converted native t a).symm⟩
    · rintro ⟨hdecodable, hr, hvalue⟩
      refine (decode_eq_ok ht hnative hsize ha).mpr ⟨hdecodable, ?_⟩
      rw [← hr.lowest_value, hvalue]
      rfl
  · obtain ⟨hbCanonical, -⟩ := of_scale ha hs hb
    obtain ⟨hxCanonical, hxValue⟩ := of_decode_canonical ht hnative hsize ha hx
    obtain ⟨hyCanonical, hyValue⟩ := of_decode_canonical ht hnative hsize hbCanonical hy
    have hproduct : s.value * x.value = y.value := by
      rw [hxValue, hyValue, length_scale ha hs hb, mul_div_assoc]
    rw [Ratio.mul_eq_exactly hs hxCanonical, hproduct]
    exact hyCanonical.exactly_value
  · obtain ⟨hcCanonical, -⟩ := of_add ha hb hc
    obtain ⟨hxCanonical, hxValue⟩ := of_decode_canonical ht hnative hsize ha hx
    obtain ⟨hyCanonical, hyValue⟩ := of_decode_canonical ht hnative hsize hb hy
    obtain ⟨hzCanonical, hzValue⟩ := of_decode_canonical ht hnative hsize hcCanonical hz
    have hsum : x.value + y.value = z.value := by
      rw [hxValue, hyValue, hzValue, length_add ha hb hc, add_div]
    rw [Ratio.add_eq_exactly hxCanonical hyCanonical, hsum]
    exact hzCanonical.exactly_value

/-- Half a board and an inch, and two inches and two more in millimeters, on stock of an eighth of
an inch. -/
theorem decode_linear_eighth :
    let t := UnitTable.standard.withBoard ⟨127, 40⟩
    let native : LengthUnit := ⟨.inch, ⟨127, 5⟩⟩
    let a : Amount := ⟨some ⟨1, 2⟩, some 1, none⟩
    let b : Amount := ⟨none, some ⟨2, 1⟩, some ⟨254, 5⟩⟩
    (t.unit? native.name = some native ∧ native.millimeters.value ≠ 0) ∧
    (a.decode native t = .ok ⟨17, 16⟩ ∧ b.decode native t = .ok ⟨4, 1⟩) ∧
    Ratio.mul ⟨2, 3⟩ ⟨17, 16⟩ = .ok ⟨17, 24⟩ ∧ Ratio.add ⟨17, 16⟩ ⟨4, 1⟩ = .ok ⟨81, 16⟩ := by
  intro t native a b
  have ht : t.Canonical := UnitTable.canonical_of_board (by decide)
  have hsize : native.millimeters.value ≠ 0 := by
    rw [Ratio.value]
    norm_num [native]
  have hunit : t.unit? native.name = some native := rfl
  obtain ⟨-, hscale, hadd, -, -⟩ := decode_linear ht hunit hsize
  have ha : a.decode native t = .ok ⟨17, 16⟩ := by decide
  have hb : b.decode native t = .ok ⟨4, 1⟩ := by decide
  refine ⟨⟨rfl, hsize⟩, ⟨ha, hb⟩, ?_, ?_⟩
  · exact hscale a ⟨some ⟨1, 3⟩, some ⟨2, 3⟩, none⟩ ⟨2, 3⟩ ⟨17, 16⟩ ⟨17, 24⟩ (by decide) (by decide)
      (by decide) ha (by decide)
  · exact hadd a b ⟨some ⟨1, 2⟩, some ⟨3, 1⟩, some ⟨254, 5⟩⟩ ⟨17, 16⟩ ⟨4, 1⟩ ⟨81, 16⟩ (by decide)
      (by decide) (by decide) ha hb (by decide)

end Amount
end Toolpath
