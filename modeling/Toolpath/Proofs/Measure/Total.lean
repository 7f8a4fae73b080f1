import Toolpath.Proofs.Measure.Literal

/-!
Terms of amounts and their totals. Adding written terms one by one succeeds exactly if every
fraction can be read and the sums of the first terms fit, and it gives every unit the sum of its
terms.
-/
namespace Toolpath.Amount
open Ratio (Fits lowest)

/-- A written fraction and a name of its unit. -/
structure Term where
  literal : Ratio.Literal
  unit : UnitName
  name : String
  name_mem : name ∈ unit.aliases

/-- The sum of the terms of a unit. -/
def sumOf (u : UnitName) (terms : List Term) : ℚ :=
  ((terms.filter (·.unit = u)).map (·.literal.value)).sum

/-- The sum of the terms of a unit, where it has any. -/
def total (u : UnitName) (terms : List Term) : Option ℚ :=
  if ∃ t ∈ terms, t.unit = u then some (sumOf u terms) else none

/-- Every fraction can be read, and the first terms of a unit have sums that fit. -/
structure Computable (terms : List Term) : Prop where
  literals : ∀ t ∈ terms, t.literal.Computable
  sums : ∀ front, front <+: terms → ∀ u, Fits (sumOf u front)

/-- An amount that has the total of each unit with terms, and nothing else. -/
def HasTotals (terms : List Term) (a : Amount) : Prop :=
  ∀ u, a.get? u = (total u terms).map lowest

/-- The terms are read and added from the first to the last. -/
def addTerms (terms : List Term) (start : Amount) : Except MeasureError Amount :=
  terms.foldlM (fun sum t => do sum.addTerm t.unit (← t.literal.outcome)) start

variable {u w : UnitName} {t : Term} {terms before : List Term} {a b start : Amount} {r : Ratio}

/-! ### Units -/

theorem get?_set (a : Amount) (u w : UnitName) (r : Ratio) :
    (a.set u r).get? w = if w = u then some r else a.get? w := by
  cases u <;> cases w <;> rfl

theorem get?_empty (u : UnitName) : ({} : Amount).get? u = none := by
  cases u <;> rfl

theorem eq_of_get?_eq (h : ∀ u, a.get? u = b.get? u) : a = b := by
  obtain ⟨board, inch, millimeter⟩ := a
  obtain rfl : board = b.board := h .board
  obtain rfl : inch = b.inch := h .inch
  obtain rfl : millimeter = b.millimeter := h .millimeter
  rfl

theorem isEmpty_eq_true : a.isEmpty = true ↔ ∀ u, a.get? u = none := by
  have hall : ∀ u, u ∈ UnitName.all := fun u => by cases u <;> decide
  rw [isEmpty, List.isEmpty_iff, Amount.terms, List.filterMap_eq_nil_iff]
  simp only [Option.map_eq_none_iff]
  exact ⟨fun h u => h u (hall u), fun h u _ => h u⟩

/-! ### Sums -/

theorem sumOf_concat (u : UnitName) (terms : List Term) (t : Term) :
    sumOf u (terms ++ [t]) = sumOf u terms + if t.unit = u then t.literal.value else 0 := by
  by_cases h : t.unit = u <;> simp [sumOf, h]

theorem total_concat (u : UnitName) (terms : List Term) (t : Term) :
    total u (terms ++ [t]) =
      if u = t.unit then some (sumOf u terms + t.literal.value) else total u terms := by
  by_cases h : u = t.unit
  · have hmem : ∃ t' ∈ terms ++ [t], t'.unit = u := ⟨t, by simp, h.symm⟩
    rw [total, if_pos hmem, if_pos h, sumOf_concat, if_pos h.symm]
  · have hmem : (∃ t' ∈ terms ++ [t], t'.unit = u) ↔ ∃ t' ∈ terms, t'.unit = u := by
      simp [or_and_right, exists_or, Ne.symm h]
    rw [total, total, if_neg h, sumOf_concat, if_neg (Ne.symm h), add_zero]
    simp only [hmem]

theorem sumOf_of_total_eq_none (h : total u terms = none) : sumOf u terms = 0 := by
  rw [total, ite_eq_right_iff] at h
  have hnone : terms.filter (·.unit = u) = [] :=
    List.filter_eq_nil_iff.mpr fun t ht hu => nomatch h ⟨t, ht, of_decide_eq_true hu⟩
  rw [sumOf, hnone]
  rfl

theorem eq_sumOf_of_total_eq_some {q : ℚ} (h : total u terms = some q) : q = sumOf u terms := by
  rw [total] at h
  split at h
  · exact (Option.some.inj h).symm
  · cases h

/-! ### Adding terms -/

theorem hasTotals_nil : HasTotals [] {} := fun u => get?_empty u

theorem HasTotals.eq (ha : HasTotals terms a) (hb : HasTotals terms b) : a = b :=
  eq_of_get?_eq fun u => (ha u).trans (hb u).symm

/-- Setting the unit of a further term to its new sum. -/
theorem HasTotals.set (h : HasTotals terms a) (t : Term) :
    HasTotals (terms ++ [t]) (a.set t.unit (lowest (sumOf t.unit terms + t.literal.value))) := by
  intro w
  rw [get?_set, total_concat]
  by_cases hw : w = t.unit
  · rw [if_pos hw, if_pos hw, hw, Option.map_some]
  · rw [if_neg hw, if_neg hw, h w]

theorem addTerm_eq_ok (h : HasTotals terms a) (hfits : Fits (sumOf t.unit terms))
    (ht : Fits t.literal.value) : a.addTerm t.unit (lowest t.literal.value) = .ok b ↔
      Fits (sumOf t.unit terms + t.literal.value) ∧ HasTotals (terms ++ [t]) b := by
  have hset := h.set t
  have hiff : a.set t.unit (lowest (sumOf t.unit terms + t.literal.value)) = b ↔
      HasTotals (terms ++ [t]) b :=
    ⟨fun hb => hb ▸ hset, fun hb => hset.eq hb⟩
  rw [addTerm, h t.unit]
  cases htotal : total t.unit terms with
  | none =>
    rw [sumOf_of_total_eq_none htotal, zero_add] at hiff ⊢
    rw [Option.map_none, and_iff_right ht, ← hiff]
    exact ⟨Except.ok.inj, congrArg Except.ok⟩
  | some q =>
    obtain rfl := eq_sumOf_of_total_eq_some htotal
    rw [Option.map_some, ← hiff]
    constructor
    · intro hb
      obtain ⟨sum, hsum, hb⟩ := exists_of_bind_eq_ok hb
      obtain ⟨hnext, rfl⟩ := (Ratio.add_lowest_eq_ok hfits ht).mp hsum
      exact ⟨hnext, Except.ok.inj hb⟩
    · rintro ⟨hsum, hb⟩
      have hadd := (Ratio.add_lowest_eq_ok hfits ht).mpr ⟨hsum, rfl⟩
      simp only [hadd]
      exact congrArg Except.ok hb

/-- A further term leaves the sums of the other units alone. -/
theorem fits_sumOf_concat_iff (hfits : ∀ u, Fits (sumOf u terms)) (t : Term) :
    (∀ u, Fits (sumOf u (terms ++ [t]))) ↔ Fits (sumOf t.unit terms + t.literal.value) := by
  constructor
  · intro h
    have ht := h t.unit
    rwa [sumOf_concat, if_pos rfl] at ht
  · intro h u
    rw [sumOf_concat]
    by_cases hu : t.unit = u
    · rw [if_pos hu, ← hu]
      exact h
    · rw [if_neg hu, add_zero]
      exact hfits u

theorem forall_prefix_cons {α : Type} {p : List α → Prop} {x : α} {rest : List α} :
    (∀ front, front <+: x :: rest → p front) ↔
      p [] ∧ ∀ front, front <+: rest → p (x :: front) := by
  simp only [List.prefix_cons_iff, or_imp, forall_and, forall_eq, forall_exists_index, and_imp]
  constructor
  · rintro ⟨hnil, hcons⟩
    exact ⟨hnil, fun front hf => hcons _ front rfl hf⟩
  · rintro ⟨hnil, hcons⟩
    exact ⟨hnil, fun _ front heq hf => heq ▸ hcons front hf⟩

theorem addTerms_append (front back : List Term) (start : Amount) :
    addTerms (front ++ back) start = addTerms front start >>= addTerms back :=
  List.foldlM_append

/-- Further terms behind those whose totals are known. -/
theorem addTerms_eq_ok_of_hasTotals (h : HasTotals before start)
    (hfits : ∀ u, Fits (sumOf u before)) : addTerms terms start = .ok a ↔
      (∀ t ∈ terms, t.literal.Computable) ∧
      (∀ front, front <+: terms → ∀ u, Fits (sumOf u (before ++ front))) ∧
      HasTotals (before ++ terms) a := by
  induction terms generalizing before start with
  | nil =>
    rw [List.append_nil]
    constructor
    · intro ha
      obtain rfl := Except.ok.inj ha
      refine ⟨fun t ht => absurd ht List.not_mem_nil, fun front hf u => ?_, h⟩
      rw [List.prefix_nil.mp hf, List.append_nil]
      exact hfits u
    · rintro ⟨-, -, ha⟩
      exact congrArg Except.ok (h.eq ha)
  | cons t rest ih =>
    rw [List.forall_mem_cons, forall_prefix_cons, List.append_nil, List.append_cons]
    constructor
    · intro ha
      rw [addTerms, List.foldlM_cons] at ha
      obtain ⟨next, hstep, hrest⟩ := exists_of_bind_eq_ok ha
      obtain ⟨value, hvalue, hstep⟩ := exists_of_bind_eq_ok hstep
      obtain ⟨hliteral, rfl⟩ := Ratio.Literal.outcome_eq_ok.mp hvalue
      obtain ⟨hsum, htotals⟩ := (addTerm_eq_ok h (hfits t.unit) hliteral.fits).mp hstep
      have hnext := (fits_sumOf_concat_iff hfits t).mpr hsum
      obtain ⟨hliterals, hsums, ha⟩ := (ih htotals hnext).mp hrest
      refine ⟨⟨hliteral, hliterals⟩, ⟨hfits, fun front hf => ?_⟩, ha⟩
      rw [List.append_cons]
      exact hsums front hf
    · rintro ⟨⟨hliteral, hliterals⟩, ⟨-, hsums⟩, ha⟩
      have hnext : ∀ u, Fits (sumOf u (before ++ [t])) := hsums [] List.nil_prefix
      have hsums : ∀ front, front <+: rest → ∀ u, Fits (sumOf u (before ++ [t] ++ front)) :=
        fun front hf u => List.append_cons before t front ▸ hsums front hf u
      have hsum := (fits_sumOf_concat_iff hfits t).mp hnext
      have hstep := (addTerm_eq_ok h (hfits t.unit) hliteral.fits).mpr ⟨hsum, h.set t⟩
      have hvalue := Ratio.Literal.outcome_eq_ok.mpr ⟨hliteral, rfl⟩
      have hrest := (ih (h.set t) hnext).mpr ⟨hliterals, hsums, ha⟩
      rw [addTerms, List.foldlM_cons, hvalue]
      exact (congrArg (· >>= addTerms rest) hstep).trans hrest

/-- The sum of written terms exists exactly if all results on the way fit. -/
theorem addTerms_eq_ok : addTerms terms {} = .ok a ↔ Computable terms ∧ HasTotals terms a := by
  have hzero : ∀ u, Fits (sumOf u []) := fun u => (by decide : Fits 0)
  rw [addTerms_eq_ok_of_hasTotals hasTotals_nil hzero]
  constructor
  · rintro ⟨hliterals, hsums, ha⟩
    exact ⟨⟨hliterals, hsums⟩, ha⟩
  · rintro ⟨h, ha⟩
    exact ⟨h.literals, h.sums, ha⟩

theorem HasTotals.isEmpty_eq_false (h : HasTotals terms a) : a.isEmpty = false ↔ terms ≠ [] := by
  rw [← Bool.not_eq_true, isEmpty_eq_true, not_iff_not]
  constructor
  · intro hnone
    rcases terms.eq_nil_or_concat with hnil | ⟨front, t, hconcat⟩
    · exact hnil
    · have ht := h t.unit
      rw [hnone, hconcat, List.concat_eq_append, total_concat, if_pos rfl] at ht
      cases ht
  · rintro rfl u
    exact h u

end Toolpath.Amount
