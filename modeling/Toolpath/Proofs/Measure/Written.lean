import Mathlib.Data.Int.GCD
import Toolpath.Measure.Amount.Literal
import Toolpath.Proofs.Decimal.Digits
import Toolpath.Proofs.Outcome
import Toolpath.Proofs.Text.Pieces

/-!
Written fractions and amounts read back. A fraction in lowest terms is written with digits, a sign
and a slash only, so that nothing in it is taken for a unit or for the next term.
-/
namespace Toolpath
open Decimal Text

namespace Ratio

/-- The characters that fractions are written with. -/
def letters : List Char := "-/0123456789".toList

theorem mem_letters_of_isDigit {c : Char} (h : c.isDigit) : c ∈ letters :=
  List.mem_cons_of_mem '-' (List.mem_cons_of_mem '/' (mem_digits_of_isDigit h))

theorem mem_letters_of_intRepr {n : Int} {c : Char} (h : c ∈ (Int.repr n).toList) :
    c ∈ letters ∧ c ≠ '/' := by
  rcases isDigit_of_mem_intRepr h with rfl | hdigit
  · decide
  · exact ⟨mem_letters_of_isDigit hdigit, fun hc => by simp [hc] at hdigit⟩

theorem mem_letters_of_toString {a : Ratio} {c : Char} (h : c ∈ a.toString.toList) :
    c ∈ letters := by
  unfold toString at h
  split at h
  · exact (mem_letters_of_intRepr h).1
  · simp only [String.toList_append, List.mem_append, Nat.toList_repr] at h
    rcases h with (h | h) | h
    · exact (mem_letters_of_intRepr h).1
    · rw [List.mem_singleton.mp h]
      decide
    · exact mem_letters_of_isDigit (isDigit_of_mem_toDigits h)

theorem toString_ne_nil (a : Ratio) : a.toString.toList ≠ [] := by
  unfold toString
  split
  · exact intRepr_ne_nil _
  · rw [String.toList_append, String.toList_append, List.append_assoc]
    exact List.append_ne_nil_of_left_ne_nil (intRepr_ne_nil _) _

theorem isBlank_of_mem_letters : ∀ c ∈ letters, isBlank c = false := by
  have hall : letters.all (!isBlank ·) := by decide
  simpa using hall

theorem ne_plus_of_mem_letters : ∀ c ∈ letters, c ≠ '+' := by
  have hall : letters.all (· != '+') := by decide
  simpa using hall

/-! ### Reading -/

theorem ofDigits_toDigits (n : Nat) : ofDigits (Nat.toDigits 10 n) = n :=
  Nat.ofDigitChars_ten_toDigits

theorem areDigits_toDigits (n : Nat) : areDigits (Nat.toDigits 10 n) := by
  have hne : (Nat.toDigits 10 n).isEmpty = false :=
    List.isEmpty_eq_false_iff.mpr Nat.toDigits_ne_nil
  have hall : (Nat.toDigits 10 n).all Char.isDigit :=
    List.all_eq_true.mpr fun _ => isDigit_of_mem_toDigits
  rw [areDigits, hne, hall]
  rfl

/-- Parts without a common factor are not reduced any further. -/
theorem reduce_of_canonical {a : Ratio} (h : Canonical a) : reduce a.num a.den = .ok a := by
  have hpos : ¬ (a.den : Int) = 0 := by exact_mod_cast h.pos.ne'
  have hneg : ¬ (a.den : Int) < 0 := by omega
  have hgcd : Int.gcd a.num a.den = 1 := h.coprime
  have hrange : InRange a.num ∧ InRange a.den := ⟨h.num_inRange, h.den_inRange⟩
  rw [reduce, if_neg hpos]
  simp [hneg, hgcd, hrange]

instance (a : Ratio) : Decidable (Canonical a) :=
  decidable_of_iff (0 < a.den ∧ a.num.natAbs.gcd a.den = 1 ∧ InRange a.num ∧ InRange a.den)
    ⟨fun ⟨h, h', hn, hd⟩ => ⟨h, h', hn, hd⟩,
      fun h => ⟨h.pos, h.coprime, h.num_inRange, h.den_inRange⟩⟩

theorem canonical_ofInt {n : Int} (h : InRange n) : Canonical (ofInt n) where
  pos := Nat.one_pos
  coprime := Nat.gcd_one_right _
  num_inRange := h
  den_inRange := (by decide : InRange 1)

theorem readDecimal_intRepr {n : Int} (h : InRange n) :
    readDecimal (Int.repr n).toList = some (.ok (ofInt n)) := by
  have hsign : splitSign (Int.repr n).toList = (decide (n < 0), Nat.toDigits 10 n.natAbs) := by
    rw [toList_intRepr]
    by_cases hn : n < 0
    · simp [hn, splitSign]
    · obtain ⟨c, r, hc⟩ :=
        List.exists_cons_of_ne_nil (Nat.toDigits_ne_nil (n := n.natAbs) (b := 10))
      have hdigit : c.isDigit := isDigit_of_mem_toDigits (hc ▸ List.mem_cons_self)
      simp only [hn, if_false, List.nil_append, decide_false, hc]
      unfold splitSign
      split <;> simp_all
  have hpoint : splitPoint (Nat.toDigits 10 n.natAbs) = (Nat.toDigits 10 n.natAbs, none) := by
    have hnone : splitFirst '.' (Nat.toDigits 10 n.natAbs) = none :=
      splitFirst_eq_none.mpr fun hmem => by
        simpa using isDigit_of_mem_toDigits hmem
    rw [splitPoint, hnone]
  have hsmall : ¬ 0x80000000000000000000000000000000 ≤ n.natAbs := by
    have := h.1
    have := h.2
    omega
  have hvalue : (if decide (n < 0) then -(n.natAbs : Int) else n.natAbs) = n := by
    by_cases hn : n < 0
    · rw [decide_eq_true hn, if_pos rfl]
      omega
    · rw [decide_eq_false hn, if_neg Bool.false_ne_true]
      omega
  have hreduce := reduce_of_canonical (canonical_ofInt h)
  unfold readDecimal ofDecimal
  simp only [hsign, hpoint, areDigits_toDigits, Option.all_none, Bool.and_self, if_true,
    Option.getD_none, List.append_nil, List.length_nil, ofDigits_toDigits, hsmall, hvalue]
  exact congrArg some hreduce

/-- A text without `+` and white space is a quotient or a decimal. -/
theorem splitSum_trim {s : List Char} (h : ∀ c ∈ s, c ∈ letters) :
    trim s = s ∧ splitSum s = none := by
  refine ⟨trim_of_forall fun c hc => isBlank_of_mem_letters c (h c hc), ?_⟩
  cases s with
  | nil => rfl
  | cons c r =>
    have hplus : splitFirst '+' r = none := splitFirst_eq_none.mpr fun hmem =>
      ne_plus_of_mem_letters _ (h _ (List.mem_cons_of_mem _ hmem)) rfl
    rw [splitSum, hplus, Option.map_none]

theorem read_eq (s : List Char) : read s =
    match splitSum (trim s) with
    | some (a, b) => do (← read a).add (← read b)
    | none => match splitLast '/' (trim s) with
      | some (a, b) => do (← read a).div (← read b)
      | none => (readDecimal (trim s)).getD (.error (.malformedNumber (String.ofList s))) := by
  rw [read]
  split
  · next hsum => rw [hsum]
  · next hsum =>
    rw [hsum]
    split
    · next hslash => simp only [hslash]
    · next hslash => simp only [hslash]

theorem read_intRepr {n : Int} (h : InRange n) : read (Int.repr n).toList = .ok (ofInt n) := by
  obtain ⟨htrim, hsum⟩ := splitSum_trim fun c hc => (mem_letters_of_intRepr (n := n) hc).1
  have hslash : splitLast '/' (Int.repr n).toList = none :=
    splitLast_eq_none.mpr fun hmem => (mem_letters_of_intRepr hmem).2 rfl
  rw [read_eq]
  simp only [htrim, hsum, hslash, readDecimal_intRepr h, Option.getD_some]

theorem div_ofInt (n d : Int) : (ofInt n).div (ofInt d) = reduce n d := by
  simp [div, ofInt]

/-- Every fraction in lowest terms reads back from what is written for it. -/
theorem read_toString {a : Ratio} (h : Canonical a) : read a.toString.toList = .ok a := by
  by_cases hden : a.den = 1
  · have ha : ofInt a.num = a := by rw [ofInt, ← hden]
    rw [toString, if_pos hden, read_intRepr h.num_inRange, ha]
  · have htext : a.toString.toList =
        (Int.repr a.num).toList ++ '/' :: (Int.repr a.den).toList := by
      rw [toString, if_neg hden, String.toList_append, String.toList_append]
      simp [Int.repr]
    obtain ⟨htrim, hsum⟩ := splitSum_trim fun c hc => mem_letters_of_toString (a := a) hc
    have hslash : splitLast '/' a.toString.toList =
        some ((Int.repr a.num).toList, (Int.repr a.den).toList) := by
      rw [htext]
      exact splitLast_append fun hmem => (mem_letters_of_intRepr hmem).2 rfl
    rw [read_eq]
    simp only [htrim, hsum, hslash]
    rw [read_intRepr h.num_inRange, read_intRepr h.den_inRange]
    exact (div_ofInt _ _).trans (reduce_of_canonical h)

/-- Fractions in lowest terms read back, so that no two of them are written alike. -/
theorem parse_toString_of_canonical {a : Ratio} (h : a.Canonical) :
    parse a.toString = .ok a ∧ ∀ b : Ratio, b.Canonical → a ≠ b → a.toString ≠ b.toString := by
  refine ⟨read_toString h, fun b hb hne htext => hne ?_⟩
  have hread : (.ok a : Except MeasureError Ratio) = .ok b := by
    rw [← read_toString h, ← read_toString hb, htext]
  exact Except.ok.inj hread

theorem parse_toString_of_canonical_least :
    parse (toString ⟨-0x8000000000000000, 0x7fffffffffffffff⟩) =
        .ok ⟨-0x8000000000000000, 0x7fffffffffffffff⟩ ∧
      toString ⟨-0x8000000000000000, 0x7fffffffffffffff⟩ ≠ toString ⟨-0x8000000000000000, 1⟩ := by
  have hleast : Canonical ⟨-0x8000000000000000, 0x7fffffffffffffff⟩ := by decide
  obtain ⟨hread, hne⟩ := parse_toString_of_canonical hleast
  exact ⟨hread, hne _ (by decide) (by decide)⟩

end Ratio

namespace Amount

/-- An amount with at least one term, all fractions being in lowest terms. -/
structure Readable (a : Amount) : Prop where
  nonempty : a.isEmpty = false
  canonical : ∀ t ∈ a.terms, t.2.Canonical

instance (a : Amount) : Decidable a.Readable :=
  decidable_of_iff (a.isEmpty = false ∧ ∀ t ∈ a.terms, t.2.Canonical)
    ⟨fun ⟨h, h'⟩ => ⟨h, h'⟩, fun h => ⟨h.nonempty, h.canonical⟩⟩

/-- How a term is written. -/
def termText (t : UnitName × Ratio) : List Char :=
  t.2.toString.toList ++ t.1.abbreviation.toList

theorem toList_toString (a : Amount) :
    a.toString.toList = ['+'].intercalate (a.terms.map termText) := by
  rw [toString, String.toList_intercalate, List.map_map]
  refine congrArg _ (List.map_congr_left fun t _ => ?_)
  rw [Function.comp_apply, String.toList_append, termText]

theorem not_startsUnit_of_mem_letters : ∀ c ∈ Ratio.letters, startsUnit c = false := by
  have hall : Ratio.letters.all (!startsUnit ·) := by decide
  simpa using hall

theorem splitUnit_termText (t : UnitName × Ratio) :
    splitUnit (termText t) = (t.2.toString.toList, t.1.abbreviation.toList) := by
  have hnumber : ∀ c ∈ t.2.toString.toList, (!startsUnit c) = true := fun c hc => by
    rw [not_startsUnit_of_mem_letters c (Ratio.mem_letters_of_toString hc), Bool.not_false]
  have hunit : t.1.abbreviation.toList.takeWhile (!startsUnit ·) = [] ∧
      t.1.abbreviation.toList.dropWhile (!startsUnit ·) = t.1.abbreviation.toList := by
    cases t.1 <;> decide
  rw [splitUnit, termText, List.takeWhile_append_of_pos hnumber,
    List.dropWhile_append_of_pos hnumber, hunit.1, hunit.2, List.append_nil]

theorem not_isBlank_of_mem_termText {t : UnitName × Ratio} {c : Char} (h : c ∈ termText t) :
    isBlank c = false ∧ c ≠ '+' := by
  rcases List.mem_append.mp h with h | h
  · have hc := Ratio.mem_letters_of_toString h
    exact ⟨Ratio.isBlank_of_mem_letters c hc, Ratio.ne_plus_of_mem_letters c hc⟩
  · have hall : t.1.abbreviation.toList.all fun c => !isBlank c && c != '+' := by
      cases t.1 <;> decide
    simpa using List.all_eq_true.mp hall c h

theorem new_abbreviation (u : UnitName) (value : Ratio) :
    Amount.new (String.ofList (trim u.abbreviation.toList)) value = .ok (single u value) := by
  cases u <;> rfl

theorem add_single (a : Amount) (u : UnitName) (value : Ratio) :
    a.add (single u value) = a.addTerm u value := by
  cases u <;> exact bind_pure _

/-- Reading written terms adds them one by one. -/
theorem readTerms_termText {malformed : MeasureError} {terms : List (UnitName × Ratio)}
    (hc : ∀ t ∈ terms, t.2.Canonical) {start a : Amount}
    (h : terms.foldlM (fun sum (u, value) => sum.addTerm u value) start = .ok a)
    (ha : a.isEmpty = false) : readTerms malformed (terms.map termText) [] start = .ok a := by
  induction terms generalizing start with
  | nil =>
    obtain rfl := Except.ok.inj h
    simp [readTerms, ha]
  | cons t rest ih =>
    obtain ⟨ht, hrest⟩ := List.forall_mem_cons.mp hc
    rw [List.foldlM_cons] at h
    obtain ⟨next, hstep, h⟩ := exists_of_bind_eq_ok h
    have htrim : trim (termText t) = termText t :=
      trim_of_forall fun c hc => (not_isBlank_of_mem_termText hc).1
    have hnumber : trim t.2.toString.toList = t.2.toString.toList :=
      trim_of_forall fun c hc => Ratio.isBlank_of_mem_letters c (Ratio.mem_letters_of_toString hc)
    have hnonempty : t.2.toString.toList.isEmpty = false :=
      List.isEmpty_eq_false_iff.mpr (Ratio.toString_ne_nil _)
    have hunit : t.1.abbreviation.toList.isEmpty = false := by cases t.1 <;> rfl
    rw [List.map_cons, readTerms, htrim, splitUnit_termText]
    simp only [hunit, hnumber, hnonempty, List.isEmpty_nil, if_true, List.nil_append,
      Bool.false_eq_true, if_false, Ratio.read_toString ht, new_abbreviation]
    refine Eq.trans ?_ (ih hrest h)
    have hadd : start.add (single t.1 t.2) = .ok next := (add_single _ _ _).trans hstep
    exact congrArg (· >>= readTerms malformed (rest.map termText) []) hadd

theorem empty_add (a : Amount) : ({} : Amount).add a = .ok a := by
  obtain ⟨board, inch, millimeter⟩ := a
  cases board <;> cases inch <;> cases millimeter <;> rfl

/-- Every amount that has terms reads back from what is written for it. -/
theorem read_toString {a : Amount} (h : a.Readable) : read a.toString.toList = .ok a := by
  have htrim : trim a.toString.toList = a.toString.toList := by
    refine trim_of_forall fun c hc => ?_
    rw [toList_toString] at hc
    rcases mem_intercalate hc with rfl | ⟨p, hp, hc⟩
    · rfl
    · obtain ⟨t, -, rfl⟩ := List.mem_map.mp hp
      exact (not_isBlank_of_mem_termText hc).1
  have hne : a.terms.map termText ≠ [] := fun hnil => by
    simpa [isEmpty, List.map_eq_nil_iff.mp hnil] using h.nonempty
  have hsplit : splitAll '+' a.toString.toList = a.terms.map termText := by
    rw [toList_toString]
    refine splitAll_intercalate hne fun p hp hplus => ?_
    obtain ⟨t, -, rfl⟩ := List.mem_map.mp hp
    exact (not_isBlank_of_mem_termText hplus).2 rfl
  rw [read, htrim, hsplit]
  exact readTerms_termText h.canonical (empty_add a) h.nonempty

/-- Amounts with terms in lowest terms read back, whatever their units, signs and sizes. -/
theorem parse_toString_of_readable {a : Amount} (h : a.Readable) : parse a.toString = .ok a :=
  read_toString h

theorem parse_toString_of_readable_mixed :
    let a : Amount := ⟨some ⟨-0x8000000000000000, 0x7fffffffffffffff⟩, some 0, some ⟨-1, 2⟩⟩
    parse a.toString = .ok a := by
  have hreadable : Readable
      ⟨some ⟨-0x8000000000000000, 0x7fffffffffffffff⟩, some 0, some ⟨-1, 2⟩⟩ := by decide
  exact parse_toString_of_readable hreadable

end Amount
end Toolpath
