import Mathlib.Data.List.ReduceOption
import Mathlib.Data.List.TakeWhile
import Toolpath.Measure.Amount.Literal
import Toolpath.Proofs.Measure.Total

/-!
The grammar of written amounts. A text is read as an amount exactly if it is made of items joined by
`+`, each a term or nothing at all, and what is read has the total of each unit.
-/
namespace Toolpath.Amount
open Text

/-- The text without white space at its ends and around each `+`. -/
def tidy (s : List Char) : List Char := ['+'].intercalate ((splitAll '+' (trim s)).map trim)

/-- A term is written as its fraction with the name of the unit behind it. -/
def Term.Written (t : Term) (s : List Char) : Prop :=
  ∃ number, t.literal.Written number ∧ s = number ++ t.name.toList

/-- An item is a term, or nothing where a term is missing. -/
def ItemWritten : Option Term → List Char → Prop
  | some t, s => t.Written s
  | none, s => s = []

/-- One or more items with `+` between them. -/
inductive Written : List (Option Term) → List Char → Prop
  | last {item : Option Term} {s : List Char} (h : ItemWritten item s) : Written [item] s
  | more {item : Option Term} {items : List (Option Term)} {s t : List Char}
    (h : ItemWritten item s) (ht : Written items t) : Written (item :: items) (s ++ '+' :: t)

/-- A piece behind the pieces that wait for a unit. -/
def glue (pending s : List Char) : List Char :=
  if pending.isEmpty then s else pending ++ '+' :: s

variable {m : MeasureError} {t : Term} {items : List (Option Term)} {p pending s : List Char}
  {ps : List (List Char)} {amount a : Amount}

theorem glue_append (pending s r : List Char) : glue pending (s ++ r) = glue pending s ++ r := by
  unfold glue
  split <;> simp

theorem glue_of_ne_nil (h : pending ≠ []) (s : List Char) : glue pending s = pending ++ '+' :: s :=
  if_neg (by simpa using h)

theorem glue_ne_nil (h : pending ≠ [] ∨ s ≠ []) : glue pending s ≠ [] := by
  by_cases hnil : pending = []
  · subst hnil
    exact h.resolve_left (not_not_intro rfl)
  · simp [glue_of_ne_nil hnil]

/-- Two pieces that wait, one behind the other. -/
theorem glue_glue (h : glue pending p ≠ []) (s : List Char) :
    glue (glue pending p) s = glue pending (p ++ '+' :: s) := by
  rw [glue_of_ne_nil h, glue_append]

/-! ### One piece -/

theorem splitUnit_append (s : List Char) : (splitUnit s).1 ++ (splitUnit s).2 = s :=
  List.takeWhile_append_dropWhile

theorem readTerms_cons (p : List Char) (ps : List (List Char)) (pending : List Char)
    (amount : Amount) : readTerms m (p :: ps) pending amount =
      if (splitUnit (trim p)).2.isEmpty then
        readTerms m ps (glue pending (splitUnit (trim p)).1) amount
      else if (trim (splitUnit (trim p)).1).isEmpty then .error m
      else (do
        let value ← Ratio.read (glue pending (splitUnit (trim p)).1)
        let term ← Amount.new (String.ofList (trim (splitUnit (trim p)).2)) value
        readTerms m ps [] (← amount.add term)) := by
  have hglue : ∀ s, (if pending.isEmpty then [] else pending ++ ['+']) ++ s = glue pending s := by
    intro s
    unfold glue
    split <;> simp
  rw [readTerms]
  simp only [hglue]

/-- A piece without a unit waits for the next one. -/
theorem readTerms_of_number (h : (splitUnit (trim p)).2 = []) :
    readTerms m (p :: ps) pending amount = readTerms m ps (glue pending (trim p)) amount := by
  have hnumber : (splitUnit (trim p)).1 = trim p := by
    simpa [h] using splitUnit_append (trim p)
  rw [readTerms_cons, h, List.isEmpty_nil, if_pos rfl, hnumber]

/-! ### Names of units -/

theorem ofAlias?_eq_some {name : String} {u : UnitName} :
    UnitName.ofAlias? name = some u ↔ name ∈ u.aliases := by
  constructor
  · intro h
    have hcontains : u.aliases.contains name := by simpa using List.find?_some h
    exact List.contains_iff_mem.mp hcontains
  · revert name
    cases u <;> decide

/-- A name starts as units do, and has neither white space nor a `+`. -/
theorem Term.name_letters (t : Term) : (∃ c r, t.name.toList = c :: r ∧ startsUnit c) ∧
    ∀ c ∈ t.name.toList, isBlank c = false ∧ c ≠ '+' := by
  have hall : ∀ name ∈ t.unit.aliases, name.toList.head?.any startsUnit ∧
      name.toList.all fun c => !isBlank c && c != '+' := by
    cases t.unit <;> decide
  obtain ⟨hstart, hplain⟩ := hall t.name t.name_mem
  obtain ⟨c, hc, hc'⟩ := (Option.any_eq_true _ _).mp hstart
  obtain ⟨r, hr⟩ := List.head?_eq_some_iff.mp hc
  exact ⟨⟨c, r, hr, hc'⟩, by simpa using hplain⟩

theorem startsUnit_of_splitUnit {c : Char} {r : List Char} (h : (splitUnit s).2 = c :: r) :
    startsUnit c := by
  have hc := List.head?_dropWhile_not (!startsUnit ·) s
  have hdrop : s.dropWhile (!startsUnit ·) = c :: r := h
  rw [hdrop] at hc
  simpa using hc

/-- No white space starts a unit. -/
theorem not_startsUnit_of_isBlank {c : Char} (h : isBlank c) : startsUnit c = false := by
  have hall : ∀ n ∈ [9, 10, 11, 12, 13, 0x20, 0x85, 0xa0, 0x1680, 0x2000, 0x2001, 0x2002, 0x2003,
      0x2004, 0x2005, 0x2006, 0x2007, 0x2008, 0x2009, 0x200a, 0x2028, 0x2029, 0x202f, 0x205f,
      0x3000], startsUnit (Char.ofNat n) = false := by decide +kernel
  have hmem := hall c.toNat
  rw [Char.ofNat_toNat] at hmem
  refine hmem ?_
  simp only [isBlank, Bool.or_eq_true, Bool.and_eq_true, decide_eq_true_eq, beq_iff_eq] at h
  simp only [List.mem_cons, List.not_mem_nil, or_false]
  omega

/-- No unit starts within a fraction. -/
theorem not_startsUnit_of_written {l : Ratio.Literal} (h : l.Written s) :
    ∀ c ∈ s, startsUnit c = false := by
  intro c hc
  rcases h.of_mem hc with hblank | hmem
  · exact not_startsUnit_of_isBlank hblank
  · rcases List.mem_cons.mp hmem with rfl | hmem
    · decide
    · rcases List.mem_cons.mp hmem with rfl | hmem
      · decide
      · exact not_startsUnit_of_mem_letters c hmem

/-- What stands behind the number of a piece has no white space at its ends. -/
theorem trim_unit (p : List Char) : trim (splitUnit (trim p)).2 = (splitUnit (trim p)).2 := by
  cases hunit : (splitUnit (trim p)).2 with
  | nil => rfl
  | cons c r =>
    have hc : isBlank c = false := by
      have hstart := startsUnit_of_splitUnit hunit
      by_contra hblank
      rw [not_startsUnit_of_isBlank (by simpa using hblank)] at hstart
      cases hstart
    have hend := trimEnd_trim p
    rw [← splitUnit_append (trim p), hunit, trimEnd_append_cons hc] at hend
    have hr := (List.cons.inj (List.append_cancel_left hend)).2
    have hsplit := trim_append_cons hc [] r
    rw [List.nil_append, hr] at hsplit
    exact hsplit

/-! ### Whatever is read is written so -/

/-- A piece with a unit ends a term. -/
theorem exists_term_of_readTerms (hunit : (splitUnit (trim p)).2 ≠ [])
    (h : readTerms m (p :: ps) pending amount = .ok a) :
    (∃ t : Term, t.Written (glue pending (trim p))) ∧ ∃ next, readTerms m ps [] next = .ok a := by
  rw [readTerms_cons, if_neg (by simpa using hunit)] at h
  by_cases hnumber : (trim (splitUnit (trim p)).1).isEmpty
  · rw [if_pos hnumber] at h
    cases h
  rw [if_neg hnumber] at h
  obtain ⟨value, hvalue, hrest⟩ := exists_of_bind_eq_ok h
  obtain ⟨term, hterm, hrest⟩ := exists_of_bind_eq_ok hrest
  obtain ⟨next, -, hdone⟩ := exists_of_bind_eq_ok hrest
  obtain ⟨l, hl⟩ := Ratio.exists_written_of_read hvalue
  rw [trim_unit, Amount.new] at hterm
  cases hu : UnitName.ofAlias? (String.ofList (splitUnit (trim p)).2) with
  | none =>
    rw [hu] at hterm
    cases hterm
  | some u =>
    refine ⟨⟨⟨l, u, _, ofAlias?_eq_some.mp hu⟩, _, hl, ?_⟩, next, hdone⟩
    rw [String.toList_ofList, ← glue_append, splitUnit_append]

theorem exists_written_of_readTerms (h : readTerms m (p :: ps) pending amount = .ok a) :
    ∃ items, Written items (glue pending (['+'].intercalate ((p :: ps).map trim))) := by
  induction ps generalizing p pending amount with
  | nil =>
    rw [List.map_cons, List.map_nil, List.intercalate_singleton]
    by_cases hunit : (splitUnit (trim p)).2 = []
    · rw [readTerms_of_number hunit, readTerms] at h
      split at h
      · cases h
      · next hdone =>
        obtain ⟨hglue, -⟩ := by simpa using hdone
        exact ⟨[none], .last hglue⟩
    · obtain ⟨⟨t, ht⟩, -⟩ := exists_term_of_readTerms hunit h
      exact ⟨[some t], .last ht⟩
  | cons q qs ih =>
    have hinter : ['+'].intercalate ((p :: q :: qs).map trim) =
        trim p ++ '+' :: ['+'].intercalate ((q :: qs).map trim) := by
      simp [List.intercalate_cons_cons]
    rw [hinter, glue_append]
    by_cases hunit : (splitUnit (trim p)).2 = []
    · rw [readTerms_of_number hunit] at h
      obtain ⟨items, hitems⟩ := ih h
      by_cases hnil : glue pending (trim p) = []
      · rw [hnil] at hitems
        exact ⟨none :: items, .more hnil hitems⟩
      · rw [glue_of_ne_nil hnil] at hitems
        exact ⟨items, hitems⟩
    · obtain ⟨⟨t, ht⟩, next, h⟩ := exists_term_of_readTerms hunit h
      obtain ⟨items, hitems⟩ := ih h
      exact ⟨some t :: items, .more ht hitems⟩

/-! ### Whatever is written so is read -/

/-- A piece with a unit reads the fraction that waited for it. -/
theorem readTerms_of_unit {number : List Char} (hp : trim p = number ++ t.name.toList)
    (hnumber : ∀ c ∈ number, startsUnit c = false) (hblank : trim number ≠ []) :
    readTerms m (p :: ps) pending amount = (do
      let value ← Ratio.read (glue pending number)
      readTerms m ps [] (← amount.addTerm t.unit value)) := by
  obtain ⟨⟨c, r, hname, hc⟩, -⟩ := t.name_letters
  have hsplit : splitUnit (trim p) = (number, t.name.toList) := by
    have hpos : ∀ c ∈ number, (!startsUnit c) = true := fun c hc => by simp [hnumber c hc]
    rw [hp, splitUnit, List.takeWhile_append_of_pos hpos, List.dropWhile_append_of_pos hpos, hname,
      List.takeWhile_cons_of_neg (by simp [hc]), List.dropWhile_cons_of_neg (by simp [hc]),
      List.append_nil]
  have hunit : trim t.name.toList = t.name.toList := by
    simpa [hsplit] using trim_unit p
  have hnew : ∀ value, Amount.new (String.ofList (trim t.name.toList)) value =
      .ok (single t.unit value) := by
    intro value
    rw [hunit, String.ofList_toList, Amount.new, ofAlias?_eq_some.mpr t.name_mem]
  rw [readTerms_cons, hsplit, if_neg (by simp [hname]), if_neg (by simpa using hblank)]
  simp only [hnew]
  refine congrArg (Ratio.read (glue pending number) >>= ·) (funext fun value => ?_)
  exact congrArg (· >>= readTerms m ps []) (add_single amount t.unit value)

/-- The pieces of a number wait until the last of them comes with the unit. -/
theorem readTerms_of_pieces {front : List (List Char)} {q : List Char}
    (hfront : ∀ p ∈ front, trim p = p) (hlast : trim (q ++ t.name.toList) = q ++ t.name.toList)
    (hnumber : ∀ p ∈ front ++ [q], ∀ c ∈ p, startsUnit c = false) (hblank : trim q ≠ [])
    (hhead : pending ≠ [] ∨ (front ++ [q]).head? ≠ some []) :
    readTerms m (front ++ (q ++ t.name.toList) :: ps) pending amount = (do
      let value ← Ratio.read (glue pending (['+'].intercalate (front ++ [q])))
      readTerms m ps [] (← amount.addTerm t.unit value)) := by
  induction front generalizing pending with
  | nil =>
    have hq := hnumber q (by simp)
    rw [List.nil_append, List.nil_append, List.intercalate_singleton]
    exact readTerms_of_unit hlast hq hblank
  | cons p front ih =>
    obtain ⟨hp, hfront⟩ := List.forall_mem_cons.mp hfront
    obtain ⟨hplain, hnumber⟩ := List.forall_mem_cons.mp hnumber
    have hunit : (splitUnit (trim p)).2 = [] := by
      rw [hp]
      exact List.dropWhile_eq_nil_iff.mpr fun c hc => by simp [hplain c hc]
    have hglue : glue pending p ≠ [] :=
      glue_ne_nil (hhead.imp_right fun hp hnil => hp (congrArg some hnil))
    have hinter : ['+'].intercalate (p :: front ++ [q]) =
        p ++ '+' :: ['+'].intercalate (front ++ [q]) := by
      cases front <;> simp [List.intercalate_cons_cons, List.intercalate_singleton]
    rw [List.cons_append, readTerms_of_number hunit, hp, ih hfront hnumber (.inl hglue), hinter,
      glue_glue hglue]

/-- A term is read and added where its text does not start with a `+`. -/
theorem readTerms_of_literal {l : Ratio.Literal} {number : List Char} (hl : l.Written number)
    (hhead : number.head? ≠ some '+')
    (htrim : ∀ p ∈ splitAll '+' (number ++ t.name.toList), trim p = p) :
    readTerms m (splitAll '+' (number ++ t.name.toList) ++ ps) [] amount = (do
      let value ← l.outcome
      readTerms m ps [] (← amount.addTerm t.unit value)) := by
  obtain ⟨-, hname⟩ := t.name_letters
  obtain ⟨front, q, hsplit, happend⟩ :=
    exists_splitAll_append (fun hplus => (hname _ hplus).2 rfl) number
  rw [happend] at htrim ⊢
  obtain ⟨hfront, hlast⟩ := List.forall_mem_append.mp htrim
  have hplain : ∀ p ∈ front ++ [q], ∀ c ∈ p, startsUnit c = false := fun p hp c hc =>
    not_startsUnit_of_written hl c ((of_mem_splitAll (hsplit ▸ hp)).2 hc)
  have hblank : trim q ≠ [] := by
    have hq : (splitAll '+' number).getLast? = some q := by simp [hsplit]
    obtain ⟨d, hd, hdigit⟩ : ∃ d ∈ q, isBlank d = false := by
      rcases eq_or_exists_of_getLast?_splitAll hq with rfl | ⟨x, rfl⟩
      · exact hl.exists_mem
      · exact hl.exists_mem_after_plus
    exact List.ne_nil_of_mem (mem_trim hd hdigit)
  have hfirst : (front ++ [q]).head? ≠ some [] := by
    obtain ⟨d, hd, -⟩ := hl.exists_mem
    obtain ⟨c, r, rfl⟩ := List.exists_cons_of_ne_nil (List.ne_nil_of_mem hd)
    rw [← hsplit]
    exact head?_splitAll_cons (fun hc => hhead (congrArg some hc)) r
  rw [List.append_assoc, List.singleton_append,
    readTerms_of_pieces hfront (hlast _ List.mem_cons_self) hplain hblank (.inr hfirst), ← hsplit,
    intercalate_splitAll, ← hl.read_eq]
  rfl

theorem addTerms_singleton (t : Term) (amount : Amount) : addTerms [t] amount = (do
    amount.addTerm t.unit (← t.literal.outcome)) := by
  rw [addTerms, List.foldlM_cons]
  exact bind_pure _

theorem readTerms_nil_cons : readTerms m ([] :: ps) [] amount = readTerms m ps [] amount :=
  readTerms_of_number rfl

theorem readTerms_of_term (ht : t.Written s) (htrim : ∀ p ∈ splitAll '+' s, trim p = p) :
    readTerms m (splitAll '+' s ++ ps) [] amount =
      addTerms [t] amount >>= readTerms m ps [] := by
  obtain ⟨number, hl, rfl⟩ := ht
  rw [addTerms_singleton, bind_assoc]
  by_cases hhead : number.head? = some '+'
  · obtain ⟨r, rfl⟩ := List.head?_eq_some_iff.mp hhead
    obtain ⟨l', hl', hout, hr⟩ := hl.of_plus
    have hsplit : splitAll '+' ('+' :: r ++ t.name.toList) = [] :: splitAll '+' (r ++ t.name.toList) :=
      splitAll_append List.not_mem_nil
    rw [hsplit] at htrim ⊢
    rw [List.cons_append, readTerms_nil_cons, ← hout]
    exact readTerms_of_literal hl' hr (List.forall_mem_cons.mp htrim).2
  · exact readTerms_of_literal hl hhead htrim

theorem readTerms_of_item {item : Option Term} (h : ItemWritten item s)
    (htrim : ∀ p ∈ splitAll '+' s, trim p = p) :
    readTerms m (splitAll '+' s ++ ps) [] amount =
      addTerms [item].reduceOption amount >>= readTerms m ps [] := by
  cases item with
  | none =>
    obtain rfl : s = [] := h
    exact readTerms_nil_cons
  | some t => exact readTerms_of_term h htrim

/-- Reading items adds the terms among them. -/
theorem readTerms_of_written (h : Written items s) (htrim : ∀ p ∈ splitAll '+' s, trim p = p) :
    readTerms m (splitAll '+' s ++ ps) [] amount =
      addTerms items.reduceOption amount >>= readTerms m ps [] := by
  induction h generalizing amount ps with
  | last h => exact readTerms_of_item h htrim
  | @more item items x y h _ ih =>
    rw [splitAll_append_splitAll] at htrim ⊢
    obtain ⟨hx, hy⟩ := List.forall_mem_append.mp htrim
    have hcons : (item :: items).reduceOption = [item].reduceOption ++ items.reduceOption :=
      List.reduceOption_append [item] items
    rw [List.append_assoc, readTerms_of_item h hx, hcons, addTerms_append, bind_assoc]
    exact congrArg (addTerms [item].reduceOption amount >>= ·) (funext fun next => ih hy)

/-! ### Texts -/

theorem readTerms_map_trim : readTerms m (ps.map trim) pending amount =
    readTerms m ps pending amount := by
  induction ps generalizing pending amount with
  | nil => rfl
  | cons p ps ih =>
    rw [List.map_cons, readTerms_cons, readTerms_cons, trim_trim]
    simp only [ih]

theorem splitAll_tidy (s : List Char) :
    splitAll '+' (tidy s) = (splitAll '+' (trim s)).map trim := by
  refine splitAll_intercalate (by simpa using splitAll_ne_nil _) fun p hp hplus => ?_
  obtain ⟨q, hq, rfl⟩ := List.mem_map.mp hp
  exact (of_mem_splitAll hq).1 (mem_of_mem_trim hplus)

theorem exists_written_of_read (h : read s = .ok a) : ∃ items, Written items (tidy s) := by
  obtain ⟨p, ps, hsplit⟩ := exists_splitAll_eq_cons '+' (trim s)
  rw [read, hsplit] at h
  have hwritten := exists_written_of_readTerms h
  rwa [← hsplit] at hwritten

/-- A text of the grammar has the sum of its terms, of which there must be one. -/
theorem read_of_written (h : Written items (tidy s)) : read s = (do
    let a ← addTerms items.reduceOption {}
    if a.isEmpty then .error (.malformedAmount (String.ofList s)) else .ok a) := by
  have htrim : ∀ p ∈ splitAll '+' (tidy s), trim p = p := by
    intro p hp
    rw [splitAll_tidy] at hp
    obtain ⟨q, -, rfl⟩ := List.mem_map.mp hp
    exact trim_trim q
  rw [read, ← readTerms_map_trim, ← splitAll_tidy, ← List.append_nil (splitAll '+' (tidy s)),
    readTerms_of_written h htrim]
  rfl

theorem read_eq_ok_of_written (h : Written items (tidy s)) : read s = .ok a ↔
    items.reduceOption ≠ [] ∧ Computable items.reduceOption ∧ HasTotals items.reduceOption a := by
  rw [read_of_written h]
  constructor
  · intro ha
    obtain ⟨sum, hsum, ha⟩ := exists_of_bind_eq_ok ha
    obtain ⟨hcomputable, htotals⟩ := addTerms_eq_ok.mp hsum
    cases hempty : sum.isEmpty with
    | true =>
      rw [hempty] at ha
      cases ha
    | false =>
      rw [hempty] at ha
      obtain rfl := Except.ok.inj ha
      exact ⟨htotals.isEmpty_eq_false.mp hempty, hcomputable, htotals⟩
  · rintro ⟨hne, hcomputable, htotals⟩
    rw [addTerms_eq_ok.mpr ⟨hcomputable, htotals⟩]
    exact if_neg (by simp [htotals.isEmpty_eq_false.mpr hne])

/-- Where an item has no term, one of the pieces is empty. -/
theorem Written.nil_mem_splitAll (h : Written items s) (hnone : none ∈ items) :
    [] ∈ splitAll '+' s := by
  have hitem : ∀ {item : Option Term} {x : List Char}, ItemWritten item x → none = item →
      [] ∈ splitAll '+' x := by
    rintro item x hx rfl
    obtain rfl : x = [] := hx
    exact List.mem_singleton_self []
  induction h with
  | last h => exact hitem h (List.mem_singleton.mp hnone)
  | more h _ ih =>
    rw [splitAll_append_splitAll, List.mem_append]
    exact (List.mem_cons.mp hnone).imp (hitem h) ih

/-- Exactly the texts of the grammar with at least one term are read, where all results on the way
fit, and each unit has the total of its terms. Terms are missing only where the text starts or ends
with a `+` or has two of them next to each other. -/
theorem parse_eq_ok_iff_terms (s : String) (a : Amount) :
    (parse s = .ok a ↔ ∃ items, Written items (tidy s.toList) ∧ items.reduceOption ≠ [] ∧
      Computable items.reduceOption ∧ HasTotals items.reduceOption a) ∧
    ∀ items, Written items (tidy s.toList) → none ∈ items → [] ∈ splitAll '+' (tidy s.toList) := by
  refine ⟨⟨fun h => ?_, ?_⟩, fun items h => h.nil_mem_splitAll⟩
  · obtain ⟨items, hitems⟩ := exists_written_of_read h
    exact ⟨items, hitems, (read_eq_ok_of_written hitems).mp h⟩
  · rintro ⟨items, hitems, h⟩
    exact (read_eq_ok_of_written hitems).mpr h

/-- A `+` with nothing after it is idle. -/
example : parse "1in+" = .ok (single .inch 1) := by cbv

end Toolpath.Amount
