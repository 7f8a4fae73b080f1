import Toolpath.Proofs.Measure.Numeral
import Toolpath.Proofs.Measure.Wide

/-!
The grammar of written fractions. A text is read as a fraction exactly if it is a sum of quotients
of decimals whose results all fit, and what is read is the value of that expression. Quotients are
taken from the left, sums from the right.
-/
namespace Toolpath.Ratio
open Text

/-- A decimal, or one that is divided by others. -/
inductive Addend where
  | decimal (n : Numeral)
  | quotient (dividend : Addend) (divisor : Numeral)

/-- An addend, or a sum of several. -/
inductive Literal where
  | addend (a : Addend)
  | sum (first : Addend) (rest : Literal)

/-- The ways to write an addend. White space may surround its decimals, and only the first of them
may have a `+` in front. -/
inductive Addend.Written : Addend → List Char → Prop
  | decimal {n : Numeral} {s : List Char} (h : trim s = n.text) : Written (.decimal n) s
  | quotient {a : Addend} {n : Numeral} {s t : List Char} (ha : Written a s) (hn : n.sign ≠ .plus)
    (ht : trim t = n.text) : Written (.quotient a n) (s ++ '/' :: t)

/-- The ways to write a fraction. -/
inductive Literal.Written : Literal → List Char → Prop
  | addend {a : Addend} {s : List Char} (ha : a.Written s) : Written (.addend a) s
  | sum {a : Addend} {l : Literal} {s t : List Char} (ha : a.Written s) (hl : Written l t) :
    Written (.sum a l) (s ++ '+' :: t)

def Addend.value : Addend → ℚ
  | .decimal n => n.value
  | .quotient a n => a.value / n.value

def Literal.value : Literal → ℚ
  | .addend a => a.value
  | .sum a l => a.value + l.value

/-- No divisor is zero, and every decimal and every quotient fits. -/
def Addend.Computable : Addend → Prop
  | .decimal n => n.Computable
  | .quotient a n => a.Computable ∧ n.Computable ∧ n.value ≠ 0 ∧ Fits (a.value / n.value)

/-- Every addend and every sum of the last ones fits. -/
def Literal.Computable : Literal → Prop
  | .addend a => a.Computable
  | .sum a l => a.Computable ∧ l.Computable ∧ Fits (a.value + l.value)

/-- What comes of reading the addend. -/
def Addend.outcome : Addend → Except MeasureError Ratio
  | .decimal n => n.outcome
  | .quotient a n => do (← a.outcome).div (← n.outcome)

/-- What comes of reading the fraction. -/
def Literal.outcome : Literal → Except MeasureError Ratio
  | .addend a => a.outcome
  | .sum a l => do (← a.outcome).add (← l.outcome)

variable {a : Addend} {l : Literal} {n : Numeral} {s t : List Char} {r : Ratio}

/-! ### Where a sum is split -/

theorem splitSum_eq_none : splitSum s = none ↔ '+' ∉ s.tail := by
  cases s with
  | nil => simp [splitSum]
  | cons c s => rw [splitSum, Option.map_eq_none_iff, splitFirst_eq_none, List.tail_cons]

theorem splitSum_append (c : Char) (hs : '+' ∉ s) (t : List Char) :
    splitSum (c :: s ++ '+' :: t) = some (c :: s, t) := by
  rw [List.cons_append, splitSum, splitFirst_append hs, Option.map_some]

theorem eq_of_splitSum {x : List Char} (h : splitSum x = some (s, t)) :
    x = s ++ '+' :: t ∧ '+' ∉ s.tail := by
  cases x with
  | nil => cases h
  | cons c x =>
    obtain ⟨⟨u, v⟩, hfirst, huv⟩ := Option.map_eq_some_iff.mp h
    obtain ⟨rfl, rfl⟩ := Prod.mk.inj huv
    obtain ⟨rfl, hplus⟩ := eq_of_splitFirst hfirst
    exact ⟨rfl, hplus⟩

/-! ### White space around an expression -/

theorem Addend.Written.congr (h : a.Written s) (ht : trim t = trim s) : a.Written t := by
  induction h generalizing t with
  | decimal h => exact .decimal (ht.trans h)
  | quotient _ hn hy ih =>
    obtain ⟨x', y', rfl, hx', hy'⟩ := exists_split_of_trim_eq (by decide) ht
    exact .quotient (ih hx') hn (hy'.trans hy)

theorem Literal.Written.congr (h : l.Written s) (ht : trim t = trim s) : l.Written t := by
  induction h generalizing t with
  | addend ha => exact .addend (ha.congr ht)
  | sum ha _ ih =>
    obtain ⟨x', y', rfl, hx', hy'⟩ := exists_split_of_trim_eq (by decide) ht
    exact .sum (ha.congr hx') (ih hy')

/-- A `+` that is not a sign in front stands outside of all addends. -/
theorem Addend.Written.exists_trimStart_eq_cons (h : a.Written s) :
    ∃ c r, trimStart s = c :: r ∧ '+' ∉ r ∧ (c = '+' → ∃ d ∈ r, isBlank d = false) := by
  induction h with
  | @decimal n x h =>
    obtain ⟨c, r, htext, hplus, hdigit⟩ := n.exists_text_eq_cons
    obtain ⟨q, hq, hend⟩ := exists_trimEnd (trimStart x)
    have hstart : trimStart x = c :: (r ++ q) := by
      rw [hend, ← trim, h, htext, List.cons_append]
    refine ⟨c, r ++ q, hstart, fun hmem => ?_, fun hc => ?_⟩
    · rcases List.mem_append.mp hmem with hmem | hmem
      · exact hplus hmem
      · exact absurd (hq _ hmem) (by decide)
    · obtain ⟨d, hd, hblank⟩ := hdigit hc
      exact ⟨d, List.mem_append_left q hd, hblank⟩
  | @quotient a n x y _ hn hy ih =>
    obtain ⟨c, r, hstart, hplus, hdigit⟩ := ih
    have hcons : trimStart (x ++ '/' :: y) = c :: (r ++ '/' :: y) := by
      rw [trimStart_append_cons (by decide), hstart, List.cons_append]
    refine ⟨c, r ++ '/' :: y, hcons, fun hmem => ?_, fun hc => ?_⟩
    · rcases List.mem_append.mp hmem with hmem | hmem
      · exact hplus hmem
      · rcases List.mem_cons.mp hmem with hmem | hmem
        · exact absurd hmem (by decide)
        · exact Numeral.plus_not_mem_text hn (hy ▸ mem_trim hmem (by decide))
    · obtain ⟨d, hd, hblank⟩ := hdigit hc
      exact ⟨d, List.mem_append_left _ hd, hblank⟩

theorem Addend.Written.ne_nil (h : a.Written s) : s ≠ [] := by
  rintro rfl
  obtain ⟨c, r, hstart, -⟩ := h.exists_trimStart_eq_cons
  cases hstart

/-! ### Characters of an expression -/

theorem Addend.Written.of_mem {c : Char} (h : a.Written s) (hc : c ∈ s) :
    isBlank c ∨ c ∈ '+' :: '.' :: letters := by
  have hdecimal : ∀ {n : Numeral} {x : List Char}, trim x = n.text → c ∈ x →
      isBlank c ∨ c ∈ '+' :: '.' :: letters := by
    intro n x hx hc
    by_cases hblank : isBlank c
    · exact .inl hblank
    · have hmem : c ∈ n.text := hx ▸ mem_trim hc (by simpa using hblank)
      exact .inr (Numeral.mem_letters_of_mem_text hmem)
  induction h with
  | decimal h => exact hdecimal h hc
  | quotient _ _ hy ih =>
    rcases List.mem_append.mp hc with hc | hc
    · exact ih hc
    · rcases List.mem_cons.mp hc with rfl | hc
      · exact .inr (by decide)
      · exact hdecimal hy hc

theorem Literal.Written.of_mem {c : Char} (h : l.Written s) (hc : c ∈ s) :
    isBlank c ∨ c ∈ '+' :: '.' :: letters := by
  induction h with
  | addend ha => exact ha.of_mem hc
  | sum ha _ ih =>
    rcases List.mem_append.mp hc with hc | hc
    · exact ha.of_mem hc
    · rcases List.mem_cons.mp hc with rfl | hc
      · exact .inr (by decide)
      · exact ih hc

theorem Addend.Written.exists_mem (h : a.Written s) : ∃ d ∈ s, isBlank d = false := by
  obtain ⟨c, r, hstart, -⟩ := h.exists_trimStart_eq_cons
  have hc := List.head?_dropWhile_not isBlank s
  rw [← trimStart, hstart] at hc
  have hmem : c ∈ trimStart s := hstart ▸ List.mem_cons_self
  exact ⟨c, (List.dropWhile_suffix isBlank).subset hmem, by simpa using hc⟩

theorem Addend.Written.exists_mem_after_plus {x y : List Char} (h : a.Written (x ++ '+' :: y)) :
    ∃ d ∈ y, isBlank d = false := by
  obtain ⟨c, r, hstart, hplus, hdigit⟩ := h.exists_trimStart_eq_cons
  rw [trimStart_append_cons (by decide)] at hstart
  cases hx : trimStart x with
  | nil =>
    rw [hx] at hstart
    obtain ⟨hc, rfl⟩ := List.cons.inj hstart
    exact hdigit hc.symm
  | cons d x' =>
    rw [hx] at hstart
    obtain ⟨-, rfl⟩ := List.cons.inj hstart
    exact absurd (List.mem_append_right x' List.mem_cons_self) hplus

theorem Literal.Written.exists_mem (h : l.Written s) : ∃ d ∈ s, isBlank d = false := by
  cases h with
  | addend ha => exact ha.exists_mem
  | sum ha _ =>
    obtain ⟨d, hd, hblank⟩ := ha.exists_mem
    exact ⟨d, List.mem_append_left _ hd, hblank⟩

/-- No `+` stands at the end. -/
theorem Literal.Written.exists_mem_after_plus {x y : List Char} (h : l.Written (x ++ '+' :: y)) :
    ∃ d ∈ y, isBlank d = false := by
  generalize hs : x ++ '+' :: y = s at h
  induction h generalizing x with
  | addend ha =>
    subst hs
    exact ha.exists_mem_after_plus
  | @sum a l u v ha hl ih =>
    have hy : '+' :: y <:+ u ++ '+' :: v := ⟨x, hs⟩
    rcases List.suffix_or_suffix_of_suffix hy (List.suffix_append_of_suffix (List.suffix_cons '+' v))
      with ⟨x', hv⟩ | hv
    · exact ih hv
    · rcases List.suffix_cons_iff.mp hv with hv | hv
      · exact ih (x := []) hv.symm
      · obtain ⟨d, hd, hblank⟩ := hl.exists_mem
        exact ⟨d, hv.subset hd, hblank⟩

/-! ### A sign in front -/

theorem Addend.Written.plus_not_mem (h : a.Written ('+' :: s)) : '+' ∉ s := by
  obtain ⟨c, r, hstart, hplus, -⟩ := h.exists_trimStart_eq_cons
  rw [trimStart_cons_of_not_isBlank (by decide)] at hstart
  obtain ⟨-, rfl⟩ := List.cons.inj hstart
  exact hplus

/-- An addend has the same outcome without the `+` in front. -/
theorem Addend.Written.of_plus (h : a.Written ('+' :: s)) :
    ∃ a' : Addend, a'.Written s ∧ a'.outcome = a.outcome := by
  generalize ht : '+' :: s = t at h
  induction h generalizing s with
  | @decimal n t h =>
    subst ht
    rw [← List.nil_append ('+' :: s), trim_append_cons (by decide)] at h
    have hsplit := n.splitSign_text
    rw [← h] at hsplit
    obtain ⟨hsign, hbody⟩ := Prod.mk.inj hsplit
    let plain : Numeral := { n with sign := .absent }
    have htext : trim s = plain.text := by
      rw [← trim_trimEnd, hbody]
      exact plain.trim_text
    refine ⟨.decimal plain, .decimal htext, ?_⟩
    rw [Addend.outcome, Addend.outcome, Numeral.outcome, Numeral.outcome, ← hsign]
    rfl
  | @quotient a n u v ha hn hv ih =>
    obtain ⟨c, u', rfl⟩ := List.exists_cons_of_ne_nil ha.ne_nil
    obtain ⟨rfl, rfl⟩ := List.cons.inj ht
    obtain ⟨a', ha', hout⟩ := ih rfl
    refine ⟨.quotient a' n, .quotient ha' hn hv, ?_⟩
    rw [Addend.outcome, Addend.outcome, hout]

/-- A fraction has the same outcome without the `+` in front, and no further `+` stands there. -/
theorem Literal.Written.of_plus (h : l.Written ('+' :: s)) :
    ∃ l' : Literal, l'.Written s ∧ l'.outcome = l.outcome ∧ s.head? ≠ some '+' := by
  generalize ht : '+' :: s = t at h
  cases h with
  | addend ha =>
    subst ht
    obtain ⟨a', ha', hout⟩ := ha.of_plus
    exact ⟨.addend a', .addend ha', hout, fun hs => ha.plus_not_mem (List.mem_of_mem_head? hs)⟩
  | @sum a l u v ha hl =>
    obtain ⟨c, u', rfl⟩ := List.exists_cons_of_ne_nil ha.ne_nil
    obtain ⟨rfl, rfl⟩ := List.cons.inj ht
    obtain ⟨a', ha', hout⟩ := ha.of_plus
    refine ⟨.sum a' l, .sum ha' hl, ?_, ?_⟩
    · rw [Literal.outcome, Literal.outcome, hout]
    · obtain ⟨d, u'', rfl⟩ := List.exists_cons_of_ne_nil ha'.ne_nil
      exact fun hs => ha.plus_not_mem (Option.some.inj hs ▸ List.mem_cons_self)

/-! ### Whatever is written so is read -/

theorem read_of_trim_eq_text (h : trim s = n.text) : read s = n.outcome := by
  obtain ⟨c, r, htext, hplus, -⟩ := n.exists_text_eq_cons
  have hsum : splitSum n.text = none := splitSum_eq_none.mpr (by rwa [htext])
  have hslash : splitLast '/' n.text = none :=
    splitLast_eq_none.mpr fun hmem => (Numeral.of_mem_text hmem).2 rfl
  rw [read_eq, h]
  simp only [hsum, hslash, n.readDecimal_text, Option.getD_some]

theorem Addend.Written.read_eq (h : a.Written s) : read s = a.outcome := by
  induction a generalizing s with
  | decimal n =>
    cases h with
    | decimal h => exact read_of_trim_eq_text h
  | quotient a n ih =>
    cases h with
    | @quotient _ _ x y ha hn hy =>
      obtain ⟨c, r, hstart, hplus, -⟩ := ha.exists_trimStart_eq_cons
      have hy' : trim (trimEnd y) = n.text := (trim_trimEnd y).trans hy
      have hnot : ∀ {m : Char}, isBlank m = false → m ∉ n.text → m ∉ trimEnd y :=
        fun hm hmem h => hmem (hy' ▸ mem_trim h hm)
      have hsum : splitSum (trimStart x ++ '/' :: trimEnd y) = none := by
        refine splitSum_eq_none.mpr ?_
        rw [hstart, List.cons_append, List.tail_cons, List.mem_append, List.mem_cons]
        exact not_or.mpr ⟨hplus, not_or.mpr ⟨by decide,
          hnot (by decide) (Numeral.plus_not_mem_text hn)⟩⟩
      have hslash : splitLast '/' (trimStart x ++ '/' :: trimEnd y) =
          some (trimStart x, trimEnd y) :=
        splitLast_append (hnot (by decide) fun hmem => (Numeral.of_mem_text hmem).2 rfl)
      rw [Ratio.read_eq, trim_append_cons (by decide)]
      simp only [hsum, hslash]
      rw [ih (ha.congr (trim_trimStart x)), read_of_trim_eq_text hy']
      rfl

theorem Literal.Written.read_eq (h : l.Written s) : read s = l.outcome := by
  induction l generalizing s with
  | addend a =>
    cases h with
    | addend ha => exact ha.read_eq
  | sum a l ih =>
    cases h with
    | @sum _ _ x y ha hl =>
      obtain ⟨c, r, hstart, hplus, -⟩ := ha.exists_trimStart_eq_cons
      have hsum : splitSum (trimStart x ++ '+' :: trimEnd y) = some (trimStart x, trimEnd y) := by
        rw [hstart]
        exact splitSum_append c hplus _
      rw [Ratio.read_eq, trim_append_cons (by decide)]
      simp only [hsum]
      rw [(ha.congr (trim_trimStart x)).read_eq, ih (hl.congr (trim_trimEnd y))]
      rfl

/-! ### Whatever is read is written so -/

theorem Literal.Written.exists_addend (h : l.Written s) (hs : '+' ∉ s.tail) :
    ∃ a : Addend, a.Written s := by
  cases h with
  | addend ha => exact ⟨_, ha⟩
  | @sum a l x y ha _ =>
    obtain ⟨c, r, rfl⟩ := List.exists_cons_of_ne_nil ha.ne_nil
    exact absurd (List.mem_append_right r List.mem_cons_self) hs

theorem Addend.Written.exists_numeral (h : a.Written s) (hs : '/' ∉ s) :
    ∃ n : Numeral, trim s = n.text := by
  cases h with
  | decimal h => exact ⟨_, h⟩
  | @quotient a n x y _ _ _ => exact absurd (List.mem_append_right x List.mem_cons_self) hs

theorem exists_written_of_read (h : read s = .ok r) : ∃ l : Literal, l.Written s := by
  induction s using read.induct generalizing r with
  | case1 x a b hsum iha ihb =>
    rw [read_eq, hsum] at h
    obtain ⟨u, hu, h⟩ := exists_of_bind_eq_ok h
    obtain ⟨v, hv, -⟩ := exists_of_bind_eq_ok h
    obtain ⟨hx, hplus⟩ := eq_of_splitSum hsum
    obtain ⟨la, hla⟩ := iha hu
    obtain ⟨lb, hlb⟩ := ihb hv
    obtain ⟨aa, haa⟩ := hla.exists_addend hplus
    have hwritten : (Literal.sum aa lb).Written (trim x) := hx ▸ .sum haa hlb
    exact ⟨_, hwritten.congr (trim_trim x).symm⟩
  | case2 x hsum a b hslash iha ihb =>
    rw [read_eq, hsum] at h
    simp only [hslash] at h
    obtain ⟨u, hu, h⟩ := exists_of_bind_eq_ok h
    obtain ⟨v, hv, -⟩ := exists_of_bind_eq_ok h
    obtain ⟨hx, hlast⟩ := eq_of_splitLast hslash
    have hplus : '+' ∉ a.tail ∧ '+' ∉ b := by
      have hnone := splitSum_eq_none.mp hsum
      rw [hx] at hnone
      cases a with
      | nil => exact ⟨List.not_mem_nil, hnone⟩
      | cons c a =>
        obtain ⟨ha, hb⟩ := not_or.mp fun h => hnone (List.mem_append.mpr h)
        exact ⟨ha, fun h => hb (List.mem_cons_of_mem _ h)⟩
    obtain ⟨la, hla⟩ := iha hu
    obtain ⟨lb, hlb⟩ := ihb hv
    obtain ⟨aa, haa⟩ := hla.exists_addend hplus.1
    obtain ⟨ab, hab⟩ := hlb.exists_addend fun h => hplus.2 (List.mem_of_mem_tail h)
    obtain ⟨n, hn⟩ := hab.exists_numeral hlast
    have hsign : n.sign ≠ .plus := by
      intro hsign
      have hmem : '+' ∈ n.text := by simp [Numeral.text, hsign, Sign.text]
      exact hplus.2 (mem_of_mem_trim (hn ▸ hmem))
    have hwritten : (Literal.addend (.quotient aa n)).Written (trim x) :=
      hx ▸ .addend (.quotient haa hsign hn)
    exact ⟨_, hwritten.congr (trim_trim x).symm⟩
  | case3 x hsum hslash =>
    rw [read_eq, hsum] at h
    simp only [hslash] at h
    cases hdecimal : readDecimal (trim x) with
    | none =>
      rw [hdecimal] at h
      cases h
    | some outcome =>
      obtain ⟨n, htext, -⟩ := Numeral.exists_of_readDecimal hdecimal
      exact ⟨_, .addend (.decimal htext.symm)⟩

/-! ### Outcomes -/

theorem Addend.Computable.fits (h : a.Computable) : Fits a.value := by
  cases a with
  | decimal n => exact Numeral.Computable.fits h
  | quotient a n => exact h.2.2.2

theorem Literal.Computable.fits (h : l.Computable) : Fits l.value := by
  cases l with
  | addend a => exact Addend.Computable.fits h
  | sum a l => exact h.2.2

theorem Addend.outcome_eq_ok : a.outcome = .ok r ↔ a.Computable ∧ r = lowest a.value := by
  induction a generalizing r with
  | decimal n => exact Numeral.outcome_eq_ok
  | quotient a n ih =>
    constructor
    · intro h
      obtain ⟨u, hu, h⟩ := exists_of_bind_eq_ok h
      obtain ⟨v, hv, h⟩ := exists_of_bind_eq_ok h
      obtain ⟨ha, rfl⟩ := ih.mp hu
      obtain ⟨hn, rfl⟩ := Numeral.outcome_eq_ok.mp hv
      obtain ⟨hzero, hfits, hr⟩ := (div_lowest_eq_ok ha.fits hn.fits).mp h
      exact ⟨⟨ha, hn, hzero, hfits⟩, hr⟩
    · rintro ⟨⟨ha, hn, hzero, hfits⟩, hr⟩
      rw [Addend.outcome, ih.mpr ⟨ha, rfl⟩, Numeral.outcome_eq_ok.mpr ⟨hn, rfl⟩]
      exact (div_lowest_eq_ok ha.fits hn.fits).mpr ⟨hzero, hfits, hr⟩

theorem Literal.outcome_eq_ok : l.outcome = .ok r ↔ l.Computable ∧ r = lowest l.value := by
  induction l generalizing r with
  | addend a => exact Addend.outcome_eq_ok
  | sum a l ih =>
    constructor
    · intro h
      obtain ⟨u, hu, h⟩ := exists_of_bind_eq_ok h
      obtain ⟨v, hv, h⟩ := exists_of_bind_eq_ok h
      obtain ⟨ha, rfl⟩ := Addend.outcome_eq_ok.mp hu
      obtain ⟨hl, rfl⟩ := ih.mp hv
      obtain ⟨hfits, hr⟩ := (add_lowest_eq_ok ha.fits hl.fits).mp h
      exact ⟨⟨ha, hl, hfits⟩, hr⟩
    · rintro ⟨⟨ha, hl, hfits⟩, hr⟩
      rw [Literal.outcome, Addend.outcome_eq_ok.mpr ⟨ha, rfl⟩, ih.mpr ⟨hl, rfl⟩]
      exact (add_lowest_eq_ok ha.fits hl.fits).mpr ⟨hfits, hr⟩

theorem read_eq_ok_iff : read s = .ok r ↔
    ∃ l : Literal, l.Written s ∧ l.Computable ∧ r = lowest l.value := by
  constructor
  · intro h
    obtain ⟨l, hl⟩ := exists_written_of_read h
    obtain ⟨hcomputable, hr⟩ := Literal.outcome_eq_ok.mp (hl.read_eq ▸ h)
    exact ⟨l, hl, hcomputable, hr⟩
  · rintro ⟨l, hl, hcomputable, hr⟩
    rw [hl.read_eq]
    exact Literal.outcome_eq_ok.mpr ⟨hcomputable, hr⟩

/-! ### The descent -/

namespace Wide

def readDecimal (s : List Char) : Option (Steps Ratio) :=
  let (negative, digits) := splitSign s
  let (ones, decimals) := splitPoint digits
  if areDigits ones && decimals.all areDigits then
    some (ofDecimal negative (ofDigits (ones ++ decimals.getD [])) (decimals.getD []).length)
  else none

/-- Reading in steps of 128 bits, stuck where it would descend further than so many levels. -/
def read : ℕ → List Char → Steps Ratio
  | 0, _ => ExceptT.mk none
  | depth + 1, input =>
    match splitSum (trim input) with
    | some (a, b) => do
      let x ← read depth a
      let y ← read depth b
      add x y
    | none =>
      match splitLast '/' (trim input) with
      | some (a, b) => do
        let x ← read depth a
        let y ← read depth b
        div x y
      | none => (readDecimal (trim input)).getD (throw (.malformedNumber (String.ofList input)))

theorem readDecimal_eq (s : List Char) : readDecimal s = (Ratio.readDecimal s).map done := by
  unfold readDecimal Ratio.readDecimal
  simp only [ofDecimal_eq]
  split <;> rfl

/-- Two readings and an operation on their results are not stuck where none of the three is. -/
theorem bind_done {wide : Ratio → Ratio → Steps Ratio} {op : Ratio → Ratio → Except MeasureError Ratio}
    (hop : ∀ x y, x.Canonical → y.Canonical → wide x y = done (op x y)) (a b : List Char) :
    (do
      let x ← done (Ratio.read a)
      let y ← done (Ratio.read b)
      wide x y) = done (do op (← Ratio.read a) (← Ratio.read b)) := by
  cases ha : Ratio.read a with
  | error e => rfl
  | ok x =>
    cases hb : Ratio.read b with
    | error e => rfl
    | ok y => exact hop x y (canonical_of_read ha) (canonical_of_read hb)

/-- The pieces of a text are shorter than the text, so that its length bounds the descent. -/
theorem read_eq {depth : ℕ} (h : s.length < depth) : read depth s = done (Ratio.read s) := by
  induction depth generalizing s with
  | zero => exact absurd h (Nat.not_lt_zero _)
  | succ depth ih =>
    have htrim := length_trim_le s
    rw [read, Ratio.read_eq]
    cases hsum : splitSum (trim s) with
    | some p =>
      obtain ⟨a, b⟩ := p
      obtain ⟨ha, hb⟩ := length_lt_of_splitSum hsum
      dsimp only
      rw [ih (by omega), ih (by omega)]
      exact bind_done (fun x y hx hy => add_eq hx hy) a b
    | none =>
      dsimp only
      cases hslash : splitLast '/' (trim s) with
      | some p =>
        obtain ⟨a, b⟩ := p
        obtain ⟨ha, hb⟩ := length_lt_of_splitLast hslash
        dsimp only
        rw [ih (by omega), ih (by omega)]
        exact bind_done (fun x y hx hy => div_eq hx hy) a b
      | none =>
        dsimp only
        rw [readDecimal_eq]
        cases Ratio.readDecimal (trim s) <;> rfl

end Wide

/-- Exactly the texts of the grammar are read, where all results on the way fit, and what is read is
the value of the expression in lowest terms. For every text the descent ends within as many levels
as the text has characters, and one more, and no step leaves 128 bits. -/
theorem parse_eq_ok_iff_literal (s : String) (r : Ratio) :
    (parse s = .ok r ↔ ∃ l : Literal, l.Written s.toList ∧ l.Computable ∧ r = lowest l.value) ∧
      Wide.read (s.length + 1) s.toList = Wide.done (parse s) := by
  refine ⟨read_eq_ok_iff, Wide.read_eq ?_⟩
  rw [String.length_toList]
  exact Nat.lt_succ_self s.length

/-- Quotients are taken from the left. -/
example : parse "1+8/2/-4" = .ok 0 := by cbv

end Toolpath.Ratio
