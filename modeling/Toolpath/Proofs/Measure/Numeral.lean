import Mathlib.Tactic.FieldSimp
import Mathlib.Tactic.Ring
import Toolpath.Proofs.Measure.LowestTerms
import Toolpath.Proofs.Text.Ends

/-!
Decimals as they are written. Exactly a sign with digits, and decimals after a point, are read as a
decimal, and the outcome is the number that the digits write in base ten.
-/
namespace Toolpath.Ratio
open Text

/-- What may stand in front of the digits. -/
inductive Sign where
  | absent | plus | minus
  deriving Repr, DecidableEq

def Sign.text : Sign → List Char
  | .absent => []
  | .plus => ['+']
  | .minus => ['-']

/-- One or more digits behind a sign and, after a point, one or more decimals. -/
structure Numeral where
  sign : Sign
  ones : List Char
  decimals : Option (List Char)
  areDigits_ones : areDigits ones
  areDigits_decimals : decimals.all areDigits

namespace Numeral
variable {n : Numeral} {c : Char} {r : Ratio}

/-- The decimal without its sign. -/
def body (n : Numeral) : List Char := n.ones ++ n.decimals.elim [] ('.' :: ·)

/-- How the decimal is written. -/
def text (n : Numeral) : List Char := n.sign.text ++ n.body

/-- The digits on both sides of the point. -/
def digits (n : Numeral) : List Char := n.ones ++ n.decimals.getD []

def places (n : Numeral) : ℕ := (n.decimals.getD []).length

/-- The whole part and the decimals, which count fractions of ten. -/
def size (n : Numeral) : ℚ :=
  Nat.ofDigitChars 10 n.ones 0 + Nat.ofDigitChars 10 (n.decimals.getD []) 0 / 10 ^ n.places

/-- The number that the decimal stands for. -/
def value (n : Numeral) : ℚ := if n.sign = .minus then -n.size else n.size

/-- At most 38 decimals, digits that write a signed 128-bit integer, and a value that fits. -/
structure Computable (n : Numeral) : Prop where
  places_le : n.places ≤ 38
  digits_lt : Nat.ofDigitChars 10 n.digits 0 < 0x80000000000000000000000000000000
  fits : Fits n.value

/-- What comes of reading the decimal. -/
def outcome (n : Numeral) : Except MeasureError Ratio :=
  ofDecimal (n.sign = .minus) (ofDigits n.digits) n.places

/-! ### Letters -/

theorem isDigit_of_areDigits {s : List Char} (h : areDigits s) (hc : c ∈ s) : c.isDigit := by
  rw [areDigits, Bool.and_eq_true] at h
  exact List.all_eq_true.mp h.2 c hc

theorem ne_nil_of_areDigits {s : List Char} (h : areDigits s) : s ≠ [] := by
  rintro rfl
  exact absurd h (by decide)

theorem mem_body_iff : c ∈ n.body ↔ c ∈ n.digits ∨ c = '.' ∧ n.decimals.isSome := by
  rw [body, digits, List.mem_append, List.mem_append, or_assoc]
  cases n.decimals <;> simp [or_comm]

theorem isDigit_of_mem_digits (h : c ∈ n.digits) : c.isDigit := by
  rcases List.mem_append.mp h with h | h
  · exact isDigit_of_areDigits n.areDigits_ones h
  · have hdecimals := n.areDigits_decimals
    cases hd : n.decimals with
    | none => simp [hd] at h
    | some d =>
      rw [hd] at h hdecimals
      exact isDigit_of_areDigits hdecimals h

theorem mem_body (h : c ∈ n.body) : c.isDigit ∨ c = '.' :=
  (mem_body_iff.mp h).imp isDigit_of_mem_digits And.left

theorem exists_body_eq_cons (n : Numeral) : ∃ c r, n.body = c :: r ∧ c.isDigit := by
  obtain ⟨c, r, hones⟩ := List.exists_cons_of_ne_nil (ne_nil_of_areDigits n.areDigits_ones)
  have hdigit : c.isDigit := isDigit_of_areDigits n.areDigits_ones (hones ▸ List.mem_cons_self)
  exact ⟨c, r ++ n.decimals.elim [] ('.' :: ·), by rw [body, hones, List.cons_append], hdigit⟩

/-- No letter of a decimal is white space or a mark between decimals. -/
theorem of_mem_body (h : c ∈ n.body) : isBlank c = false ∧ c ≠ '/' ∧ c ≠ '+' ∧ c ≠ '-' := by
  have hc : c ∈ ".0123456789".toList := by
    rcases mem_body h with h | rfl
    · exact List.mem_cons_of_mem '.' (Decimal.mem_digits_of_isDigit h)
    · exact List.mem_cons_self
  have hall : ".0123456789".toList.all fun c =>
      !isBlank c && c != '/' && c != '+' && c != '-' := by decide
  simpa [and_assoc] using List.all_eq_true.mp hall c hc

theorem of_mem_text (h : c ∈ n.text) : isBlank c = false ∧ c ≠ '/' := by
  have hsign : n.sign.text.all fun c => !isBlank c && c != '/' := by
    cases n.sign <;> decide
  rcases List.mem_append.mp h with h | h
  · simpa using List.all_eq_true.mp hsign c h
  · exact ⟨(of_mem_body h).1, (of_mem_body h).2.1⟩

theorem mem_letters_of_mem_text (h : c ∈ n.text) : c ∈ '+' :: '.' :: letters := by
  have hsign : n.sign.text ⊆ '+' :: '.' :: letters := by
    cases n.sign <;> decide
  rcases List.mem_append.mp h with h | h
  · exact hsign h
  · rcases mem_body h with h | rfl
    · exact List.mem_cons_of_mem '+' (List.mem_cons_of_mem '.' (mem_letters_of_isDigit h))
    · decide

theorem plus_not_mem_body (n : Numeral) : '+' ∉ n.body := fun h => (of_mem_body h).2.2.1 rfl

theorem plus_not_mem_text (h : n.sign ≠ .plus) : '+' ∉ n.text := by
  have hsign : '+' ∉ n.sign.text := by
    revert h
    cases n.sign <;> decide
  intro hmem
  rcases List.mem_append.mp hmem with hmem | hmem
  · exact hsign hmem
  · exact plus_not_mem_body n hmem

/-- Only a sign may be a `+`, and digits follow it. -/
theorem exists_text_eq_cons (n : Numeral) : ∃ c r, n.text = c :: r ∧ '+' ∉ r ∧
    (c = '+' → ∃ d ∈ r, isBlank d = false) := by
  obtain ⟨c, r, hbody, -⟩ := n.exists_body_eq_cons
  have hc := of_mem_body (hbody ▸ List.mem_cons_self : c ∈ n.body)
  have hplus := n.plus_not_mem_body
  have hdigit : ∃ d ∈ n.body, isBlank d = false := ⟨c, hbody ▸ List.mem_cons_self, hc.1⟩
  cases hsign : n.sign with
  | absent =>
    rw [hbody] at hplus
    refine ⟨c, r, by rw [text, hsign, hbody]; rfl, fun h => hplus (List.mem_cons_of_mem c h), ?_⟩
    exact fun h => absurd h hc.2.2.1
  | plus => exact ⟨'+', n.body, by rw [text, hsign]; rfl, hplus, fun _ => hdigit⟩
  | minus => exact ⟨'-', n.body, by rw [text, hsign]; rfl, hplus, fun _ => hdigit⟩

theorem trim_text (n : Numeral) : trim n.text = n.text :=
  trim_of_forall fun _ h => (of_mem_text h).1

/-! ### Reading -/

theorem splitSign_text (n : Numeral) : splitSign n.text = (decide (n.sign = .minus), n.body) := by
  obtain ⟨c, r, hbody, -⟩ := n.exists_body_eq_cons
  have hc := of_mem_body (hbody ▸ List.mem_cons_self : c ∈ n.body)
  cases hsign : n.sign with
  | absent =>
    rw [text, hsign, Sign.text, List.nil_append, hbody]
    unfold splitSign
    split
    · next h => exact absurd (List.cons.inj h).1 hc.2.2.2
    · next h => exact absurd (List.cons.inj h).1 hc.2.2.1
    · rfl
  | plus =>
    rw [text, hsign]
    rfl
  | minus =>
    rw [text, hsign]
    rfl

theorem splitPoint_body (n : Numeral) : splitPoint n.body = (n.ones, n.decimals) := by
  have hpoint : '.' ∉ n.ones := fun h => by
    simpa using isDigit_of_areDigits n.areDigits_ones h
  cases hd : n.decimals with
  | none =>
    have hnone := splitFirst_eq_none.mpr hpoint
    rw [body, hd, Option.elim_none, List.append_nil, splitPoint, hnone]
  | some d => rw [body, hd, Option.elim_some, splitPoint, splitFirst_append hpoint]

theorem readDecimal_text (n : Numeral) : readDecimal n.text = some n.outcome := by
  have hdigits : (areDigits n.ones && n.decimals.all areDigits) = true := by
    rw [n.areDigits_ones, n.areDigits_decimals, Bool.and_self]
  unfold readDecimal
  rw [splitSign_text]
  dsimp only
  rw [splitPoint_body]
  exact if_pos hdigits

theorem exists_sign (s : List Char) :
    ∃ sign : Sign, s = sign.text ++ (splitSign s).2 ∧ (splitSign s).1 = decide (sign = .minus) := by
  unfold splitSign
  split
  · exact ⟨.minus, rfl, rfl⟩
  · exact ⟨.plus, rfl, rfl⟩
  · exact ⟨.absent, rfl, rfl⟩

theorem splitPoint_append (s : List Char) :
    s = (splitPoint s).1 ++ (splitPoint s).2.elim [] ('.' :: ·) := by
  unfold splitPoint
  split
  · next h => exact (eq_of_splitFirst h).1
  · simp

/-- Nothing else is read as a decimal. -/
theorem exists_of_readDecimal {s : List Char} {outcome : Except MeasureError Ratio}
    (h : readDecimal s = some outcome) : ∃ n : Numeral, n.text = s ∧ n.outcome = outcome := by
  obtain ⟨sign, htext, hsign⟩ := exists_sign s
  have hbody := splitPoint_append (splitSign s).2
  unfold readDecimal at h
  simp only [Option.ite_none_right_eq_some, Option.some.injEq, Bool.and_eq_true] at h
  obtain ⟨⟨hones, hdecimals⟩, houtcome⟩ := h
  refine ⟨⟨sign, _, _, hones, hdecimals⟩, ?_, ?_⟩
  · rw [text, body, ← hbody, ← htext]
  · rw [← houtcome, hsign]
    rfl

/-! ### Values -/

/-- The digits without the point count the last place. -/
theorem ofDigits_digits (n : Numeral) : (ofDigits n.digits : ℚ) / 10 ^ n.places = n.size := by
  have happend : ofDigits n.digits = 10 ^ n.places * Nat.ofDigitChars 10 n.ones 0 +
      Nat.ofDigitChars 10 (n.decimals.getD []) 0 := by
    have hsplit : ofDigits n.digits =
        Nat.ofDigitChars 10 (n.decimals.getD []) (Nat.ofDigitChars 10 n.ones 0) :=
      Nat.ofDigitChars_append 0
    rw [hsplit, Nat.ofDigitChars_eq_ofDigitChars_zero]
    rfl
  rw [happend, size]
  push_cast
  field_simp

theorem quotient_digits (n : Numeral) :
    quotient? ((if n.sign = .minus then -(ofDigits n.digits : ℤ) else ofDigits n.digits : ℤ) : ℚ)
      ((Nat.pow 10 n.places : ℕ) : ℤ) = some n.value := by
  have hpow : (((Nat.pow 10 n.places : ℕ) : ℤ) : ℚ) = 10 ^ n.places := by
    rw [Nat.pow_eq]
    push_cast
    rfl
  rw [hpow, quotient?, if_neg (pow_ne_zero _ (by norm_num)), value, ← n.ofDigits_digits]
  split
  · push_cast
    rw [neg_div]
  · push_cast
    rfl

/-- The text of a decimal tells its value. -/
theorem value_eq_of_text_eq {m n : Numeral} (h : m.text = n.text) : m.value = n.value := by
  have hsplit := congrArg splitSign h
  rw [splitSign_text, splitSign_text] at hsplit
  obtain ⟨hsign, hbody⟩ := Prod.mk.inj hsplit
  have hpoint := congrArg splitPoint hbody
  rw [splitPoint_body, splitPoint_body] at hpoint
  obtain ⟨hones, hdecimals⟩ := Prod.mk.inj hpoint
  have hsize : m.size = n.size := by
    rw [size, size, places, places, hones, hdecimals]
  rw [value, value, hsize]
  exact if_congr (decide_eq_decide.mp hsign) rfl rfl

theorem outcome_eq_ok : n.outcome = .ok r ↔ n.Computable ∧ r = lowest n.value := by
  have hreduce : reduce (if decide (n.sign = .minus) then -(ofDigits n.digits : ℤ)
      else ofDigits n.digits) (Nat.pow 10 n.places : ℕ) = exactly (some n.value) := by
    rw [reduce_eq_exactly, ← n.quotient_digits]
    simp only [decide_eq_true_eq]
  rw [outcome, ofDecimal, hreduce]
  constructor
  · intro h
    split at h
    · cases h
    · next hwide =>
      obtain ⟨hfits, hr⟩ := exactly_some_eq_ok.mp h
      obtain ⟨hplaces, hdigits⟩ := not_or.mp hwide
      exact ⟨⟨not_lt.mp hplaces, not_le.mp hdigits, hfits⟩, hr⟩
  · rintro ⟨h, hr⟩
    have hplaces : ¬ 38 < n.places := not_lt.mpr h.places_le
    have hdigits : ¬ 0x80000000000000000000000000000000 ≤ ofDigits n.digits :=
      not_le.mpr h.digits_lt
    rw [if_neg (not_or.mpr ⟨hplaces, hdigits⟩)]
    exact exactly_some_eq_ok.mpr ⟨h.fits, hr⟩

end Numeral
end Toolpath.Ratio
