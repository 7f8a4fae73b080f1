import Mathlib.Data.List.TakeWhile
import Toolpath.Document.Json.Token
import Toolpath.Document.Json.Writer
import Toolpath.Proofs.Decimal.Digits

/-!
Which tokens a text is split into, built up from its end: what a piece in front adds to the tokens
of the rest.
-/
namespace Toolpath.Json

/-- A text is split into the given tokens, as soon as the fuel covers its characters. -/
def Scans (s : List Char) (tokens : List Token) : Prop :=
  ∀ fuel, s.length ≤ fuel → scanTokens fuel s = some tokens

variable {s r : List Char} {c : Char} {ts : List Token}

theorem Scans.tokens? (h : Scans s ts) : tokens? s = some ts := h _ (Nat.le_refl _)

theorem scans_nil : Scans [] [] := fun fuel _ => by cases fuel <;> rfl

/-- A step of the scanner leaves enough fuel for the rest. -/
theorem scans_cons (h : ∀ fuel, r.length ≤ fuel → scanTokens (fuel + 1) (c :: r) = some ts) :
    Scans (c :: r) ts := by
  intro fuel hfuel
  obtain ⟨n, rfl⟩ := Nat.exists_eq_add_of_le' (Nat.le_trans (Nat.succ_pos r.length) hfuel)
  exact h n (Nat.le_of_succ_le_succ hfuel)

/-- Brackets and marks are tokens of their own. -/
def marks : List (Char × Token) := [('[', .openArray), (']', .closeArray), ('\x7b', .openObject),
  ('\x7d', .closeObject), (',', .comma), (':', .colon)]

theorem Scans.mark {t : Token} (h : Scans r ts) (hc : (c, t) ∈ marks) :
    Scans (c :: r) (t :: ts) := by
  refine scans_cons fun fuel hfuel => ?_
  have hstep : scanTokens (fuel + 1) (c :: r) = (scanTokens fuel r).map (t :: ·) := by
    simp only [marks, List.mem_cons, Prod.mk.injEq, List.not_mem_nil, or_false] at hc
    rcases hc with ⟨rfl, rfl⟩ | ⟨rfl, rfl⟩ | ⟨rfl, rfl⟩ | ⟨rfl, rfl⟩ | ⟨rfl, rfl⟩ | ⟨rfl, rfl⟩ <;>
      rfl
  rw [hstep, h fuel hfuel, Option.map_some]

theorem Scans.blank (h : Scans r ts) (hc : c = ' ' ∨ c = '\n') : Scans (c :: r) ts := by
  refine scans_cons fun fuel hfuel => ?_
  have hstep : scanTokens (fuel + 1) (c :: r) = scanTokens fuel r := by
    rcases hc with rfl | rfl <;> rfl
  rw [hstep, h fuel hfuel]

theorem Scans.blanks (h : Scans r ts) (hs : ∀ c ∈ s, c = ' ' ∨ c = '\n') : Scans (s ++ r) ts := by
  induction s with
  | nil => exact h
  | cons c s ih =>
    obtain ⟨hc, hs⟩ := List.forall_mem_cons.mp hs
    exact (ih hs).blank hc

/-! ### Strings -/

theorem hexDigit?_hexDigit : ∀ n < 16, hexDigit? (hexDigit n) = some n := by decide

theorem ofHex?_hexDigit {n : Nat} (h : n < 0x20) :
    ofHex? ['0', '0', hexDigit (n / 16), hexDigit (n % 16)] = some n := by
  have hhigh := hexDigit?_hexDigit (n / 16) (by omega)
  have hlow := hexDigit?_hexDigit (n % 16) (by omega)
  have hzero : hexDigit? '0' = some 0 := rfl
  simp only [ofHex?, List.foldlM_cons, List.foldlM_nil, hhigh, hlow, hzero, Option.map_some,
    Option.bind_eq_bind, Option.bind_some, Option.pure_def]
  congr 1
  omega

theorem scanCodes_cons (hquote : c ≠ '"') (hslash : c ≠ '\\') (done : List Nat) :
    scanCodes (c :: r) done = if c.toNat < 0x20 then none else scanCodes r (c.toNat :: done) := by
  rw [scanCodes.eq_def]
  split <;> simp_all

theorem scanCodes_escape (c : Char) (r : List Char) (done : List Nat) :
    scanCodes (escape c ++ r) done = scanCodes r (c.toNat :: done) := by
  unfold escape
  split
  iterate 7 rfl
  next hquote hslash _ _ _ _ _ =>
    split
    · next hcontrol =>
      simp only [List.cons_append, List.nil_append]
      rw [scanCodes, ofHex?_hexDigit hcontrol]
    · next hprintable =>
      rw [List.singleton_append, scanCodes_cons hquote hslash, if_neg hprintable]

theorem scanCodes_flatMap_escape (s r : List Char) (done : List Nat) :
    scanCodes (s.flatMap escape ++ '"' :: r) done = some (done.reverse ++ s.map Char.toNat, r) := by
  induction s generalizing done with
  | nil => simp [scanCodes]
  | cons c s ih =>
    rw [List.flatMap_cons, List.append_assoc, scanCodes_escape, ih]
    simp

theorem scanString_escape (t : String) (r : List Char) :
    scanString (t.toList.flatMap escape ++ '"' :: r) = some (.str t, r) := by
  simp [scanString, scanCodes_flatMap_escape, ofCodes?_map_toNat]

theorem toList_quote (t : String) :
    (quote t).toList = '"' :: (t.toList.flatMap escape ++ ['"']) := by
  simp [quote]

theorem Scans.quote (h : Scans r ts) (t : String) :
    Scans ((quote t).toList ++ r) (.leaf (.str t) :: ts) := by
  rw [toList_quote, List.cons_append, List.append_assoc, List.singleton_append]
  refine scans_cons fun fuel hfuel => ?_
  have hrest : r.length ≤ fuel := by
    simp only [List.length_append, List.length_cons] at hfuel
    omega
  have hstep : scanTokens (fuel + 1) ('"' :: (t.toList.flatMap escape ++ '"' :: r)) =
      scanString (t.toList.flatMap escape ++ '"' :: r) >>= fun x =>
        (scanTokens fuel x.2).map (.leaf x.1 :: ·) := rfl
  rw [hstep, scanString_escape]
  simp [h fuel hrest]

/-! ### Numbers -/

/-- A text that is a numeral of a value as a whole. -/
structure NumeralOf (s : List Char) (v : Value) : Prop where
  starts : s.head?.any (fun c => c.isDigit || c == '-')
  chars : ∀ c ∈ s, isNumberChar c
  value : (Numeral.ofChars? s).map Numeral.value = some v

theorem numeralOf_iff (s : List Char) (v : Value) : NumeralOf s v ↔
    s.head?.any (fun c => c.isDigit || c == '-') ∧ s.all isNumberChar ∧
      (Numeral.ofChars? s).map Numeral.value = some v :=
  ⟨fun h => ⟨h.starts, List.all_eq_true.mpr h.chars, h.value⟩,
    fun ⟨h, h', hv⟩ => ⟨h, List.all_eq_true.mp h', hv⟩⟩

/-- No number goes on here. -/
def Ends (r : List Char) : Prop := ∀ c ∈ r.head?, isNumberChar c = false

theorem takeWhile_numeral (hs : ∀ c ∈ s, isNumberChar c) (hr : Ends r) :
    (s ++ r).takeWhile isNumberChar = s ∧ (s ++ r).dropWhile isNumberChar = r := by
  have hend : r.takeWhile isNumberChar = [] ∧ r.dropWhile isNumberChar = r := by
    cases r with
    | nil => exact ⟨rfl, rfl⟩
    | cons c r =>
      have hc := hr c rfl
      exact ⟨List.takeWhile_cons_of_neg (by simp [hc]), List.dropWhile_cons_of_neg (by simp [hc])⟩
  rw [List.takeWhile_append_of_pos hs, List.dropWhile_append_of_pos hs, hend.1, hend.2,
    List.append_nil]
  exact ⟨rfl, rfl⟩

theorem scanTokens_numeral {fuel : Nat} (hc : (c.isDigit || c == '-') = true) :
    scanTokens (fuel + 1) (c :: r) =
      Numeral.ofChars? (c :: r.takeWhile isNumberChar) >>= fun n =>
        (scanTokens fuel (r.dropWhile isNumberChar)).map (.leaf n.value :: ·) := by
  have hmem : c ∈ "-0123456789".toList := by
    rcases Bool.or_eq_true_iff.mp hc with hdigit | hminus
    · exact List.mem_cons_of_mem _ (Decimal.mem_digits_of_isDigit hdigit)
    · exact eq_of_beq hminus ▸ List.mem_cons_self
  have hstep : ∀ d ∈ "-0123456789".toList, scanTokens (fuel + 1) (d :: r) =
      Numeral.ofChars? (d :: r.takeWhile isNumberChar) >>= fun n =>
        (scanTokens fuel (r.dropWhile isNumberChar)).map (.leaf n.value :: ·) := by
    have hlist : "-0123456789".toList =
        ['-', '0', '1', '2', '3', '4', '5', '6', '7', '8', '9'] := rfl
    simp only [hlist, List.forall_mem_cons]
    exact ⟨rfl, rfl, rfl, rfl, rfl, rfl, rfl, rfl, rfl, rfl, rfl, fun _ h => nomatch h⟩
  exact hstep c hmem

theorem Scans.numeral {v : Value} (h : Scans r ts) (hs : NumeralOf s v) (hr : Ends r) :
    Scans (s ++ r) (.leaf v :: ts) := by
  obtain ⟨hstarts, hchars, hvalue⟩ := hs
  cases s with
  | nil => cases hstarts
  | cons c s =>
    obtain ⟨n, hn, hv⟩ := Option.map_eq_some_iff.mp hvalue
    obtain ⟨htake, hdrop⟩ := takeWhile_numeral (List.forall_mem_cons.mp hchars).2 hr
    refine scans_cons fun fuel hfuel => ?_
    change (s ++ r).length ≤ fuel at hfuel
    change scanTokens (fuel + 1) (c :: (s ++ r)) = some (.leaf v :: ts)
    have hrest : r.length ≤ fuel := by
      rw [List.length_append] at hfuel
      omega
    rw [scanTokens_numeral hstarts, htake, hdrop, hn, h fuel hrest, ← hv]
    rfl

/-- Digits, after a minus or not, are a numeral without point and exponent. -/
theorem ofChars?_toDigits (negative : Bool) (n : Nat) :
    Numeral.ofChars? ((if negative then ['-'] else []) ++ Nat.toDigits 10 n) =
      some ⟨negative, Nat.toDigits 10 n, none, none⟩ := by
  have hall : ∀ c ∈ Nat.toDigits 10 n, c.isDigit := fun c => Decimal.isDigit_of_mem_toDigits
  have htake : (Nat.toDigits 10 n).takeWhile Char.isDigit = Nat.toDigits 10 n :=
    List.takeWhile_eq_self_iff.mpr hall
  have hdrop : (Nat.toDigits 10 n).dropWhile Char.isDigit = [] :=
    List.dropWhile_eq_nil_iff.mpr hall
  have hne : (Nat.toDigits 10 n).isEmpty = false :=
    List.isEmpty_eq_false_iff.mpr Nat.toDigits_ne_nil
  have hzero :
      ((Nat.toDigits 10 n).head? == some '0' && (Nat.toDigits 10 n).length ≠ 1) = false := by
    by_cases hn : n = 0
    · subst hn
      rfl
    · rw [beq_false_of_ne (Decimal.head?_toDigits hn), Bool.false_and]
  cases negative with
  | true =>
    simp only [if_true, List.singleton_append, Numeral.ofChars?, htake, hdrop, hne, hzero]
    rfl
  | false =>
    obtain ⟨c, r, hcr⟩ := List.exists_cons_of_ne_nil (Nat.toDigits_ne_nil (n := n) (b := 10))
    have hc : c ≠ '-' := fun hminus => by
      have hdigit := hall c (hcr ▸ List.mem_cons_self)
      rw [hminus] at hdigit
      cases hdigit
    rw [hcr] at htake hdrop hzero ⊢
    simp [Numeral.ofChars?, hc, htake, hdrop]
    simpa using hzero

theorem ofDigits_toDigits (n : Nat) : ofDigits (Nat.toDigits 10 n) = n :=
  Nat.ofDigitChars_ten_toDigits

/-- Whole numbers of 64 bits, with or without a sign, are written as numerals of their own. -/
theorem numeralOf_intRepr {n : Int} (hlow : -0x8000000000000000 ≤ n)
    (hhigh : n < 0x10000000000000000) : NumeralOf (Int.repr n).toList (.int n) := by
  have htext : (Int.repr n).toList =
      (if decide (n < 0) then ['-'] else []) ++ Nat.toDigits 10 n.natAbs := by
    rw [Decimal.toList_intRepr]
    by_cases hn : n < 0 <;> simp [hn]
  obtain ⟨c, r, hcr⟩ := List.exists_cons_of_ne_nil (Decimal.intRepr_ne_nil n)
  refine ⟨?_, fun d hd => ?_, ?_⟩
  · rw [hcr]
    rcases Decimal.isDigit_of_mem_intRepr (hcr ▸ List.mem_cons_self) with rfl | hdigit
    · rfl
    · simp [hdigit]
  · rcases Decimal.isDigit_of_mem_intRepr hd with rfl | hdigit
    · rfl
    · simp [isNumberChar, hdigit]
  · rw [htext, ofChars?_toDigits, Option.map_some, Numeral.value]
    simp only [ofDigits_toDigits, Option.isNone_none, Bool.and_self, Bool.true_and,
      decide_eq_true_eq]
    by_cases hn : n < 0
    · have hwhole : 0 < n.natAbs ∧ n.natAbs ≤ 0x8000000000000000 := by omega
      have hvalue : -(n.natAbs : Int) = n := by omega
      simp only [hn, hwhole, hvalue, and_self, decide_true, if_true]
    · have hwhole : n.natAbs < 0x10000000000000000 := by omega
      have hvalue : (n.natAbs : Int) = n := by omega
      simp only [hn, hwhole, hvalue, decide_true, if_true, if_false]

end Toolpath.Json
