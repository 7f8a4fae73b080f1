import Mathlib.Data.List.TakeWhile
import Toolpath.Proofs.Decimal.Digits
import Toolpath.Proofs.Document.Toml.Strings
import Toolpath.Proofs.Outcome
import Toolpath.Proofs.Text.Pieces

/-! Values of TOML texts that stand without quotes, and the whole numbers among them. -/
namespace Toolpath.Toml
variable {s r : List Char} {v : Value}

/-- No quote and no bracket, which start other values. -/
def startsBare (c : Char) : Bool := c != '"' && c != '\'' && c != '[' && c != '\x7b'

/-- A text that is a value as a whole without quotes and brackets. -/
structure BareText (t : List Char) (v : Value) : Prop where
  starts : t.head?.any startsBare
  chars : t.all (!endsBare ·)
  value : bareValue? t = some v

theorem bareText_iff (t : List Char) (v : Value) : BareText t v ↔
    t.head?.any startsBare ∧ t.all (!endsBare ·) ∧ bareValue? t = some v :=
  ⟨fun h => ⟨h.starts, h.chars, h.value⟩, fun ⟨h, h', hv⟩ => ⟨h, h', hv⟩⟩

theorem scanBare_append (h : ∀ c ∈ s, (!endsBare c) = true) :
    scanBare (s ++ '\n' :: r) = (s, '\n' :: r) := by
  have htake : (s ++ '\n' :: r).takeWhile (!endsBare ·) = s := by
    rw [List.takeWhile_append_of_pos h, List.takeWhile_cons_of_neg (by decide), List.append_nil]
  have hdrop : (s ++ '\n' :: r).dropWhile (!endsBare ·) = '\n' :: r := by
    rw [List.dropWhile_append_of_pos h, List.dropWhile_cons_of_neg (by decide)]
  simp only [scanBare, htake, hdrop]
  rfl

theorem valueText_of_bareText (h : BareText s v) : ValueText s v := by
  obtain ⟨hstarts, hchars, hvalue⟩ := h
  have hall := List.all_eq_true.mp hchars
  cases s with
  | nil => cases hstarts
  | cons c s =>
    refine ⟨fun d hd => ?_, fun n r => ?_⟩
    · have hc := hall c List.mem_cons_self
      obtain rfl := Option.some.inj hd
      simp only [endsBare, Bool.not_eq_true', Bool.or_eq_false_iff] at hc
      exact hc.1.1.1.1.1.1
    · have hscan := scanBare_append hall (r := r)
      have hbare : scanValue (n + 1) maxDepth (c :: s ++ '\n' :: r) =
          (bareValue? (scanBare (c :: s ++ '\n' :: r)).1).map
            (·, (scanBare (c :: s ++ '\n' :: r)).2) := by
        simp only [List.head?_cons, Option.any_some, startsBare, Bool.and_eq_true,
          bne_iff_ne] at hstarts
        obtain ⟨⟨⟨hdouble, hsingle⟩, hbracket⟩, hbrace⟩ := hstarts
        rw [List.cons_append, scanValue]
        · exact fun t h => hdouble (List.cons.inj h).1
        · exact fun t h => hsingle (List.cons.inj h).1
        · exact fun t h => absurd (List.cons.inj h).1 hbracket
        · exact fun t room h => absurd (List.cons.inj h).1 hbracket
        · exact fun t h => absurd (List.cons.inj h).1 hbrace
        · exact fun t room h => absurd (List.cons.inj h).1 hbrace
      rw [hbare, hscan, hvalue, Option.map_some]

/-! ### Whole numbers -/

/-- The values of the digits of a number. -/
def digitValues (n : Nat) : List Nat := (Nat.toDigits 10 n).map fun c => c.toNat - '0'.toNat

theorem ofDigits_digitValues (n : Nat) : ofDigits 10 (digitValues n) = n := by
  rw [ofDigits, digitValues, List.foldl_map]
  exact Nat.ofDigitChars_ten_toDigits

theorem head?_digitValues {n : Nat} (h : n ≠ 0) : (digitValues n).head? ≠ some 0 := by
  intro hzero
  refine Decimal.head?_toDigits h ?_
  rw [digitValues, List.head?_map] at hzero
  obtain ⟨c, hc, hvalue⟩ := Option.map_eq_some_iff.mp hzero
  have hdigit : c.isDigit := Decimal.isDigit_of_mem_toDigits (List.mem_of_mem_head? hc)
  have hrange := Char.isDigit_iff_toNat.mp hdigit
  have hcode : c.toNat = '0'.toNat := by
    have hzero : '0'.toNat = 48 := rfl
    omega
  rw [hc, Char.toNat_inj.mp hcode]

theorem digits?_toDigits (n : Nat) : digits? 10 (Nat.toDigits 10 n) = some (digitValues n) := by
  have hdigit : ∀ c ∈ Nat.toDigits 10 n, c.isDigit := fun c => Decimal.isDigit_of_mem_toDigits
  have hsplit : Text.splitAll '_' (Nat.toDigits 10 n) = [Nat.toDigits 10 n] :=
    Text.splitAll_of_not_mem fun h => by cases hdigit '_' h
  have hne : (Nat.toDigits 10 n).isEmpty = false :=
    List.isEmpty_eq_false_iff.mpr Nat.toDigits_ne_nil
  have hvalues : (Nat.toDigits 10 n).mapM (fun c => (hexDigit? c).filter (· < 10)) =
      some (digitValues n) := by
    refine mapM_eq_some_map fun c hc => ?_
    have hall : "0123456789".toList.all fun c =>
      (hexDigit? c).filter (· < 10) == some (c.toNat - '0'.toNat) := by decide
    exact eq_of_beq (List.all_eq_true.mp hall c (Decimal.mem_digits_of_isDigit (hdigit c hc)))
  simp [digits?, hsplit, hne, hvalues]

theorem wholeDigits?_toDigits (n : Nat) :
    wholeDigits? (Nat.toDigits 10 n) = some (digitValues n) := by
  rw [wholeDigits?, digits?_toDigits, Option.filter_some, if_pos]
  by_cases hn : n = 0
  · subst hn
    rfl
  · simp [head?_digitValues hn]

/-- Without the letters of the other bases a whole number is decimal. -/
theorem integer?_of_decimal (h : ∀ c ∈ s, c ≠ 'x' ∧ c ≠ 'o' ∧ c ≠ 'b') :
    integer? s = ((ofDigits 10 <$> wholeDigits? (splitSign s).2).map fun n =>
      if (splitSign s).1 == some true then -(n : Int) else n).bind fun n =>
        if -0x8000000000000000 ≤ n ∧ n < 0x8000000000000000 then some n else none := by
  unfold integer?
  split
  · exact absurd rfl (h 'x' (by simp)).1
  · exact absurd rfl (h 'o' (by simp)).2.1
  · exact absurd rfl (h 'b' (by simp)).2.2
  · rfl

theorem splitSign_intRepr (n : Int) : splitSign (Int.repr n).toList =
    (if n < 0 then some true else none, Nat.toDigits 10 n.natAbs) := by
  rw [Decimal.toList_intRepr]
  by_cases hn : n < 0
  · rw [if_pos hn, if_pos hn]
    rfl
  · obtain ⟨c, r, hcr⟩ := List.exists_cons_of_ne_nil
      (Nat.toDigits_ne_nil (n := n.natAbs) (b := 10))
    have hc : c.isDigit := Decimal.isDigit_of_mem_toDigits (hcr ▸ List.mem_cons_self)
    rw [if_neg hn, if_neg hn, List.nil_append, hcr, splitSign]
    · exact fun t h => by cases (List.cons.inj h).1 ▸ hc
    · exact fun t h => by cases (List.cons.inj h).1 ▸ hc

theorem integer?_intRepr {n : Int} (hlow : -0x8000000000000000 ≤ n)
    (hhigh : n < 0x8000000000000000) : integer? (Int.repr n).toList = some n := by
  have hletters : ∀ c ∈ (Int.repr n).toList, c ≠ 'x' ∧ c ≠ 'o' ∧ c ≠ 'b' := by
    intro c hc
    have hall : "-0123456789".toList.all fun c => c != 'x' && (c != 'o' && c != 'b') := by decide
    simpa using List.all_eq_true.mp hall c (Decimal.mem_digits_of_mem_intRepr hc)
  have hvalue : (if (if n < 0 then some true else none) == some true then -(n.natAbs : Int)
      else n.natAbs) = n := by
    by_cases hn : n < 0
    · rw [if_pos hn, if_pos (by rfl)]
      omega
    · rw [if_neg hn, if_neg (by decide)]
      omega
  rw [integer?_of_decimal hletters, splitSign_intRepr, wholeDigits?_toDigits, Option.map_eq_map,
    Option.map_some, ofDigits_digitValues]
  change (some (if (if n < 0 then some true else none) == some true then -(n.natAbs : Int)
    else n.natAbs)).bind _ = some n
  rw [hvalue, Option.bind_some, if_pos ⟨hlow, hhigh⟩]

/-- Whole numbers of 64 bits with a sign are written as bare values. -/
theorem bareText_intRepr {n : Int} (hlow : -0x8000000000000000 ≤ n)
    (hhigh : n < 0x8000000000000000) : BareText (Int.repr n).toList (.int n) := by
  have hall : "-0123456789".toList.all fun c =>
    !endsBare c && startsBare c && (c != 't' && c != 'f') := by decide
  have hletters : ∀ c ∈ (Int.repr n).toList,
      ((!endsBare c) = true ∧ startsBare c) ∧ c ≠ 't' ∧ c ≠ 'f' := fun c hc => by
    simpa using List.all_eq_true.mp hall c (Decimal.mem_digits_of_mem_intRepr hc)
  have hvalue : bareValue? (Int.repr n).toList = some (.int n) := by
    rw [bareValue?, if_neg, if_neg, integer?_intRepr hlow hhigh]
    · exact fun h => (hletters 'f' (h ▸ List.mem_cons_self)).2.2 rfl
    · exact fun h => (hletters 't' (h ▸ List.mem_cons_self)).2.1 rfl
  obtain ⟨c, r, hcr⟩ := List.exists_cons_of_ne_nil (Decimal.intRepr_ne_nil n)
  refine ⟨?_, List.all_eq_true.mpr fun c hc => (hletters c hc).1.1, hvalue⟩
  rw [hcr]
  exact (hletters c (hcr ▸ List.mem_cons_self)).1.2

/-! ### Scalars -/

/-- A scalar whose text says everything about it. -/
def Written : Value → Prop
  | .bool _ | .str _ => True
  | .int n => -0x8000000000000000 ≤ n
  | .float x => BareText (numbers.write x).toList (.float x)
  | _ => False

theorem valueText_of_written (hv : Written v) {t : String} (ht : inline v = some t) :
    ValueText t.toList v := by
  match v with
  | .bool true =>
    obtain rfl := Option.some.inj ht
    exact valueText_of_bareText ⟨rfl, rfl, rfl⟩
  | .bool false =>
    obtain rfl := Option.some.inj ht
    exact valueText_of_bareText ⟨rfl, rfl, rfl⟩
  | .int n =>
    rw [inline] at ht
    split at ht
    · next hhigh =>
      obtain rfl := Option.some.inj ht
      exact valueText_of_bareText (bareText_intRepr hv hhigh)
    · cases ht
  | .float x =>
    obtain rfl := Option.some.inj ht
    exact valueText_of_bareText hv
  | .str t =>
    obtain rfl := Option.some.inj ht
    exact valueText_quote t

end Toolpath.Toml
