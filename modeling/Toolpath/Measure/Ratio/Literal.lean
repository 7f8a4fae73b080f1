import Toolpath.Measure.Ratio
import Toolpath.Text.Blank
import Toolpath.Text.Split

/-!
Written fractions: sums of quotients of decimals, as in `1+1/2` or `-0.125`. White space may
surround every piece, and a leading sign belongs to the first decimal.
-/
namespace Toolpath.Ratio
open Text

/-- The first `+` that is not a sign in front. -/
def splitSum : List Char → Option (List Char × List Char)
  | [] => none
  | c :: r => (splitFirst '+' r).map fun (a, b) => (c :: a, b)

theorem length_lt_of_splitSum {s a b : List Char} (h : splitSum s = some (a, b)) :
    a.length < s.length ∧ b.length < s.length := by
  cases s with
  | nil => simp [splitSum] at h
  | cons c r =>
    obtain ⟨⟨x, y⟩, hr, hxy⟩ := Option.map_eq_some_iff.1 h
    obtain ⟨rfl, rfl⟩ := Prod.mk.inj hxy
    have := (eq_of_splitFirst hr).1
    subst this
    simp only [List.length_cons, List.length_append]
    omega

theorem length_lt_of_splitLast {m : Char} {s a b : List Char} (h : splitLast m s = some (a, b)) :
    a.length < s.length ∧ b.length < s.length := by
  have := (eq_of_splitLast h).1
  subst this
  simp only [List.length_cons, List.length_append]
  omega

/-- One or more ASCII digits. -/
def areDigits (s : List Char) : Bool := !s.isEmpty && s.all Char.isDigit

/-- The number that ASCII digits write in base ten. -/
def ofDigits (s : List Char) : Nat := s.foldl (fun n c => 10 * n + (c.toNat - '0'.toNat)) 0

/-- A sign and what follows it. -/
def splitSign : List Char → Bool × List Char
  | '-' :: r => (true, r)
  | '+' :: r => (false, r)
  | s => (false, s)

/-- Whole digits and, after a point, the decimals. -/
def splitPoint (s : List Char) : List Char × Option (List Char) :=
  match splitFirst '.' s with
  | some (ones, decimals) => (ones, some decimals)
  | none => (s, none)

/-- The value of digits of which the last `places` are decimals: at most 38 of them, with digits
that write a signed 128-bit integer. -/
def ofDecimal (negative : Bool) (n places : Nat) : Except MeasureError Ratio :=
  if 38 < places ∨ 0x80000000000000000000000000000000 ≤ n then .error .outOfRange
  else reduce (if negative then -n else n) (Nat.pow 10 places)

/-- A sign, digits and decimals after a point. -/
def readDecimal (s : List Char) : Option (Except MeasureError Ratio) :=
  let (negative, digits) := splitSign s
  let (ones, decimals) := splitPoint digits
  if areDigits ones && decimals.all areDigits then
    some (ofDecimal negative (ofDigits (ones ++ decimals.getD [])) (decimals.getD []).length)
  else none

/-- Reads a sum, a quotient or a decimal. The error of an unreadable decimal holds the piece with
the white space that no enclosing piece has dropped. -/
def read (input : List Char) : Except MeasureError Ratio :=
  match _ : splitSum (trim input) with
  | some (a, b) => do
    let x ← read a
    let y ← read b
    x.add y
  | none =>
    match _ : splitLast '/' (trim input) with
    | some (a, b) => do
      let x ← read a
      let y ← read b
      x.div y
    | none =>
      (readDecimal (trim input)).getD (.error (.malformedNumber (String.ofList input)))
termination_by input.length
decreasing_by
  · exact Nat.lt_of_lt_of_le (length_lt_of_splitSum ‹_›).1 (length_trim_le input)
  · exact Nat.lt_of_lt_of_le (length_lt_of_splitSum ‹_›).2 (length_trim_le input)
  · exact Nat.lt_of_lt_of_le (length_lt_of_splitLast ‹_›).1 (length_trim_le input)
  · exact Nat.lt_of_lt_of_le (length_lt_of_splitLast ‹_›).2 (length_trim_le input)

/-- The fraction that a text writes. -/
def parse (s : String) : Except MeasureError Ratio := read s.toList

end Toolpath.Ratio
