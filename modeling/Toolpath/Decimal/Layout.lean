import Toolpath.Decimal.Shortest

/-! How shortest decimals are laid out as text. -/
namespace Toolpath.Decimal

/-- The choices of a text form for binary values. -/
structure Layout where
  tie : Tie
  /-- Least and greatest exponent of the leading digit that is written without an exponent. -/
  positional : Option (Int × Int)
  /-- What follows a whole number written without an exponent. -/
  wholeSuffix : String
  nan : String
  infinity : String

/-- Messages and machine words: no exponent, and a whole number has no point. -/
def Layout.plain : Layout := ⟨.up, none, "", "NaN", "inf"⟩

private def zeros (n : Nat) : String := String.ofList (List.replicate n '0')

/-- Digits with the point in its place. -/
def Layout.positionalText (l : Layout) (d : Decimal) : String :=
  let digits := Nat.repr d.digits
  if 0 ≤ d.exponent then digits ++ zeros d.exponent.toNat ++ l.wholeSuffix
  else
    let places := (-d.exponent).toNat
    let padded := zeros (places + 1 - digits.length) ++ digits
    let whole := padded.length - places
    String.ofList (padded.toList.take whole) ++ "." ++ String.ofList (padded.toList.drop whole)

/-- One digit before the point, and a signed exponent of ten. -/
def exponentText (d : Decimal) : String :=
  let digits := (Nat.repr d.digits).toList
  let e := d.exponent + digits.length - 1
  let head := String.ofList (digits.take 1)
  let tail := if digits.length ≤ 1 then "" else "." ++ String.ofList (digits.drop 1)
  head ++ tail ++ (if e < 0 then "e-" else "e+") ++ Nat.repr e.natAbs

def Layout.text (l : Layout) (d : Decimal) : String :=
  let e := d.exponent + digitCount d.digits - 1
  match l.positional with
  | none => l.positionalText d
  | some (least, greatest) =>
    if d.digits = 0 ∨ least ≤ e ∧ e ≤ greatest then l.positionalText d else exponentText d

private def signed (negative : Bool) (s : String) : String := if negative then "-" ++ s else s

/-- The text of a binary value. The sign of zero is kept. -/
def Layout.write (l : Layout) (x : Float) : String :=
  match Binary.ofFloat x with
  | .nan => l.nan
  | .infinite negative => signed negative l.infinity
  | .finite negative m q => signed negative (l.text (shortest l.tie m q))

end Toolpath.Decimal
