import Toolpath.Decimal.Binary

/-! Binary values with a set number of decimal places. -/
namespace Toolpath.Decimal

/-- The whole number nearest to `n / d`, a half going to the even neighbour. -/
def roundEven (n d : Nat) : Nat :=
  let q := n / d
  match compare (2 * (n % d)) d with
  | .lt => q
  | .gt => q + 1
  | .eq => if q % 2 = 0 then q else q + 1

/-- `n / 10 ^ places`, with all its places and no point when there are none. -/
def placesText (places n : Nat) : String :=
  let digits := Nat.toDigits 10 n
  let padded := List.replicate (places + 1 - digits.length) '0' ++ digits
  let whole := padded.length - places
  String.ofList (padded.take whole) ++
    if places = 0 then "" else "." ++ String.ofList (padded.drop whole)

/-- The exact value `m · 2 ^ q` in units of the last place. -/
def inPlaces (places m : Nat) (q : Int) : Nat :=
  roundEven (m * Nat.pow 2 q.toNat * Nat.pow 10 places) (Nat.pow 2 (-q).toNat)

/-- The text of the nearest multiple of the last place. The sign of the value is kept. -/
def fixed (places : Nat) (x : Float) : String :=
  match Binary.ofFloat x with
  | .nan => "NaN"
  | .infinite negative => if negative then "-inf" else "inf"
  | .finite negative m q =>
    (if negative then "-" else "") ++ placesText places (inPlaces places m q)

end Toolpath.Decimal
