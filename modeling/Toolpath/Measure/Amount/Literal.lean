import Toolpath.Measure.Amount
import Toolpath.Measure.Ratio.Literal
import Toolpath.Text.Letter

/-!
Written amounts: terms joined by `+`, each a fraction followed by a unit, as in `1+1/2in+3mm`.
A piece without a unit belongs to the fraction of the next piece that has one.
-/
namespace Toolpath.Amount
open Text

/-- Whether a unit may start with this character. -/
def startsUnit (c : Char) : Bool := isLetter c || c == '"'

/-- The number in front of a term and the unit behind it. -/
def splitUnit (term : List Char) : List Char × List Char :=
  (term.takeWhile (!startsUnit ·), term.dropWhile (!startsUnit ·))

/-- Reads the pieces between the `+` marks; `pending` is the fraction of the term under way. -/
def readTerms (malformed : MeasureError) :
    List (List Char) → (pending : List Char) → Amount → Except MeasureError Amount
  | [], pending, amount =>
    if !pending.isEmpty || amount.isEmpty then .error malformed else .ok amount
  | piece :: rest, pending, amount =>
    let (number, unit) := splitUnit (trim piece)
    let pending := (if pending.isEmpty then [] else pending ++ ['+']) ++ number
    if unit.isEmpty then readTerms malformed rest pending amount
    else if (trim number).isEmpty then .error malformed
    else do
      let value ← Ratio.read pending
      let term ← Amount.new (String.ofList (trim unit)) value
      readTerms malformed rest [] (← amount.add term)

def read (input : List Char) : Except MeasureError Amount :=
  readTerms (.malformedAmount (String.ofList input)) (splitAll '+' (trim input)) [] {}

/-- The amount that a text writes. -/
def parse (s : String) : Except MeasureError Amount := read s.toList

end Toolpath.Amount
