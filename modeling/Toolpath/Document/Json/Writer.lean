import Toolpath.Decimal.Layout
import Toolpath.Document.Value

/-! JSON texts of values, in one line or indented by two spaces for each level. -/
namespace Toolpath.Json

/-- A whole number keeps a point, and digits stand without an exponent from `1e-5` up to `1e16`. -/
def numbers : Decimal.Layout := ⟨.toEven, some (-5, 15), ".0", "null", "null"⟩

/-- A number that is not finite has no form of its own. -/
def floatText (x : Float) : String := if x.isFinite then numbers.write x else "null"

def hexDigit (n : Nat) : Char := Char.ofNat (if n < 10 then 48 + n else 87 + n)

/-- How one character is written inside quotes. -/
def escape (c : Char) : List Char :=
  match c with
  | '"' => ['\\', '"']
  | '\\' => ['\\', '\\']
  | '\x08' => ['\\', 'b']
  | '\x0c' => ['\\', 'f']
  | '\n' => ['\\', 'n']
  | '\r' => ['\\', 'r']
  | '\t' => ['\\', 't']
  | c =>
    if c.toNat < 0x20 then ['\\', 'u', '0', '0', hexDigit (c.toNat / 16), hexDigit (c.toNat % 16)]
    else [c]

def quote (s : String) : String := "\"" ++ String.ofList (s.toList.flatMap escape) ++ "\""

mutual
/-- The text without any blanks. -/
def compact : Value → String
  | .null => "null"
  | .bool b => if b then "true" else "false"
  | .int n => Int.repr n
  | .float x => floatText x
  | .str s => quote s
  | .moment text => quote text
  | .defect _ => "null"
  | .arr elements => "[" ++ String.intercalate "," (compactElements elements) ++ "]"
  | .tables elements => "[" ++ String.intercalate "," (compactElements elements) ++ "]"
  | .obj members => "\x7b" ++ String.intercalate "," (compactMembers members) ++ "\x7d"

def compactElements : List Value → List String
  | [] => []
  | v :: r => compact v :: compactElements r

def compactMembers : List (String × Value) → List String
  | [] => []
  | (k, v) :: r => (quote k ++ ":" ++ compact v) :: compactMembers r
end

/-- Parts on lines of their own between two brackets, one level further in. -/
def block (indent : String) (left right : String) (parts : List String) : String :=
  if parts.isEmpty then left ++ right
  else
    let inner := "\n" ++ indent ++ "  "
    left ++ inner ++ String.intercalate ("," ++ inner) parts ++ "\n" ++ indent ++ right

mutual
/-- The text with one part a line, `indent` being in front of the line it starts on. -/
def prettyAt (indent : String) : Value → String
  | .arr elements => block indent "[" "]" (prettyElements (indent ++ "  ") elements)
  | .tables elements => block indent "[" "]" (prettyElements (indent ++ "  ") elements)
  | .obj members => block indent "\x7b" "\x7d" (prettyMembers (indent ++ "  ") members)
  | v => compact v

def prettyElements (indent : String) : List Value → List String
  | [] => []
  | v :: r => prettyAt indent v :: prettyElements indent r

def prettyMembers (indent : String) : List (String × Value) → List String
  | [] => []
  | (k, v) :: r => (quote k ++ ": " ++ prettyAt indent v) :: prettyMembers indent r
end

def pretty (v : Value) : String := prettyAt "" v

end Toolpath.Json
