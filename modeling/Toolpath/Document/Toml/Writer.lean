import Toolpath.Decimal.Layout
import Toolpath.Document.Value

/-! TOML texts of tables of tables, the tables separated by blank lines. -/
namespace Toolpath.Toml

/-- No exponent, and a whole number keeps a point. -/
def numbers : Decimal.Layout := ⟨.up, none, ".0", "nan", "inf"⟩

/-- The same in messages, which spell out that something is not a number in their own way. -/
def messageNumbers : Decimal.Layout := { numbers with nan := "NaN" }

/-- The longest run of a character. -/
def longestRun (c : Char) (s : List Char) : Nat :=
  (s.foldl (fun (best, now) d => if d = c then (max best (now + 1), now + 1) else (best, 0))
    (0, 0)).1

def upperHex (n : Nat) : Char := Char.ofNat (if n < 10 then 48 + n else 55 + n)

/-- How one character is written between double quotes. -/
def escape (multiline : Bool) (c : Char) : List Char :=
  match c with
  | '"' => ['\\', '"']
  | '\\' => ['\\', '\\']
  | '\x08' => ['\\', 'b']
  | '\t' => ['\\', 't']
  | '\n' => if multiline then ['\n'] else ['\\', 'n']
  | '\x0c' => ['\\', 'f']
  | '\r' => ['\\', 'r']
  | c =>
    if c.toNat < 0x20 ∨ c.toNat = 0x7f then
      ['\\', 'u', '0', '0', upperHex (c.toNat / 16), upperHex (c.toNat % 16)]
    else [c]

/-- What stands between double quotes. Between tripled ones two quotes may stand as they are, and
`quotes` of them have just been written; the third one is escaped. -/
def basicText (multiline : Bool) : (quotes : Nat) → List Char → List Char
  | _, [] => []
  | quotes, c :: r =>
    if c = '"' ∧ multiline ∧ quotes < 2 then c :: basicText multiline (quotes + 1) r
    else escape multiline c ++ basicText multiline 0 r

/-- In the first of these forms that needs no escape: between double quotes, between single quotes,
and either of them tripled; else escaped, double quotes being tripled around several lines. -/
def quote (t : String) : String :=
  let s := t.toList
  let codes := s.any fun c => (c.toNat < 0x20 && c != '\t' && c != '\n') || c.toNat == 0x7f
  let slash := s.contains '\\'
  let lines := s.contains '\n'
  let doubles := longestRun '"' s
  let singles := longestRun '\'' s
  let opening := if lines then "\n" else ""
  let basic := "\"" ++ String.ofList (basicText false 0 s) ++ "\""
  let tripled := "\"\"\"" ++ opening ++ String.ofList (basicText true 0 s) ++ "\"\"\""
  if !codes && !slash && doubles = 0 && !lines then basic
  else if !codes && singles = 0 && !lines then "'" ++ t ++ "'"
  else if !codes && !slash && doubles ≤ 2 then tripled
  else if !codes && singles ≤ 2 then "'''" ++ opening ++ t ++ "'''"
  else if lines then tripled
  else basic

/-- A value in one line. -/
def inline : Value → Option String
  | .bool b => some (if b then "true" else "false")
  | .int n => if n < 0x8000000000000000 then some (Int.repr n) else none
  | .float x => some (numbers.write x)
  | .str s => some (quote s)
  | .moment text => some text
  | _ => none

def writeMembers (m : List (String × Value)) : Option String := do
  let lines ← m.mapM fun (k, v) => do some (k ++ " = " ++ (← inline v) ++ "\n")
  some (String.join lines)

/-- A header and the members below it. -/
def writeSection : String × Value → Option String
  | (name, .obj m) => do some ("[" ++ name ++ "]\n" ++ (← writeMembers m))
  | _ => none

/-- Nothing where a whole number is too large or a table is nested deeper. -/
def write? : Value → Option String
  | .obj sections => do some (String.intercalate "\n" (← sections.mapM writeSection))
  | _ => none

end Toolpath.Toml
