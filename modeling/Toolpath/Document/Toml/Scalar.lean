import Toolpath.Decimal.Reading
import Toolpath.Document.Value
import Toolpath.Text.Split

/-! Strings, numbers, truth values and dates of TOML texts. -/
namespace Toolpath.Toml

/-- A reading of the front of a text, with what is left of it. -/
abbrev Scan (α : Type) := Option (α × List Char)

def isSpace (c : Char) : Bool := c == ' ' || c == '\t'

/-- Characters that no string and no comment may hold. -/
def isControl (c : Char) : Bool := (c.toNat < 0x20 && c != '\t') || c.toNat == 0x7f

def skipSpaces (s : List Char) : List Char := s.dropWhile isSpace

/-- The end of a line, or nothing. -/
def newline? : List Char → Option (List Char)
  | '\n' :: r => some r
  | '\r' :: '\n' :: r => some r
  | _ => none

/-! ### Strings -/

def hexDigit? (c : Char) : Option Nat :=
  if '0' ≤ c ∧ c ≤ '9' then some (c.toNat - '0'.toNat)
  else if 'a' ≤ c ∧ c ≤ 'f' then some (c.toNat - 'a'.toNat + 10)
  else if 'A' ≤ c ∧ c ≤ 'F' then some (c.toNat - 'A'.toNat + 10)
  else none

/-- The character with a hexadecimal code, which may be no half of a pair. -/
def codePoint? (digits : List Char) : Option Char := do
  let n ← digits.foldlM (fun n c => (hexDigit? c).map (16 * n + ·)) 0
  if n < 0xd800 ∨ 0xe000 ≤ n ∧ n < 0x110000 then some (Char.ofNat n) else none

def escape? : Char → Option Char
  | '"' => some '"'
  | '\\' => some '\\'
  | 'b' => some '\x08'
  | 'f' => some '\x0c'
  | 'n' => some '\n'
  | 'r' => some '\r'
  | 't' => some '\t'
  | _ => none

def finish (done r : List Char) : Scan String := some (String.ofList done.reverse, r)

/-- Whether only blanks are left of the line. -/
def endsLine (s : List Char) : Bool := (newline? (skipSpaces s)).isSome

/-- A string in double quotes, of one line or of several. A backslash at the end of a line drops the
blanks up to the next character, and `dropping` says that this is going on. -/
def scanBasic (multiline : Bool) : List Char → (dropping : Bool) → (done : List Char) → Scan String
  | [], _, _ => none
  | '"' :: '"' :: '"' :: '"' :: '"' :: r, _, done =>
    if multiline then finish ('"' :: '"' :: done) r
    else finish done ('"' :: '"' :: '"' :: '"' :: r)
  | '"' :: '"' :: '"' :: r, _, done =>
    if multiline then
      match r with
      | '"' :: r => finish ('"' :: done) r
      | r => finish done r
    else finish done ('"' :: '"' :: r)
  | '"' :: r, _, done =>
    if multiline then scanBasic multiline r false ('"' :: done) else finish done r
  | '\\' :: 'u' :: a :: b :: c :: d :: r, _, done =>
    match codePoint? [a, b, c, d] with
    | some e => scanBasic multiline r false (e :: done)
    | none => none
  | '\\' :: 'U' :: a :: b :: c :: d :: e :: f :: g :: h :: r, _, done =>
    match codePoint? [a, b, c, d, e, f, g, h] with
    | some e => scanBasic multiline r false (e :: done)
    | none => none
  | '\\' :: c :: r, _, done =>
    match escape? c with
    | some e => scanBasic multiline r false (e :: done)
    | none =>
      if multiline && endsLine (c :: r) then
        if isSpace c || c == '\n' || c == '\r' then scanBasic multiline r true done else none
      else none
  | '\r' :: '\n' :: r, dropping, done =>
    if !multiline then none
    else if dropping then scanBasic multiline r true done
    else scanBasic multiline r false ('\n' :: done)
  | c :: r, dropping, done =>
    if c = '\n' ∧ multiline then
      scanBasic multiline r dropping (if dropping then done else c :: done)
    else if isControl c then none
    else if dropping && isSpace c then scanBasic multiline r true done
    else scanBasic multiline r false (c :: done)

/-- A string in single quotes, of one line or of several, in which nothing is escaped. -/
def scanLiteral (multiline : Bool) : List Char → (done : List Char) → Scan String
  | [], _ => none
  | '\'' :: '\'' :: '\'' :: r, done =>
    if multiline then
      match r with
      | '\'' :: '\'' :: r => finish ('\'' :: '\'' :: done) r
      | '\'' :: r => finish ('\'' :: done) r
      | r => finish done r
    else finish done ('\'' :: '\'' :: r)
  | '\'' :: r, done =>
    if multiline then scanLiteral multiline r ('\'' :: done) else finish done r
  | '\r' :: '\n' :: r, done => if multiline then scanLiteral multiline r ('\n' :: done) else none
  | c :: r, done =>
    if isControl c && !(c == '\n' && multiline) then none
    else scanLiteral multiline r (c :: done)

/-- A line break right after the opening quotes is no part of the string. -/
def afterOpening (s : List Char) : List Char := (newline? s).getD s

/-- A string of any of the four kinds. -/
def scanString : List Char → Scan String
  | '"' :: '"' :: '"' :: r => scanBasic true (afterOpening r) false []
  | '\'' :: '\'' :: '\'' :: r => scanLiteral true (afterOpening r) []
  | '"' :: r => scanBasic false r false []
  | '\'' :: r => scanLiteral false r []
  | _ => none

/-! ### Numbers -/

/-- Digits of a base, with single underscores between them. -/
def digits? (base : Nat) (s : List Char) : Option (List Nat) :=
  let groups := Text.splitAll '_' s
  if groups.all (!·.isEmpty) then
    groups.flatten.mapM fun c => (hexDigit? c).filter (· < base)
  else none

def ofDigits (base : Nat) (digits : List Nat) : Nat := digits.foldl (fun n d => base * n + d) 0

def splitSign : List Char → Option Bool × List Char
  | '-' :: r => (some true, r)
  | '+' :: r => (some false, r)
  | s => (none, s)

/-- Decimal digits without a zero in front of others. -/
def wholeDigits? (s : List Char) : Option (List Nat) :=
  (digits? 10 s).filter fun ds => ds.length ≤ 1 || ds.head? != some 0

/-- A whole number that signed 64 bits hold. -/
def integer? (s : List Char) : Option Int := do
  let n : Int ← match s with
    | '0' :: 'x' :: r => (ofDigits 16 <$> digits? 16 r).map Int.ofNat
    | '0' :: 'o' :: r => (ofDigits 8 <$> digits? 8 r).map Int.ofNat
    | '0' :: 'b' :: r => (ofDigits 2 <$> digits? 2 r).map Int.ofNat
    | s =>
      let (sign, s) := splitSign s
      (ofDigits 10 <$> wholeDigits? s).map fun n => if sign == some true then -(n : Int) else n
  if -0x8000000000000000 ≤ n ∧ n < 0x8000000000000000 then some n else none

/-- What stands before and after the letter that starts an exponent. -/
def splitExponent (s : List Char) : List Char × Option (List Char) :=
  match Text.splitFirst 'e' s with
  | some (a, b) => (a, some b)
  | none => match Text.splitFirst 'E' s with
    | some (a, b) => (a, some b)
    | none => (s, none)

/-- A number with decimals or an exponent, or one of the two words. A positive number may not be too
large to hold. -/
def float? (s : List Char) : Option Float := do
  let (sign, s) := splitSign s
  let negative := sign == some true
  if s = ['i', 'n', 'f'] then return if negative then -1 / 0 else 1 / 0
  if s = ['n', 'a', 'n'] then return 0 / 0
  let (mantissa, exponent) := splitExponent s
  let (whole, decimals) ← match Text.splitFirst '.' mantissa with
    | some (a, b) => do some (← wholeDigits? a, ← digits? 10 b)
    | none => if exponent.isSome then (wholeDigits? mantissa).map (·, []) else none
  let shift : Int ← match exponent with
    | none => some 0
    | some e =>
      let (down, e) := splitSign e
      (ofDigits 10 <$> digits? 10 e).map fun n => if down == some true then -(n : Int) else n
  let x := Decimal.toFloat negative
    ⟨ofDigits 10 (whole ++ decimals), shift - decimals.length⟩
  if x == 1 / 0 then none else some x

/-! ### Dates -/

def number? (s : List Char) : Option Nat := ofDigits 10 <$> s.mapM fun c =>
  if c.isDigit then some (c.toNat - '0'.toNat) else none

def isLeap (year : Nat) : Bool := year % 4 == 0 && (year % 100 != 0 || year % 400 == 0)

def daysIn (year month : Nat) : Nat :=
  if month = 2 then if isLeap year then 29 else 28
  else if month = 4 ∨ month = 6 ∨ month = 9 ∨ month = 11 then 30 else 31

def isDate : List Char → Bool
  | [a, b, c, d, '-', e, f, '-', g, h] =>
    match number? [a, b, c, d], number? [e, f], number? [g, h] with
    | some year, some month, some day =>
      1 ≤ month && month ≤ 12 && 1 ≤ day && day ≤ daysIn year month
    | _, _, _ => false
  | _ => false

def isClock : List Char → Bool
  | [a, b, ':', c, d, ':', e, f] =>
    match number? [a, b], number? [c, d], number? [e, f] with
    | some hour, some minute, some second => hour < 24 && minute < 60 && second ≤ 60
    | _, _, _ => false
  | _ => false

def isTime (s : List Char) : Bool :=
  isClock (s.take 8) && match s.drop 8 with
    | [] => true
    | '.' :: r => !r.isEmpty && r.all Char.isDigit
    | _ => false

def isZone : List Char → Bool
  | ['Z'] => true
  | ['z'] => true
  | [sign, a, b, ':', c, d] =>
    (sign == '+' || sign == '-') && isClock [a, b, ':', c, d, ':', '0', '0']
  | _ => false

/-- A date, a time of day, or both with an optional zone. -/
def isMoment (s : List Char) : Bool :=
  isDate s || isTime s ||
    (isDate (s.take 10) && match s.drop 10 with
      | c :: r =>
        let time := r.takeWhile fun c => c.isDigit || c == ':' || c == '.'
        let zone := r.dropWhile fun c => c.isDigit || c == ':' || c == '.'
        (c == 'T' || c == 't' || c == ' ') && isTime time && (zone.isEmpty || isZone zone)
      | [] => false)

/-! ### Bare values -/

/-- A value without quotes and brackets. -/
def bareValue? (s : List Char) : Option Value :=
  if s = ['t', 'r', 'u', 'e'] then some (.bool true)
  else if s = ['f', 'a', 'l', 's', 'e'] then some (.bool false)
  else match integer? s with
    | some n => some (.int n)
    | none => match float? s with
      | some x => some (.float x)
      | none => if isMoment s then some (.moment (String.ofList s)) else none

def endsBare (c : Char) : Bool :=
  isSpace c || c == ',' || c == ']' || c == '\x7d' || c == '#' || c == '\n' || c == '\r'

/-- The characters of a bare value. A blank may stand between a date and a time. -/
def scanBare (s : List Char) : List Char × List Char :=
  let front := s.takeWhile (!endsBare ·)
  let rest := s.dropWhile (!endsBare ·)
  match rest with
  | ' ' :: a :: r =>
    if isDate front && a.isDigit then
      (front ++ ' ' :: (a :: r).takeWhile (!endsBare ·), (a :: r).dropWhile (!endsBare ·))
    else (front, rest)
  | _ => (front, rest)

end Toolpath.Toml
