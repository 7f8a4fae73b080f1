import Toolpath.Decimal.Reading
import Toolpath.Document.Value

/-! The tokens of JSON texts. -/
namespace Toolpath.Json

/-- A bracket, a mark or a value without parts. -/
inductive Token where
  | openArray | closeArray | openObject | closeObject | comma | colon
  | leaf (v : Value)
  deriving Repr, Inhabited

def isSpace (c : Char) : Bool := c == ' ' || c == '\n' || c == '\t' || c == '\r'

def hexDigit? (c : Char) : Option Nat :=
  if '0' ≤ c ∧ c ≤ '9' then some (c.toNat - '0'.toNat)
  else if 'a' ≤ c ∧ c ≤ 'f' then some (c.toNat - 'a'.toNat + 10)
  else if 'A' ≤ c ∧ c ≤ 'F' then some (c.toNat - 'A'.toNat + 10)
  else none

/-- The number that hexadecimal digits write. -/
def ofHex? (s : List Char) : Option Nat :=
  s.foldlM (fun n c => (hexDigit? c).map (16 * n + ·)) 0

/-- The character after a backslash in place of the one it stands for. -/
def escape? : Char → Option Char
  | '"' => some '"'
  | '\\' => some '\\'
  | '/' => some '/'
  | 'b' => some '\x08'
  | 'f' => some '\x0c'
  | 'n' => some '\n'
  | 'r' => some '\r'
  | 't' => some '\t'
  | _ => none

/-- The characters with the given codes. Two halves of a surrogate pair make one character, and a
half that stands alone makes none. -/
def ofCodes? : List Nat → Option (List Char)
  | [] => some []
  | [n] => if 0xd800 ≤ n ∧ n < 0xe000 then none else some [Char.ofNat n]
  | n :: low :: r =>
    if 0xd800 ≤ n ∧ n < 0xdc00 ∧ 0xdc00 ≤ low ∧ low < 0xe000 then
      (ofCodes? r).map (Char.ofNat (0x10000 + (n - 0xd800) * 0x400 + (low - 0xdc00)) :: ·)
    else if 0xd800 ≤ n ∧ n < 0xe000 then none
    else (ofCodes? (low :: r)).map (Char.ofNat n :: ·)

theorem ofCodes?_cons (c : Char) (codes : List Nat) :
    ofCodes? (c.toNat :: codes) = (ofCodes? codes).map (c :: ·) := by
  have hc : ¬ (0xd800 ≤ c.toNat ∧ c.toNat < 0xe000) := by
    have h := c.valid
    simp only [UInt32.isValidChar, Nat.isValidChar] at h
    simp only [Char.toNat]
    omega
  cases codes with
  | nil => simp [ofCodes?, hc]
  | cons low r => rw [ofCodes?, if_neg (by omega), if_neg hc, Char.ofNat_toNat]

/-- The codes of characters give these characters again. -/
theorem ofCodes?_map_toNat (s : List Char) : ofCodes? (s.map Char.toNat) = some s := by
  induction s with
  | nil => rfl
  | cons c r ih => simp [ofCodes?_cons, ih]

/-- Reads codes up to the closing quote; an escape may write a half of a surrogate pair. -/
def scanCodes : List Char → (done : List Nat) → Option (List Nat × List Char)
  | [], _ => none
  | '"' :: r, done => some (done.reverse, r)
  | '\\' :: 'u' :: a :: b :: c :: d :: r, done =>
    match ofHex? [a, b, c, d] with
    | some n => scanCodes r (n :: done)
    | none => none
  | '\\' :: c :: r, done =>
    match escape? c with
    | some e => scanCodes r (e.toNat :: done)
    | none => none
  | c :: r, done => if c.toNat < 0x20 then none else scanCodes r (c.toNat :: done)

/-- Reads a string after its opening quote. -/
def scanString (s : List Char) : Option (Value × List Char) :=
  (scanCodes s []).map fun (codes, r) =>
    match ofCodes? codes with
    | some text => (.str (String.ofList text), r)
    | none => (.defect .string, r)

def isNumberChar (c : Char) : Bool :=
  c.isDigit || c == '+' || c == '-' || c == '.' || c == 'e' || c == 'E'

def ofDigits (s : List Char) : Nat := s.foldl (fun n c => 10 * n + (c.toNat - '0'.toNat)) 0

/-- The parts of a number: sign, whole digits, decimals and exponent. -/
structure Numeral where
  negative : Bool
  whole : List Char
  decimals : Option (List Char)
  exponent : Option (Bool × List Char)

/-- Takes a number apart. No part may be empty, and a zero in front stands alone. -/
def Numeral.ofChars? (s : List Char) : Option Numeral :=
  let (negative, s) := match s with
    | '-' :: r => (true, r)
    | s => (false, s)
  let whole := s.takeWhile Char.isDigit
  let s := s.dropWhile Char.isDigit
  let (decimals, s) := match s with
    | '.' :: r => (some (r.takeWhile Char.isDigit), r.dropWhile Char.isDigit)
    | s => (none, s)
  let (exponent, s) := match s with
    | c :: r =>
      if c = 'e' ∨ c = 'E' then
        let (down, r) := match r with
          | '-' :: r => (true, r)
          | '+' :: r => (false, r)
          | r => (false, r)
        (some (down, r.takeWhile Char.isDigit), r.dropWhile Char.isDigit)
      else (none, s)
    | [] => (none, s)
  let leadingZero := whole.head? == some '0' && whole.length ≠ 1
  let complete := !whole.isEmpty && decimals.all (!·.isEmpty) && exponent.all (!·.2.isEmpty)
  if s.isEmpty && complete && !leadingZero then some ⟨negative, whole, decimals, exponent⟩
  else none

/-- A number without point and exponent is whole if 64 bits hold it; minus zero is not. A number
beyond the binary range is infinite. -/
def Numeral.value (n : Numeral) : Value :=
  let whole := ofDigits n.whole
  let isWhole := n.decimals.isNone && n.exponent.isNone &&
    if n.negative then decide (0 < whole ∧ whole ≤ 0x8000000000000000)
    else decide (whole < 0x10000000000000000)
  if isWhole then .int (if n.negative then -whole else whole)
  else
    let decimals := n.decimals.getD []
    let (down, exponent) := n.exponent.getD (false, [])
    let shift : Int := if down then -ofDigits exponent else ofDigits exponent
    .float (Decimal.toFloat n.negative ⟨ofDigits (n.whole ++ decimals), shift - decimals.length⟩)

/-- Splits a text into tokens, at most `fuel` of them and blanks. -/
def scanTokens : (fuel : Nat) → List Char → Option (List Token)
  | _, [] => some []
  | 0, _ => none
  | fuel + 1, c :: r =>
    let leaf (t : Token) (r : List Char) := (scanTokens fuel r).map (t :: ·)
    match c, r with
    | '[', r => leaf .openArray r
    | ']', r => leaf .closeArray r
    | '{', r => leaf .openObject r
    | '}', r => leaf .closeObject r
    | ',', r => leaf .comma r
    | ':', r => leaf .colon r
    | '"', r => scanString r >>= fun (v, rest) => leaf (.leaf v) rest
    | 't', 'r' :: 'u' :: 'e' :: r => leaf (.leaf (.bool true)) r
    | 'f', 'a' :: 'l' :: 's' :: 'e' :: r => leaf (.leaf (.bool false)) r
    | 'n', 'u' :: 'l' :: 'l' :: r => leaf (.leaf .null) r
    | c, r =>
      if isSpace c then scanTokens fuel r
      else if c.isDigit || c == '-' then
        Numeral.ofChars? (c :: r.takeWhile isNumberChar) >>= fun n =>
          leaf (.leaf n.value) (r.dropWhile isNumberChar)
      else none

def tokens? (s : List Char) : Option (List Token) := scanTokens s.length s

end Toolpath.Json
