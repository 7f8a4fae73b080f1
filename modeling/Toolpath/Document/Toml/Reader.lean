import Toolpath.Document.Toml.Scalar
import Toolpath.Document.Toml.Tree

/-! TOML texts read as values. -/
namespace Toolpath.Toml

/-- How many arrays and inline tables may stand inside each other, and how many parts form a key. -/
def maxDepth : Nat := 79

/-- A comment up to the end of its line, or nothing. -/
def skipComment : List Char → Option (List Char)
  | '#' :: r =>
    let text := r.takeWhile fun c => !isControl c
    some (r.drop text.length)
  | s => some s

/-- What may follow a finished line: blanks, a comment, and the end of the line or of the text. -/
def endLine? (s : List Char) : Option (List Char) := do
  let s ← skipComment (skipSpaces s)
  if s.isEmpty then some [] else newline? s

/-- Blanks, line breaks and comments, as they may stand inside an array. -/
def skipLines : (fuel : Nat) → List Char → List Char
  | 0, s => s
  | fuel + 1, s =>
    match skipComment (skipSpaces s) with
    | some s => match newline? s with
      | some r => skipLines fuel r
      | none => s
    | none => s

def isKeyChar (c : Char) : Bool := c.isAlphanum || c == '_' || c == '-'

/-- One part of a key, bare or in quotes. -/
def scanKeyPart (s : List Char) : Scan String :=
  match s with
  | '"' :: r => scanBasic false r false []
  | '\'' :: r => scanLiteral false r []
  | s =>
    let key := s.takeWhile isKeyChar
    if key.isEmpty then none else some (String.ofList key, s.drop key.length)

/-- Parts joined by dots. -/
def scanKeyParts : (fuel : Nat) → List Char → Option (List String × List Char)
  | 0, _ => none
  | fuel + 1, s => do
    let (part, s) ← scanKeyPart (skipSpaces s)
    match skipSpaces s with
    | '.' :: r => do
      let (parts, s) ← scanKeyParts fuel r
      some (part :: parts, s)
    | s => some ([part], s)

/-- A plain or a dotted key. -/
def scanKey (s : List Char) : Option (List String × List Char) :=
  (scanKeyParts s.length s).filter fun (parts, _) => parts.length ≤ maxDepth

/-- A key and the sign that separates it from its value. -/
def scanKeySign (s : List Char) : Option (List String × List Char) := do
  let (key, s) ← scanKey s
  match s with
  | '=' :: r => some (key, skipSpaces r)
  | _ => none

mutual
/-- A value, in which `room` more arrays and inline tables may stand inside each other. -/
def scanValue : (fuel room : Nat) → List Char → Option (Value × List Char)
  | 0, _, _ => none
  | fuel + 1, room, s =>
    match s, room with
    | '"' :: _, _ => (scanString s).map fun (t, r) => (.str t, r)
    | '\'' :: _, _ => (scanString s).map fun (t, r) => (.str t, r)
    | '[' :: _, 0 => none
    | '[' :: r, room + 1 => (scanElements fuel room r).map fun (l, r) => (.arr l, r)
    | '\x7b' :: _, 0 => none
    | '\x7b' :: r, room + 1 =>
      match skipSpaces r with
      | '\x7d' :: r => some (.obj [], r)
      | r => (scanMembers fuel room r []).map fun (m, r) => (.obj (membersToValue m), r)
    | s, _ =>
      let (front, r) := scanBare s
      (bareValue? front).map (·, r)

/-- Elements up to the closing bracket, which a comma may precede. -/
def scanElements : (fuel room : Nat) → List Char → Option (List Value × List Char)
  | 0, _, _ => none
  | fuel + 1, room, s =>
    match skipLines s.length s with
    | ']' :: r => some ([], r)
    | s => do
      let (v, r) ← scanValue fuel room s
      match skipLines r.length r with
      | ']' :: r => some ([v], r)
      | ',' :: r => (scanElements fuel room r).map fun (l, r) => (v :: l, r)
      | _ => none

/-- Members up to the closing brace, all in one line. -/
def scanMembers : (fuel room : Nat) → List Char → (done : Members) → Option (Members × List Char)
  | 0, _, _, _ => none
  | fuel + 1, room, s, done => do
    let (key, s) ← scanKeySign s
    let (v, r) ← scanValue fuel room s
    let done ← assign (.value v) key done
    match skipSpaces r with
    | '\x7d' :: r => some (done, r)
    | ',' :: r => scanMembers fuel room r done
    | _ => none
end

/-- Opens the table that a path names. -/
def openPath (f : String → Members → Option Members) (path : List String) (m : Members) :
    Option Members :=
  match path.getLast? with
  | some last => within (f last) path.dropLast m
  | none => none

/-- Lines one after another; `path` is that of the header above them. -/
def readLines : (fuel : Nat) → (path : List String) → Members → List Char → Option Members
  | 0, _, m, s => if s.isEmpty then some m else none
  | fuel + 1, path, m, s =>
    match skipSpaces s with
    | [] => some m
    | '[' :: '[' :: r => do
      let (key, r) ← scanKey r
      match r with
      | ']' :: ']' :: r => readLines fuel key (← openPath openElement key m) (← endLine? r)
      | _ => none
    | '[' :: r => do
      let (key, r) ← scanKey r
      match r with
      | ']' :: r => readLines fuel key (← openPath openTable key m) (← endLine? r)
      | _ => none
    | s =>
      if s.head?.any fun c => c == '#' || c == '\n' || c == '\r' then do
        readLines fuel path m (← endLine? s)
      else do
        let (key, s) ← scanKeySign s
        let (v, r) ← scanValue s.length maxDepth s
        readLines fuel path (← within (assign (.value v) key) path m) (← endLine? r)

/-- The table that a text writes, which a byte order mark may start. -/
def read? (s : String) : Option Value :=
  let s := match s.toList with
    | '\ufeff' :: r => r
    | s => s
  (readLines (s.length + 1) [] [] s).map fun m => .obj (membersToValue m)

end Toolpath.Toml
