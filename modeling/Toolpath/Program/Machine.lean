import Toolpath.Decimal.Fixed
import Toolpath.Decimal.Layout
import Toolpath.Program.Command
import Toolpath.Program.Options

/-! The lines that commands write. A straight move writes only the words that change. -/
namespace Toolpath

/-- How numbers and comments are written. -/
structure Style (α : Type) where
  /-- The word of an axis, without its letter. -/
  number : α → String
  /-- The word of a rate. -/
  rate : α → String
  comments : CommentMode

/-- A negative number whose digits are all zero loses its sign. -/
def dropZeroSign (s : String) : String :=
  match s.toList with
  | '-' :: r => if r.all fun c => c == '0' || c == '.' then String.ofList r else s
  | _ => s

/-- A number with a set number of places. -/
def fixedWord (places : Nat) (x : Float) : String := dropZeroSign (Decimal.fixed places x)

def Options.style (o : Options Float) : Style Float :=
  ⟨fixedWord o.fractionDigits, Decimal.Layout.plain.write, o.commentMode⟩

/-- Where the tool is, what the router does, and the last word written for each axis. -/
structure Machine (α : Type) where
  position : Vec α
  phase : Phase := .atSafeHeight
  xWord : Option String := none
  yWord : Option String := none
  zWord : Option String := none
  deriving Repr, Inhabited

namespace Style
variable {α : Type}

/-- The text of a comment. -/
def remarkText (s : Style α) : Remark α → String
  | .text t => t
  | .stepDown z => "Step down to " ++ s.number z
  | .pecked d unit => s.number d ++ unit.abbreviation ++ " hole will be pecked"
  | .circled d unit => s.number d ++ unit.abbreviation ++ " hole will be circles"

/-- A parenthesis inside a comment would end it, so brackets take its place. -/
def bracketed (t : String) : String :=
  String.ofList (t.toList.map fun c => if c = '(' then '[' else if c = ')' then ']' else c)

def commentLines (s : Style α) (t : String) : List String :=
  match s.comments with
  | .none => []
  | .parentheses => ["(" ++ bracketed t ++ ")"]
  | .semicolon => ["; " ++ bracketed t]

/-- The word of an axis, where the axis is set to another word than its last. -/
def changed? (s : Style α) (last : Option String) (value : Option α) : Option String :=
  match value with
  | none => none
  | some v => if last = some (s.number v) then none else some (s.number v)

end Style

namespace Machine
variable {α : Type} [Scalar α]

def initial : Machine α := { position := .zero }

/-- A straight move writes nothing when no word changes. -/
def move (s : Style α) (m : Machine α) (code : String) (t : Target α) :
    Machine α × List String :=
  let x := s.changed? m.xWord t.x
  let y := s.changed? m.yWord t.y
  let z := s.changed? m.zWord t.z
  let words := (x.map (" X" ++ ·)).toList ++ (y.map (" Y" ++ ·)).toList ++
    (z.map (" Z" ++ ·)).toList
  let position := ⟨t.x.getD m.position.x, t.y.getD m.position.y, t.z.getD m.position.z⟩
  ({ m with position, xWord := x <|> m.xWord, yWord := y <|> m.yWord, zWord := z <|> m.zWord },
    if words.isEmpty then [] else [code ++ String.join words])

/-- An arc writes its end, and its center from where the tool is. -/
def arc (s : Style α) (m : Machine α) (counterClockwise : Bool) (finish center : Vec α) :
    Machine α × List String :=
  let x := s.number finish.x
  let y := s.number finish.y
  let line := (if counterClockwise then "G03" else "G02") ++ " X" ++ x ++ " Y" ++ y ++
    " I" ++ s.number (center.x - m.position.x) ++ " J" ++ s.number (center.y - m.position.y)
  let position := { m.position with x := finish.x, y := finish.y }
  ({ m with position, xWord := some x, yWord := some y }, [line])

/-- What a command changes and the lines that it writes. -/
def step (s : Style α) (m : Machine α) : Command α → Machine α × List String
  | .absolute => (m, ["G90"])
  | .system u => (m, [u.word])
  | .feedRate r => (m, ["F" ++ s.rate r])
  | .spindleSpeed r => (m, ["S" ++ s.rate r])
  | .spindleOn => (m, ["M03"])
  | .spindleOff => (m, ["M05"])
  | .pause => (m, ["M00"])
  | .blank => (m, [""])
  | .remark r => (m, s.commentLines (s.remarkText r))
  | .rapid t => m.move s "G00" t
  | .feed t => m.move s "G01" t
  | .arc counterClockwise finish center => m.arc s counterClockwise finish center
  | .enter phase => ({ m with phase }, [])

/-- Runs commands one after another. -/
def run (s : Style α) (m : Machine α) : List (Command α) → Machine α × List String
  | [] => (m, [])
  | c :: rest =>
    let (m', lines) := m.step s c
    let (last, more) := run s m' rest
    (last, lines ++ more)

end Machine

/-- Lines as text, each of them ended. -/
def linesText (lines : List String) : String := String.join (lines.map (· ++ "\n"))

end Toolpath
