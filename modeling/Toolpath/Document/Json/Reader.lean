import Toolpath.Document.Json.Token

/-! JSON texts read as values, by a stack of the arrays and objects that are still open. -/
namespace Toolpath.Json

/-- An open array or object. Its parts stand in reverse, and a member waits for its value. A key
with a defect is nothing. -/
inductive Frame where
  | array (done : List Value)
  | object (done : List (String × Value)) (key : Option String)
  deriving Repr, Inhabited

/-- What may follow, above the arrays and objects that are open. -/
inductive State where
  | value (stack : List Frame)
  | firstElement (stack : List Frame)
  | nextElement (done : List Value) (stack : List Frame)
  | firstKey (stack : List Frame)
  | key (done : List (String × Value)) (stack : List Frame)
  | colon (done : List (String × Value)) (key : Option String) (stack : List Frame)
  | nextMember (done : List (String × Value)) (stack : List Frame)
  | complete (v : Value)
  deriving Repr, Inhabited

/-- A member, whose value is of no use without a key. -/
def member (key : Option String) (v : Value) : String × Value :=
  match key with
  | some k => (k, v)
  | none => ("", .defect .member)

/-- Where reading stands after a whole value. -/
def State.after (v : Value) : List Frame → State
  | [] => .complete v
  | .array done :: stack => .nextElement (v :: done) stack
  | .object done k :: stack => .nextMember (member k v :: done) stack

/-- Starts a value, which is over at once if it has no parts. -/
def State.begin (stack : List Frame) : Token → Option State
  | .openArray => some (.firstElement stack)
  | .openObject => some (.firstKey stack)
  | .leaf v => some (.after v stack)
  | _ => none

def State.step : State → Token → Option State
  | .value stack, t => begin stack t
  | .firstElement stack, .closeArray => some (.after (.arr []) stack)
  | .firstElement stack, t => begin (.array [] :: stack) t
  | .nextElement done stack, .comma => some (.value (.array done :: stack))
  | .nextElement done stack, .closeArray => some (.after (.arr done.reverse) stack)
  | .firstKey stack, .closeObject => some (.after (.obj []) stack)
  | .firstKey stack, .leaf (.str k) => some (.colon [] (some k) stack)
  | .firstKey stack, .leaf (.defect .string) => some (.colon [] none stack)
  | .key done stack, .leaf (.str k) => some (.colon done (some k) stack)
  | .key done stack, .leaf (.defect .string) => some (.colon done none stack)
  | .colon done k stack, .colon => some (.value (.object done k :: stack))
  | .nextMember done stack, .comma => some (.key done stack)
  | .nextMember done stack, .closeObject => some (.after (.obj done.reverse) stack)
  | _, _ => none

/-- The value that a text writes. How deep it may be nested is for its user to say. -/
def read? (s : String) : Option Value := do
  let tokens ← tokens? s.toList
  match ← tokens.foldlM State.step (.value []) with
  | .complete v => some v
  | _ => none

end Toolpath.Json
