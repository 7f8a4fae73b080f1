/-! The values that documents hold, in the order in which they are written. -/
namespace Toolpath

/-- What a text may hold where it is skipped, though no value can be made of it. -/
inductive Defect where
  /-- A string in which half of a surrogate pair stands alone. -/
  | string
  /-- A member that has such a string for its key. -/
  | member
  deriving Repr, DecidableEq, Inhabited

/-- A document value. Whole numbers are kept apart from binary ones, and members keep their order
and any repeated keys. -/
inductive Value where
  | null
  | bool (b : Bool)
  | int (n : Int)
  | float (x : Float)
  | str (s : String)
  /-- A date, a time of day, or both, as it is written. -/
  | moment (text : String)
  | arr (elements : List Value)
  /-- An array of tables, each of them below a header of its own. -/
  | tables (elements : List Value)
  | obj (members : List (String × Value))
  | defect (d : Defect)
  deriving Repr, Inhabited

namespace Value

mutual
/-- How many arrays and objects enclose the innermost part, the value itself included. -/
def depth : Value → Nat
  | .arr elements => depthElements elements + 1
  | .tables elements => depthElements elements + 1
  | .obj members => depthMembers members + 1
  | _ => 0

def depthElements : List Value → Nat
  | [] => 0
  | v :: r => max v.depth (depthElements r)

def depthMembers : List (String × Value) → Nat
  | [] => 0
  | (_, v) :: r => max v.depth (depthMembers r)
end

mutual
/-- Whether every binary number is bounded and no part has a defect. -/
def isSound : Value → Bool
  | .float x => x.isFinite
  | .arr elements => areSound elements
  | .tables elements => areSound elements
  | .obj members => membersSound members
  | .defect _ => false
  | _ => true

def areSound : List Value → Bool
  | [] => true
  | v :: r => v.isSound && areSound r

def membersSound : List (String × Value) → Bool
  | [] => true
  | (_, v) :: r => v.isSound && membersSound r
end

end Value
end Toolpath
