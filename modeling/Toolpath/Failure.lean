/-! Failures of a whole run, told from what was attempted down to the first cause. -/
namespace Toolpath

structure Failure where
  attempt : String
  /-- From the nearest cause to the first. -/
  causes : List String := []
  deriving Repr, DecidableEq, Inhabited

namespace Failure

/-- Everything in one line. -/
def message (f : Failure) : String := String.intercalate ": " (f.attempt :: f.causes)

/-- The attempt and below it the causes, with numbers if there are several. -/
def report (f : Failure) : String :=
  let indented := match f.causes with
    | [cause] => ["    " ++ cause]
    | causes => causes.mapIdx fun i cause => "    " ++ Nat.repr i ++ ": " ++ cause
  let below := if f.causes.isEmpty then [] else "" :: "Caused by:" :: indented
  String.intercalate "\n" (("Error: " ++ f.attempt) :: below)

/-- What was attempted when an error arose. -/
def during {ε α : Type} (attempt : String) (causes : ε → List String) :
    Except ε α → Except Failure α
  | .ok a => .ok a
  | .error e => .error ⟨attempt, causes e⟩

end Failure
end Toolpath
