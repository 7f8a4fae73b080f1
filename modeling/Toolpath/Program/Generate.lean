import Toolpath.Program.Carve

/-! The commands of whole programs. What was issued before an error is kept. -/
namespace Toolpath

/-- The commands issued so far. -/
abbrev Log (α : Type) := Array (Command α)

namespace Carve
variable {α : Type}

/-- Issues the commands of a block. -/
def perform {β : Type} (b : Block α β) : Action (Log α) (CarveError α) β := do
  modify (· ++ b.commands.toArray)
  match b.result with
  | .ok x => pure x
  | .error e => throw e

variable [Scalar α]

def backend (o : Options α) : Backend α (Log α) (CarveError α) where
  comment _ text := perform (.issue [.remark (.text text)])
  trace f p := perform (path o f p)
  hole f diameter := perform (hole o f diameter)
  pocket f p := perform (pocket o f p)
  pause _ := perform (.issue [.pause])
  refuse e := e

/-- Setup, the cuts in order, shutdown. -/
def generate (o : Options α) (job : Job α) (cuts : List (Cut α)) :
    Action (Log α) (CarveError α) Unit := do
  perform (setup o job)
  (backend o).visitAll (.root job) cuts
  perform (.issue (shutdown o))

end Carve
end Toolpath
