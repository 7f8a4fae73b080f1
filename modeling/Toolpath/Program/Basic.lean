import Toolpath.Program.Generate
import Toolpath.Program.Machine

/-! Program texts. -/
namespace Toolpath

/-- The program that carves the cuts of a job. Nothing is left of one that fails. -/
def programText (job : Job Float) (o : Options Float) (cuts : List (Cut Float)) :
    Except (CarveError Float) String :=
  match o.check with
  | .error e => .error (.range e)
  | .ok _ =>
    match (Carve.generate o job cuts).run.run #[] with
    | (.error e, _) => .error e
    | (.ok _, log) => .ok (linesText (Machine.initial.run o.style log.toList).2)

end Toolpath
