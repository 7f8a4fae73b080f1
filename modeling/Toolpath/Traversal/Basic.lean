import Toolpath.Traversal.Frame

/-! Cut trees handed to a backend leaf by leaf, each leaf with the frame that it stands in. -/
namespace Toolpath

/-- An action on a state that is kept when the action fails. -/
abbrev Action (σ ε : Type) := ExceptT ε (StateM σ)

/-- What is done with the nodes of a tree. -/
structure Backend (α σ ε : Type) where
  comment : Frame α → String → Action σ ε Unit
  trace : Frame α → Path α → Action σ ε Unit
  hole : Frame α → (diameter : α) → Action σ ε Unit
  pocket : Frame α → Pocket α → Action σ ε Unit
  pause : Frame α → Action σ ε Unit
  /-- How an error of the traversal itself is reported. -/
  refuse : CarveError α → ε

namespace Backend
variable {α σ ε : Type}

/-- A result of the traversal itself. -/
def lift {β : Type} (b : Backend α σ ε) : Except (CarveError α) β → Action σ ε β
  | .ok a => pure a
  | .error e => throw (b.refuse e)

variable [Scalar α]

mutual
/-- Visits a node and all below it, its comment coming first. A path is checked before it is
traced. A group's components are visited once for each of its poses. -/
def visit (b : Backend α σ ε) (f : Frame α) (cut : Cut α) : Action σ ε Unit := do
  match cut.comment with
  | some text => b.comment f text
  | none => pure ()
  match cut with
  | .group poses components unit _ => do
    let base ← b.lift (CarveError.ofMeasure (f.inUnit unit))
    poses.forM fun pose => do
      visitAll b (← b.lift (base.enter pose.toPlacement)) components
  | .trace path depth _ _ => do
    b.lift path.check
    b.trace (f.sink depth) path
  | .hole diameter depth _ => b.hole (f.sink depth) diameter
  | .pocket p _ => b.pocket f p
  | .pause _ => b.pause f
termination_by structural cut

/-- Visits the nodes in order, all in one frame. -/
def visitAll (b : Backend α σ ε) (f : Frame α) (cuts : List (Cut α)) : Action σ ε Unit :=
  match cuts with
  | [] => pure ()
  | cut :: rest => do
    visit b f cut
    visitAll b f rest
termination_by structural cuts
end

end Backend
end Toolpath
