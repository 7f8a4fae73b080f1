import Toolpath.Proofs.Program.Carving

/-! Arcs as the tool sweeps them: each one from where the commands before it leave the tool. -/
namespace Toolpath
open Scalar

/-- A style that writes neither numbers nor comments, for what does not depend on the style. -/
def Style.silent {α : Type} : Style α := ⟨fun _ => "", fun _ => "", .none⟩

/-- An arc with the place that the tool sweeps it from. -/
structure Sweep (α : Type) where
  start : Vec α
  finish : Vec α
  center : Vec α

namespace Sweep
variable {α : Type} [Scalar α]

/-- How far from its center an arc starts, seen from above. -/
def radius (a : Sweep α) : α := (a.start - a.center).normXY

/-- How far from its center an arc ends, seen from above. -/
def finalRadius (a : Sweep α) : α := (a.finish - a.center).normXY

end Sweep

namespace Command
variable {α : Type}

/-- The arc that a command sweeps from a place. -/
def sweep? (position : Vec α) : Command α → Option (Sweep α)
  | .arc _ finish center => some ⟨position, finish, center⟩
  | _ => none

end Command

namespace Machine
variable {α : Type} [Scalar α] {s : Style α}

/-- The arcs among some commands, in order. -/
def sweeps (s : Style α) (m : Machine α) (l : List (Command α)) : List (Sweep α) :=
  m.gather s (fun m c => (c.sweep? m.position).toList) l

theorem sweeps_append (m : Machine α) (a b : List (Command α)) :
    m.sweeps s (a ++ b) = m.sweeps s a ++ (m.run s a).1.sweeps s b := gather_append _ m a b

end Machine

namespace Carve
open Machine

variable {α : Type} [Scalar α] {o : Options α} {s : Style α}

@[simp] theorem sweeps_toSafeHeight (m : Machine α) : m.sweeps s (toSafeHeight o) = [] := rfl

@[simp] theorem sweeps_approach (m : Machine α) (v : Vec α) : m.sweeps s (approach o v) = [] := by
  unfold approach
  rw [sweeps_append]
  split_ifs <;> rfl

end Carve
end Toolpath
