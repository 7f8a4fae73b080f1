import Toolpath.Cut.Basic

/-! Groups that lie in each other. -/
namespace Toolpath.Cut
variable {α : Type}

mutual
/-- The most groups that lie in each other. -/
def nesting : Cut α → Nat
  | .group _ components _ _ => nestingAll components + 1
  | _ => 0

def nestingAll : List (Cut α) → Nat
  | [] => 0
  | c :: r => max c.nesting (nestingAll r)
end

/-- A node of a tree lies in some groups of the tree, listed from the innermost one outward. -/
inductive Within (cuts : List (Cut α)) : List (Cut α) → Cut α → Prop
  | top {node : Cut α} (mem : node ∈ cuts) : Within cuts [] node
  | inner {groups : List (Cut α)} {poses : List (Pose α)} {components : List (Cut α)}
      {unit : Option Amount} {comment : Option String} {node : Cut α}
      (group : Within cuts groups (.group poses components unit comment))
      (mem : node ∈ components) : Within cuts (.group poses components unit comment :: groups) node

theorem nesting_le_of_mem {c : Cut α} {cuts : List (Cut α)} (h : c ∈ cuts) :
    c.nesting ≤ nestingAll cuts := by
  induction cuts with
  | nil => cases h
  | cons d rest ih =>
    rw [nestingAll]
    obtain rfl | h := List.mem_cons.mp h
    · exact Nat.le_max_left _ _
    · exact Nat.le_trans (ih h) (Nat.le_max_right _ _)

/-- The groups around a node and those in it lie in each other. -/
theorem Within.nesting_le {cuts groups : List (Cut α)} {node : Cut α} (h : Within cuts groups node) :
    groups.length + node.nesting ≤ nestingAll cuts := by
  induction h with
  | top mem =>
    rw [List.length_nil, Nat.zero_add]
    exact nesting_le_of_mem mem
  | inner group mem ih =>
    have hnode := nesting_le_of_mem mem
    rw [nesting] at ih
    rw [List.length_cons]
    omega

/-- A cut in so many groups, each of them at one pose. -/
def nested [Scalar α] (cut : Cut α) : Nat → Cut α
  | 0 => cut
  | n + 1 => .wrap [cut.nested n] (.offset 0 0)

end Toolpath.Cut
