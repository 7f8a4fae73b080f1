import Toolpath.Proofs.Scalar.Exact
import Toolpath.Proofs.Scalar.Units

/-! The order of the values that are numbers, and the choice of the smaller or the larger one. -/
namespace Toolpath
open Scalar

/-- The values that are numbers stand in one order, those that compare equal at one place of it. -/
class Ordered (α : Type) [Scalar α] : Prop where
  le_total {a b : α} : isNaN a = false → isNaN b = false → a ≤ b ∨ b ≤ a
  le_trans {a b c : α} : a ≤ b → b ≤ c → a ≤ c
  not_lt {a b : α} : isNaN a = false → isNaN b = false → (¬ a < b ↔ b ≤ a)
  beq_iff {a b : α} : (a == b) = true ↔ a ≤ b ∧ b ≤ a

instance ordered_real : Ordered ℝ where
  le_total _ _ := le_total _ _
  le_trans := le_trans
  not_lt _ _ := not_lt
  beq_iff := decide_eq_true_iff.trans le_antisymm_iff

namespace Binary

theorem exists_units {a : Float} (h : isNaN a = false) : ∃ x, units? a = some x := by
  cases ha : units? a with
  | some x => exact ⟨x, rfl⟩
  | none =>
    rw [isNaN_iff.mpr ha] at h
    cases h

end Binary

instance ordered_float : Ordered Float where
  le_total ha hb := by
    obtain ⟨x, hx⟩ := Binary.exists_units ha
    obtain ⟨y, hy⟩ := Binary.exists_units hb
    rw [Binary.le_iff hx hy, Binary.le_iff hy hx]
    exact le_total x y
  le_trans := Binary.float_le_of_le_of_le
  not_lt ha hb := by
    obtain ⟨x, hx⟩ := Binary.exists_units ha
    obtain ⟨y, hy⟩ := Binary.exists_units hb
    exact Binary.not_lt_iff hx hy
  beq_iff {a b} := by
    rw [Binary.beq_iff_exists, Binary.le_iff_exists, Binary.le_iff_exists]
    cases Binary.units? a <;> cases Binary.units? b <;> simp
    omega

/-- Of two numbers the one is chosen that comes first in an order, and the second one of two at the
same place. -/
structure Chooses {α : Type} [Scalar α] (choose : α → α → α) (before : α → α → Prop) : Prop where
  total {a b : α} : isNaN a = false → isNaN b = false → before a b ∨ before b a
  trans {a b c : α} : before a b → before b c → before a c
  left {a b : α} : isNaN a = false → isNaN b = false → ¬ before b a → choose a b = a
  right {a b : α} : isNaN a = false → isNaN b = false → before b a → choose a b = b

namespace Chooses
variable {α : Type} [Scalar α]

theorem lesser [Ordered α] : Chooses (lesser : α → α → α) (· ≤ ·) where
  total := Ordered.le_total
  trans := Ordered.le_trans
  left ha hb h := if_pos (not_not.mp fun hlt => h ((Ordered.not_lt ha hb).mp hlt))
  right ha hb h := by
    rw [Scalar.lesser, if_neg ((Ordered.not_lt ha hb).mpr h), hb]
    rfl

theorem greater [Ordered α] : Chooses (greater : α → α → α) (fun a b => b ≤ a) where
  total ha hb := Ordered.le_total hb ha
  trans hab hbc := Ordered.le_trans hbc hab
  left ha hb h := if_pos (not_not.mp fun hlt => h ((Ordered.not_lt hb ha).mp hlt))
  right ha hb h := by
    rw [Scalar.greater, if_neg ((Ordered.not_lt hb ha).mpr h), hb]
    rfl

variable {choose : α → α → α} {before : α → α → Prop} {a b c : α}

/-- The number chosen is one of the two, and it comes before both. -/
theorem cases (h : Chooses choose before) (ha : isNaN a = false) (hb : isNaN b = false) :
    choose a b = a ∧ before a b ∨ choose a b = b ∧ before b a := by
  by_cases hba : before b a
  · exact .inr ⟨h.right ha hb hba, hba⟩
  · exact .inl ⟨h.left ha hb hba, (h.total ha hb).resolve_right hba⟩

theorem refl (h : Chooses choose before) (ha : isNaN a = false) : before a a :=
  (h.total ha ha).elim id id

theorem assoc (h : Chooses choose before) (ha : isNaN a = false) (hb : isNaN b = false)
    (hc : isNaN c = false) : choose (choose a b) c = choose a (choose b c) := by
  by_cases hba : before b a
  · rw [h.right ha hb hba]
    by_cases hcb : before c b
    · rw [h.right hb hc hcb, h.right ha hc (h.trans hcb hba)]
    · rw [h.left hb hc hcb, h.right ha hb hba]
  · rw [h.left ha hb hba]
    by_cases hcb : before c b
    · rw [h.right hb hc hcb]
    · have hca : ¬ before c a := fun hca =>
        hcb (h.trans hca ((h.total ha hb).resolve_right hba))
      rw [h.left hb hc hcb, h.left ha hb hba, h.left ha hc hca]

end Chooses
end Toolpath
