import Toolpath.Geometry.Placement

/-! Arithmetic on numbers that compare equal. In binary floating point they differ at most in the
sign of a zero, and so do their sums and products. -/
namespace Toolpath
open Float.Model Scalar

/-- Numbers whose equality is symmetric and transitive, and whose sums and products are alike where
their parts are. -/
class Congruent (α : Type) [Scalar α] : Prop extends PartialEquivBEq α where
  add_alike {a b c d : α} : alike a b = true → alike c d = true → alike (a + c) (b + d) = true
  mul_alike {a b c d : α} : alike a b = true → alike c d = true → alike (a * c) (b * d) = true

/-- The same value, or two zeros. -/
inductive UnpackedAlike : UnpackedFloat → UnpackedFloat → Prop
  | same (x : UnpackedFloat) : UnpackedAlike x x
  | zeros (s t : UnpackedFloat.Sign) : UnpackedAlike (.zero s) (.zero t)

namespace UnpackedAlike
variable {x y z w : UnpackedFloat}

theorem eq_of_compare_then {e k : Int} {m n : Nat}
    (h : (compare e k).then (compare m n) = .eq) : e = k ∧ m = n := by
  obtain ⟨he, hm⟩ := Ordering.then_eq_eq.mp h
  exact ⟨Std.LawfulEqCmp.eq_of_compare he, Std.LawfulEqCmp.eq_of_compare hm⟩

theorem of_beq (h : x.beq y = true) : UnpackedAlike x y := by
  have hc : x.compare y = some .eq := eq_of_beq h
  cases x with
  | notANumber => cases hc
  | zero s =>
    cases y with
    | zero t => exact .zeros s t
    | notANumber => cases hc
    | infinity t => cases t <;> cases hc
    | finite t m e hm => cases t <;> cases hc
  | infinity s =>
    cases y with
    | infinity t =>
      cases s <;> cases t <;> first | exact .same _ | cases hc
    | notANumber => cases s <;> cases hc
    | zero t => cases s <;> cases hc
    | finite t m e hm => cases s <;> cases hc
  | finite s m e hm =>
    cases y with
    | notANumber => cases s <;> cases hc
    | zero t => cases s <;> cases hc
    | infinity t => cases s <;> cases t <;> cases hc
    | finite t n k hn =>
      cases s with
      | negative =>
        cases t with
        | negative =>
          obtain ⟨rfl, rfl⟩ := eq_of_compare_then (Ordering.swap_eq_eq.mp (Option.some.inj hc))
          exact .same _
        | positive => cases hc
      | positive =>
        cases t with
        | negative => cases hc
        | positive =>
          obtain ⟨rfl, rfl⟩ := eq_of_compare_then (Option.some.inj hc)
          exact .same _

theorem beq_or_isNaN (h : UnpackedAlike x y) :
    x.beq y = true ∨ x = .notANumber ∧ y = .notANumber := by
  cases h with
  | zeros s t => exact .inl rfl
  | same =>
    cases x with
    | notANumber => exact .inr ⟨rfl, rfl⟩
    | zero s => exact .inl rfl
    | infinity s => cases s <;> exact .inl rfl
    | finite s m e hm =>
      have hself : (compare e e).then (compare m m) = .eq := by simp
      cases s with
      | positive => exact .inl (congrArg (fun c : Ordering => some c == some Ordering.eq) hself)
      | negative =>
        exact .inl (congrArg (fun c : Ordering => some c.swap == some Ordering.eq) hself)

theorem add (spec : Format) (h : UnpackedAlike x y) (k : UnpackedAlike z w) :
    UnpackedAlike (x.add spec z) (y.add spec w) := by
  cases h with
  | same =>
    cases k with
    | same => exact .same _
    | zeros u v =>
      cases x with
      | notANumber => exact .same _
      | infinity s => exact .same _
      | zero s => cases s <;> cases u <;> cases v <;> first | exact .same _ | exact .zeros _ _
      | finite s m e hm => exact .same _
  | zeros s t =>
    cases k with
    | zeros u v =>
      cases s <;> cases t <;> cases u <;> cases v <;> first | exact .same _ | exact .zeros _ _
    | same =>
      cases z with
      | notANumber => exact .same _
      | infinity u => exact .same _
      | zero u => cases s <;> cases t <;> cases u <;> first | exact .same _ | exact .zeros _ _
      | finite u m e hm => exact .same _

theorem mul (spec : Format) (h : UnpackedAlike x y) (k : UnpackedAlike z w) :
    UnpackedAlike (x.mul spec z) (y.mul spec w) := by
  cases h with
  | same =>
    cases k with
    | same => exact .same _
    | zeros u v =>
      cases x with
      | notANumber => exact .same _
      | infinity s => exact .same _
      | zero s => exact .zeros _ _
      | finite s m e hm => exact .zeros _ _
  | zeros s t =>
    cases k with
    | zeros u v => exact .zeros _ _
    | same =>
      cases z with
      | notANumber => exact .same _
      | infinity u => exact .same _
      | zero u => exact .zeros _ _
      | finite u m e hm => exact .zeros _ _

/-- Both zeros are kept by the format. -/
theorem repack (h : UnpackedAlike x y) :
    UnpackedAlike (Float.Model.pack x).unpack (Float.Model.pack y).unpack := by
  cases h with
  | same => exact .same _
  | zeros s t => cases s <;> cases t <;> first | exact .same _ | exact .zeros _ _

theorem beq_symm (h : x.beq y = true) : y.beq x = true := by
  cases of_beq h with
  | same => exact h
  | zeros s t => rfl

theorem beq_trans (h : x.beq y = true) (k : y.beq z = true) : x.beq z = true := by
  cases of_beq h with
  | same => exact k
  | zeros s t =>
    cases of_beq k with
    | same => rfl
    | zeros t u => rfl

end UnpackedAlike

theorem alike_float {a b : Float} :
    alike a b = true ↔ UnpackedAlike a.toModel.unpack b.toModel.unpack := by
  have hnan {c : Float} : isNaN c = true ↔ c.toModel.unpack = .notANumber := by
    constructor
    · intro h
      have hself : c.toModel.unpack.beq c.toModel.unpack = false := Bool.not_eq_true' _ ▸ h
      rcases (UnpackedAlike.same c.toModel.unpack).beq_or_isNaN with hc | hc
      · rw [hself] at hc
        cases hc
      · exact hc.1
    · intro h
      change (!c.toModel.unpack.beq c.toModel.unpack) = true
      rw [h]
      rfl
  constructor
  · intro h
    rcases Bool.or_eq_true_iff.mp h with h | h
    · exact .of_beq h
    · obtain ⟨ha, hb⟩ := Bool.and_eq_true_iff.mp h
      rw [hnan.mp ha, hnan.mp hb]
      exact .same _
  · intro h
    refine Bool.or_eq_true_iff.mpr (h.beq_or_isNaN.imp id fun hn => ?_)
    exact Bool.and_eq_true_iff.mpr ⟨hnan.mpr hn.1, hnan.mpr hn.2⟩

instance congruent_float : Congruent Float where
  symm h := UnpackedAlike.beq_symm h
  trans h k := UnpackedAlike.beq_trans h k
  add_alike h k := alike_float.mpr ((alike_float.mp h).add _ (alike_float.mp k)).repack
  mul_alike h k := alike_float.mpr ((alike_float.mp h).mul _ (alike_float.mp k)).repack

end Toolpath
