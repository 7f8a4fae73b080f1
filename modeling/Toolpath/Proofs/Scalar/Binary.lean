import Toolpath.Scalar

/-! Order of binary floating point. -/
namespace Toolpath
open Float.Model

/-- No value is below itself, whether it is a number or not. -/
theorem unpackedFloat_lt_irrefl (x : UnpackedFloat) : x.lt x = false := by
  cases x with
  | notANumber => rfl
  | infinity s => cases s <;> rfl
  | zero s => rfl
  | finite s m e h =>
    have hself : (compare e e).then (compare m m) = .eq := by simp
    cases s with
    | positive => exact congrArg (fun c => some c == some Ordering.lt) hself
    | negative => exact congrArg (fun c => some c.swap == some Ordering.lt) hself

instance irrefl_float : Std.Irrefl (fun a b : Float => a < b) where
  irrefl a h := by
    have hm : a.toModel.unpack.lt a.toModel.unpack = true := of_decide_eq_true h
    rw [unpackedFloat_lt_irrefl] at hm
    cases hm

end Toolpath
