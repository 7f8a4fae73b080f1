import Toolpath.Proofs.Scalar.SignedZero
import Toolpath.Traversal.Frame

/-! Points that compare equal, as a whole or in the XY plane. No placement tells them apart. -/
namespace Toolpath
open Scalar
variable {α : Type} [Scalar α]

namespace Scalar
variable {a b c : α}

@[simp] theorem alike_refl (a : α) : alike a a = true := by
  unfold alike isNaN
  cases a == a <;> rfl

theorem alike_of_beq (h : (a == b) = true) : alike a b = true := by
  unfold alike
  rw [h, Bool.true_or]

theorem beq_of_alike (h : alike a b = true) (ha : isNaN a = false) : (a == b) = true := by
  simpa [alike, ha] using h

variable [PartialEquivBEq α]

theorem isNaN_eq_false_of_beq (h : (a == b) = true) : isNaN a = false := by
  have hself : (a == a) = true := BEq.trans h (BEq.symm h)
  unfold isNaN
  rw [hself, Bool.not_true]

theorem alike_symm (h : alike a b = true) : alike b a = true := by
  rcases Bool.or_eq_true_iff.mp h with h | h
  · exact alike_of_beq (BEq.symm h)
  · exact Bool.or_eq_true_iff.mpr (.inr ((Bool.and_comm _ _).trans h))

theorem alike_trans (h : alike a b = true) (k : alike b c = true) : alike a c = true := by
  rcases Bool.or_eq_true_iff.mp h with hab | hnan
  · have hb := isNaN_eq_false_of_beq (BEq.symm hab)
    exact alike_of_beq (BEq.trans hab (beq_of_alike k hb))
  · obtain ⟨ha, hb⟩ := Bool.and_eq_true_iff.mp hnan
    rcases Bool.or_eq_true_iff.mp k with hbc | hnan
    · rw [isNaN_eq_false_of_beq hbc] at hb
      cases hb
    · have hc := (Bool.and_eq_true_iff.mp hnan).2
      exact Bool.or_eq_true_iff.mpr (.inr (Bool.and_eq_true_iff.mpr ⟨ha, hc⟩))

end Scalar

namespace Vec
variable {a b c : Vec α}

/-- Whether two points have the same X and Y. -/
def sameXY (a b : Vec α) : Bool := a.x == b.x && a.y == b.y

/-- Whether two points have the same X and Y or none at all. -/
def AlikeXY (a b : Vec α) : Prop := Scalar.alike a.x b.x = true ∧ Scalar.alike a.y b.y = true

/-- The point at the height of `p` that is above or below `q`. -/
def movedOver (p q : Vec α) : Vec α := { p with x := q.x, y := q.y }

/-- Whether a coordinate is not a number. -/
protected def isNaN (a : Vec α) : Bool := Scalar.isNaN a.x || Scalar.isNaN a.y || Scalar.isNaN a.z

protected theorem alike_refl (a : Vec α) : a.alike a = true := by simp [alike]

protected theorem alike_of_beq (h : (a == b) = true) : a.alike b = true := by
  obtain ⟨hxy, hz⟩ := Bool.and_eq_true_iff.mp h
  obtain ⟨hx, hy⟩ := Bool.and_eq_true_iff.mp hxy
  rw [alike, Scalar.alike_of_beq hx, Scalar.alike_of_beq hy, Scalar.alike_of_beq hz]
  rfl

protected theorem beq_of_alike (h : a.alike b = true) (ha : a.isNaN = false) :
    (a == b) = true := by
  obtain ⟨hxy, hz⟩ := Bool.and_eq_true_iff.mp h
  obtain ⟨hx, hy⟩ := Bool.and_eq_true_iff.mp hxy
  obtain ⟨hnan, hnanZ⟩ := Bool.or_eq_false_iff.mp ha
  obtain ⟨hnanX, hnanY⟩ := Bool.or_eq_false_iff.mp hnan
  have hbeq : (a == b) = (a.x == b.x && a.y == b.y && a.z == b.z) := rfl
  rw [hbeq, Scalar.beq_of_alike hx hnanX, Scalar.beq_of_alike hy hnanY,
    Scalar.beq_of_alike hz hnanZ]
  rfl

theorem AlikeXY.refl (a : Vec α) : a.AlikeXY a := ⟨alike_refl _, alike_refl _⟩

theorem alikeXY_of_beq (h : (a == b) = true) : a.AlikeXY b := by
  obtain ⟨hxy, -⟩ := Bool.and_eq_true_iff.mp h
  obtain ⟨hx, hy⟩ := Bool.and_eq_true_iff.mp hxy
  exact ⟨alike_of_beq hx, alike_of_beq hy⟩

theorem AlikeXY.sameXY (h : a.AlikeXY b) (hx : isNaN a.x = false) (hy : isNaN a.y = false) :
    a.sameXY b = true :=
  Bool.and_eq_true_iff.mpr ⟨beq_of_alike h.1 hx, beq_of_alike h.2 hy⟩

section
variable [PartialEquivBEq α]

protected theorem beq_symm (h : (a == b) = true) : (b == a) = true := by
  obtain ⟨hxy, hz⟩ := Bool.and_eq_true_iff.mp h
  obtain ⟨hx, hy⟩ := Bool.and_eq_true_iff.mp hxy
  exact Bool.and_eq_true_iff.mpr
    ⟨Bool.and_eq_true_iff.mpr ⟨BEq.symm hx, BEq.symm hy⟩, BEq.symm hz⟩

protected theorem alike_symm (h : a.alike b = true) : b.alike a = true := by
  obtain ⟨hxy, hz⟩ := Bool.and_eq_true_iff.mp h
  obtain ⟨hx, hy⟩ := Bool.and_eq_true_iff.mp hxy
  rw [alike, Scalar.alike_symm hx, Scalar.alike_symm hy, Scalar.alike_symm hz]
  rfl

theorem AlikeXY.symm (h : a.AlikeXY b) : b.AlikeXY a := ⟨alike_symm h.1, alike_symm h.2⟩

theorem AlikeXY.trans (h : a.AlikeXY b) (k : b.AlikeXY c) : a.AlikeXY c :=
  ⟨alike_trans h.1 k.1, alike_trans h.2 k.2⟩

theorem sameXY_symm (h : a.sameXY b = true) : b.sameXY a = true := by
  obtain ⟨hx, hy⟩ := Bool.and_eq_true_iff.mp h
  exact Bool.and_eq_true_iff.mpr ⟨BEq.symm hx, BEq.symm hy⟩

theorem sameXY_trans (h : a.sameXY b = true) (k : b.sameXY c = true) : a.sameXY c = true := by
  obtain ⟨hx, hy⟩ := Bool.and_eq_true_iff.mp h
  obtain ⟨kx, ky⟩ := Bool.and_eq_true_iff.mp k
  exact Bool.and_eq_true_iff.mpr ⟨BEq.trans hx kx, BEq.trans hy ky⟩

end

variable [Congruent α]

theorem dot_alike (r : Vec α) (h : (a == b) = true) :
    Scalar.alike (r.dot a) (r.dot b) = true := by
  obtain ⟨hxy, hz⟩ := Bool.and_eq_true_iff.mp h
  obtain ⟨hx, hy⟩ := Bool.and_eq_true_iff.mp hxy
  have part (k : α) {u v : α} (huv : (u == v) = true) : Scalar.alike (k * u) (k * v) = true :=
    Congruent.mul_alike (alike_refl k) (alike_of_beq huv)
  exact Congruent.add_alike (Congruent.add_alike (part r.x hx) (part r.y hy)) (part r.z hz)

end Vec

/-- Points that compare equal are placed alike. -/
theorem Frame.place_alikeXY [Congruent α] (f : Frame α) {a b : Vec α} (h : (a == b) = true) :
    (f.place a).AlikeXY (f.place b) :=
  ⟨Congruent.add_alike (Vec.dot_alike _ h) (alike_refl _),
    Congruent.add_alike (Vec.dot_alike _ h) (alike_refl _)⟩

end Toolpath
