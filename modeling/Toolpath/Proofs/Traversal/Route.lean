import Toolpath.Proofs.Outcome
import Toolpath.Traversal.Frame
import Mathlib.Tactic.SplitIfs

/-! The frames on the way down a tree. Where a node stands is decided by the groups around it. -/
namespace Toolpath

/-- A group on the way down: the unit it declares, and the pose that is taken. -/
structure Leg (α : Type) where
  unit : Option Amount
  pose : Pose α

namespace Frame
variable {α : Type} [Scalar α] {f g : Frame α} {leg : Leg α}

/-- The frame of a group's components on a leg. -/
def descend (f : Frame α) (leg : Leg α) : Except (CarveError α) (Frame α) := do
  let base ← CarveError.ofMeasure (f.inUnit leg.unit)
  base.enter leg.pose.toPlacement

/-- The frame below some groups, from the outermost one inward. -/
def along (f : Frame α) : List (Leg α) → Except (CarveError α) (Frame α)
  | [] => .ok f
  | leg :: rest => do
    let child ← f.descend leg
    child.along rest

/-- What a leg leads to. The parent's placement is followed by the change of units, if any, and then
by the pose. -/
inductive Leads (f : Frame α) : Leg α → Frame α → Prop
  | plain {pose : Pose α} (room : f.nesting < nestingLimit) :
    Leads f ⟨none, pose⟩
      { f with placement := f.placement * pose.toPlacement, nesting := f.nesting + 1 }
  | inUnit {a : Amount} {pose : Pose α} {unit ratio : Ratio} (room : f.nesting < nestingLimit)
      (decoded : f.job.decode a = .ok unit) (divided : unit.div f.unitScale = .ok ratio) :
    Leads f ⟨some a, pose⟩
      { f with
        placement := f.placement * .scale ratio.toScalar * pose.toPlacement
        unitScale := unit
        nesting := f.nesting + 1 }

theorem enter_eq_ok {pose : Placement α} :
    f.enter pose = .ok g ↔ f.nesting < nestingLimit ∧
      g = { f with placement := f.placement * pose, nesting := f.nesting + 1 } := by
  unfold enter
  split_ifs with h
  · have hroom : ¬ f.nesting < nestingLimit := by omega
    simp [hroom]
  · have hroom : f.nesting < nestingLimit := by omega
    simp [hroom, eq_comm]

theorem rebase_eq_ok {unit : Ratio} :
    f.rebase unit = .ok g ↔ ∃ ratio, unit.div f.unitScale = .ok ratio ∧
      g = { f with placement := f.placement * .scale ratio.toScalar, unitScale := unit } := by
  constructor
  · intro h
    obtain ⟨ratio, hr, h⟩ := exists_of_bind_eq_ok h
    exact ⟨ratio, hr, (Except.ok.inj h).symm⟩
  · rintro ⟨ratio, hr, rfl⟩
    unfold rebase
    rw [hr]
    rfl

theorem inUnit_some_eq_ok {a : Amount} :
    f.inUnit (some a) = .ok g ↔ ∃ unit, f.job.decode a = .ok unit ∧ f.rebase unit = .ok g := by
  constructor
  · intro h
    obtain ⟨unit, hu, h⟩ := exists_of_bind_eq_ok h
    exact ⟨unit, hu, h⟩
  · rintro ⟨unit, hu, h⟩
    change (f.job.decode a >>= fun value => f.rebase value) = .ok g
    rw [hu]
    exact h

theorem descend_of_inUnit {base : Frame α} (h : f.inUnit leg.unit = .ok base) :
    f.descend leg = base.enter leg.pose.toPlacement := by
  unfold descend
  rw [h]
  rfl

theorem descend_eq_ok : f.descend leg = .ok g ↔ f.Leads leg g := by
  obtain ⟨unit, pose⟩ := leg
  constructor
  · intro h
    cases hb : f.inUnit unit with
    | error e =>
      unfold descend at h
      rw [hb] at h
      cases h
    | ok base =>
      rw [descend_of_inUnit hb, enter_eq_ok] at h
      obtain ⟨room, rfl⟩ := h
      cases unit with
      | none =>
        obtain rfl : f = base := Except.ok.inj hb
        exact .plain room
      | some a =>
        obtain ⟨unit, decoded, hr⟩ := inUnit_some_eq_ok.mp hb
        obtain ⟨ratio, divided, rfl⟩ := rebase_eq_ok.mp hr
        exact .inUnit room decoded divided
  · intro h
    cases h with
    | plain room => exact enter_eq_ok.mpr ⟨room, rfl⟩
    | inUnit room decoded divided =>
      have hr := rebase_eq_ok.mpr ⟨_, divided, rfl⟩
      have hb := inUnit_some_eq_ok.mpr ⟨_, decoded, hr⟩
      rw [descend_of_inUnit hb]
      exact enter_eq_ok.mpr ⟨room, rfl⟩

theorem along_cons_eq_ok {rest : List (Leg α)} :
    f.along (leg :: rest) = .ok g ↔ ∃ child, f.Leads leg child ∧ child.along rest = .ok g := by
  constructor
  · intro h
    obtain ⟨child, hc, h⟩ := exists_of_bind_eq_ok h
    exact ⟨child, descend_eq_ok.mp hc, h⟩
  · rintro ⟨child, hc, h⟩
    rw [along, descend_eq_ok.mpr hc]
    exact h

/-- What every leg of a kind keeps holds at the end of a route of such legs. -/
theorem of_along {P : Frame α → Prop} {kind : Leg α → Prop} {route : List (Leg α)}
    (leads : ∀ {f l g}, P f → kind l → f.Leads l g → P g) (hf : P f)
    (hroute : ∀ l ∈ route, kind l) (hg : f.along route = .ok g) : P g := by
  induction route generalizing f with
  | nil => exact Except.ok.inj hg ▸ hf
  | cons l rest ih =>
    obtain ⟨hl, hrest⟩ := List.forall_mem_cons.mp hroute
    obtain ⟨child, hchild, hg⟩ := along_cons_eq_ok.mp hg
    exact ih (leads hf hl hchild) hrest hg

end Frame
end Toolpath
