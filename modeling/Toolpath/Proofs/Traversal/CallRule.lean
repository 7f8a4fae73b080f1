import Toolpath.Proofs.Outcome
import Toolpath.Proofs.Traversal.Itinerary
import Mathlib.Tactic.SplitIfs

/-! What is handed down a cut tree from frame to frame holds of every call that the traversal
makes. -/
namespace Toolpath

/-- A property of frames that is handed down a tree, and one of calls that follows from it at the
node that makes the call. -/
structure CallRule {α : Type} [Scalar α] (P : Frame α → Prop) (Q : Call α → Prop) : Prop where
  inUnit : ∀ {f unit g}, P f → f.inUnit unit = .ok g → P g
  enter : ∀ {f pose g}, P f → f.enter pose = .ok g → P g
  comment : ∀ {f} text, P f → Q (.comment f text)
  trace : ∀ {f p} depth, P f → p.check = .ok () → Q (.trace (f.sink depth) p)
  hole : ∀ {f} depth diameter, P f → Q (.hole (f.sink depth) diameter)
  pocket : ∀ {f} p, P f → Q (.pocket f p)
  pause : ∀ {f}, P f → Q (.pause f)

namespace CallRule
variable {α : Type} [Scalar α] {P : Frame α → Prop} {Q : Call α → Prop}

mutual
theorem of_mem_itinerary (h : CallRule P Q) {f : Frame α} (hf : P f) (cut : Cut α)
    {c : Call α} (hc : c ∈ (cut.itinerary f).calls) : Q c := by
  rw [Cut.itinerary.eq_def] at hc
  rcases Itinerary.mem_calls_append hc with hc | hc
  · cases hr : cut.comment with
    | none => simp [hr, Itinerary.remark] at hc
    | some text =>
      simp only [hr, Itinerary.remark, Itinerary.single, List.mem_singleton] at hc
      exact hc ▸ h.comment text hf
  match cut with
  | .group poses components unit _ =>
    dsimp only at hc
    cases hu : f.inUnit unit with
    | error e => simp [hu, Itinerary.stopped] at hc
    | ok base =>
      simp only [hu] at hc
      obtain ⟨it, hit, hc⟩ := Itinerary.mem_calls_join hc
      obtain ⟨pose, -, rfl⟩ := List.mem_map.mp hit
      cases he : base.enter pose.toPlacement with
      | error e => simp [he, Itinerary.stopped] at hc
      | ok child =>
        simp only [he] at hc
        exact of_mem_itineraryAll h (h.enter (h.inUnit hf hu) he) components hc
  | .trace path depth _ _ =>
    cases hp : path.check with
    | error e => simp [hp, Itinerary.stopped] at hc
    | ok _ =>
      simp only [hp, Itinerary.single, List.mem_singleton] at hc
      exact hc ▸ h.trace depth hf hp
  | .hole diameter depth _ =>
    simp only [Itinerary.single, List.mem_singleton] at hc
    exact hc ▸ h.hole depth diameter hf
  | .pocket p _ =>
    simp only [Itinerary.single, List.mem_singleton] at hc
    exact hc ▸ h.pocket p hf
  | .pause _ =>
    simp only [Itinerary.single, List.mem_singleton] at hc
    exact hc ▸ h.pause hf
termination_by structural cut

theorem of_mem_itineraryAll (h : CallRule P Q) {f : Frame α} (hf : P f) (cuts : List (Cut α))
    {c : Call α} (hc : c ∈ (Cut.itineraryAll f cuts).calls) : Q c := by
  match cuts with
  | [] => simp [Cut.itineraryAll] at hc
  | cut :: rest =>
    rw [Cut.itineraryAll] at hc
    rcases Itinerary.mem_calls_append hc with hc | hc
    · exact of_mem_itinerary h hf cut hc
    · exact of_mem_itineraryAll h hf rest hc
termination_by structural cuts
end

end CallRule

section
variable {α : Type} [Scalar α]

namespace Frame

theorem job_of_rebase {f g : Frame α} {unit : Ratio} (h : f.rebase unit = .ok g) :
    g.job = f.job := by
  obtain ⟨ratio, -, h⟩ := exists_of_bind_eq_ok h
  rw [← Except.ok.inj h]

theorem job_of_inUnit {f g : Frame α} {unit : Option Amount} (h : f.inUnit unit = .ok g) :
    g.job = f.job := by
  cases unit with
  | none => rw [Except.ok.inj h]
  | some a =>
    obtain ⟨value, -, h⟩ := exists_of_bind_eq_ok h
    exact job_of_rebase h

theorem job_of_enter {f g : Frame α} {pose : Placement α} (h : f.enter pose = .ok g) :
    g.job = f.job := by
  unfold enter at h
  split_ifs at h
  rw [← Except.ok.inj h]

@[simp] theorem job_sink (f : Frame α) (depth : Depth α) : (f.sink depth).job = f.job := by
  unfold sink
  split
  · rfl
  · split_ifs <;> rfl

end Frame

/-- All calls of a job's cuts are about that job. -/
theorem Job.callRule (job : Job α) :
    CallRule (fun f => f.job = job) (fun c => c.frame.job = job) where
  inUnit hf h := (Frame.job_of_inUnit h).trans hf
  enter hf h := (Frame.job_of_enter h).trans hf
  comment _ hf := hf
  trace depth hf _ := (Frame.job_sink _ depth).trans hf
  hole depth _ hf := (Frame.job_sink _ depth).trans hf
  pocket _ hf := hf
  pause hf := hf

theorem Job.frame_job {job : Job α} {cuts : List (Cut α)} {c : Call α}
    (h : c ∈ (job.itinerary cuts).calls) : c.frame.job = job :=
  job.callRule.of_mem_itineraryAll rfl cuts h

/-- Paths are handed on only when they refer to vertices that they have, in any frame. -/
theorem CallRule.checked : CallRule (fun _ : Frame α => True)
    (fun c => ∀ f p, c = .trace f p → p.check = .ok ()) where
  inUnit _ _ := trivial
  enter _ _ := trivial
  comment _ _ := by simp
  trace _ _ hp := by
    rintro _ _ ⟨⟩
    exact hp
  hole _ _ _ := by simp
  pocket _ _ := by simp
  pause _ := by simp

theorem Cut.check_traced {f g : Frame α} {cuts : List (Cut α)} {p : Path α}
    (h : .trace g p ∈ (Cut.itineraryAll f cuts).calls) : p.check = .ok () :=
  CallRule.checked.of_mem_itineraryAll trivial cuts h g p rfl

theorem Job.check_traced {job : Job α} {cuts : List (Cut α)} {f : Frame α} {p : Path α}
    (h : .trace f p ∈ (job.itinerary cuts).calls) : p.check = .ok () :=
  Cut.check_traced h

end

end Toolpath
