import Toolpath.Proofs.Traversal.Rescaled
import Toolpath.Proofs.Job.Stock

/-! Jobs on one stock in two native units. All that is measured in a declared unit comes out larger
by the quotient of the native units. -/
namespace Toolpath
open Scalar

/-- Inches and millimeters do not depend on the stock. -/
theorem UnitTable.nativeIn_of_get {name : String} {u : LengthUnit}
    (h : UnitTable.standard.get name = .ok u) (t : UnitTable) : u.NativeIn t := by
  obtain rfl | rfl := eq_of_get h
  · refine ⟨rfl, ?_⟩
    rw [Ratio.toScalar_real]
    norm_num
  · refine ⟨rfl, ?_⟩
    rw [Ratio.toScalar_one]
    exact one_pos

namespace Job
variable {α : Type} {name name' : String} {thickness : Amount}

variable {bit bit' : Bit α} {job job' : Job ℝ}

/-- The thickness in native units, and a board in millimeters, are measured as any amount is. -/
theorem of_new {bit : Bit ℝ} (h : Job.new name thickness bit = .ok job) :
    job.native.NativeIn job.units ∧
    (job.thickness.toScalar : ℝ) =
      Amount.sizeOfTerms .standard thickness.terms / job.native.millimeters.toScalar ∧
    job.units.sizeOf .board = Amount.sizeOfTerms .standard thickness.terms := by
  obtain ⟨hnative, hdecoded, -, board, hboard, hunits⟩ := madeOf_new h
  have hstandard := UnitTable.nativeIn_of_get hnative .standard
  have hthickness := Amount.of_decode hstandard hdecoded
  refine ⟨UnitTable.nativeIn_of_get hnative _, hthickness, ?_⟩
  have hsize : job.units.sizeOf .board = board.toScalar := by
    rw [hunits]
    rfl
  rw [hsize, Ratio.of_mul hboard, hthickness, div_mul_cancel₀ _ hstandard.pos.ne']

theorem rescaled_of_new {bit bit' : Bit ℝ} (h : Job.new name thickness bit = .ok job)
    (h' : Job.new name' thickness bit' = .ok job') :
    job.Rescaled (job.native.millimeters.toScalar / job'.native.millimeters.toScalar) job' := by
  obtain ⟨hn, ht, hboard⟩ := of_new h
  obtain ⟨hn', ht', hboard'⟩ := of_new h'
  have hne := hn.pos.ne'
  have hsize : job'.units.sizeOf = job.units.sizeOf := by
    funext u
    cases u with
    | board => rw [hboard, hboard']
    | inch => rfl
    | millimeter => rfl
  refine ⟨div_pos hn.pos hn'.pos, ?_, fun a u v hu hv => ?_⟩
  · rw [Job.floor, Job.floor, ht, ht', neg_mul, div_mul_div_cancel₀ hne]
  · rw [Amount.of_decode hn hu, Amount.of_decode hn' hv, Amount.sizeOfTerms, Amount.sizeOfTerms,
      hsize, div_mul_div_cancel₀ hne]

end Job

/-- Calls of one hook with the same arguments, in frames that agree up to the factor. The frame of a
comment, which measures nothing, may be one of native units. -/
def Call.Remeasured (c : ℝ) (a b : Call ℝ) : Prop :=
  (∃ k, Matches c k a b) ∧ (a.isComment = false → Matches c 1 a b)

theorem Frame.rescaled_root {j j' : Job ℝ} {c : ℝ} (hj : j.Rescaled c j') :
    Rescaled j j' c c (.root j) (.root j') where
  pos := hj.pos
  job := rfl
  job' := rfl
  placement := Placement.mul_scale_comm _ _ rfl
  unit := rfl
  depthOffset := (zero_mul c).symm
  through := rfl

theorem Cut.itineraryAll_remeasured {j j' : Job ℝ} {c k : ℝ} {f g : Frame ℝ}
    (hj : j.Rescaled c j') (h : Frame.Rescaled j j' c k f g) {cuts : List (Cut ℝ)}
    (hunits : ∀ cut ∈ cuts, ∃ poses components a comment,
      cut = .group poses components (some a) comment) :
    (Cut.itineraryAll f cuts).Alike (Call.Remeasured c) (Cut.itineraryAll g cuts) := by
  induction cuts with
  | nil => exact fun _ _ => .nil
  | cons cut rest ih =>
    obtain ⟨poses, components, a, comment, rfl⟩ := hunits cut List.mem_cons_self
    have hcomment : ∀ text, Call.Remeasured c (.comment f text) (.comment g text) :=
      fun text => ⟨⟨k, .comment (h.matches hj) text⟩, nofun⟩
    have hbody : ∀ f' g', Frame.Rescaled j j' c 1 f' g' →
        (Cut.itineraryAll f' components).Alike (Call.Remeasured c)
          (Cut.itineraryAll g' components) := by
      intro f' g' h'
      have hall := Cut.itineraryAll_scaled hj h' components
      rw [Cut.scaledAll_one] at hall
      refine hall.mono fun x y hxy => ?_
      have hone := hxy.agree.elim id id
      exact ⟨⟨1, hone⟩, fun _ => hone⟩
    rw [Cut.itineraryAll, Cut.itineraryAll]
    exact (h.alike_group hj hcomment hbody poses a comment).append
      (ih fun cut hc => hunits cut (List.mem_cons_of_mem _ hc))

/-- Cuts in declared units make the same calls for a job in inches and for one in millimeters, and
what they measure comes out 127/5 times as large. -/
theorem Job.itinerary_remeasured {inch metric : Job ℝ} {name name' : String} {thickness : Amount}
    {bit bit' : Bit ℝ} (hnew : Job.new name thickness bit = .ok inch)
    (hnew' : Job.new name' thickness bit' = .ok metric) (hinch : inch.native.name = .inch)
    (hmetric : metric.native.name = .millimeter) {cuts : List (Cut ℝ)}
    (hunits : ∀ cut ∈ cuts, ∃ poses components a comment,
      cut = .group poses components (some a) comment)
    (hs : (inch.itinerary cuts).stop = none) (hs' : (metric.itinerary cuts).stop = none) :
    List.Forall₂ (Call.Remeasured (127 / 5)) (inch.itinerary cuts).calls
      (metric.itinerary cuts).calls ∧
    ∀ (σ ε : Type) (b : Backend ℝ σ ε),
      b.visitAll (.root inch) cuts = (inch.itinerary cuts).calls.forM b.make ∧
      b.visitAll (.root metric) cuts = (metric.itinerary cuts).calls.forM b.make := by
  have hnative : (inch.native.millimeters.toScalar : ℝ) = 127 / 5 := by
    have hknown := (Job.of_new hnew).1.known
    rw [hinch] at hknown
    rw [← Option.some.inj hknown, Ratio.toScalar_real]
    norm_num
  have hnative' : (metric.native.millimeters.toScalar : ℝ) = 1 := by
    have hknown := (Job.of_new hnew').1.known
    rw [hmetric] at hknown
    rw [← Option.some.inj hknown, Ratio.toScalar_one]
  have hj := Job.rescaled_of_new hnew hnew'
  rw [hnative, hnative', div_one] at hj
  refine ⟨Cut.itineraryAll_remeasured hj (Frame.rescaled_root hj) hunits hs hs', fun σ ε b => ?_⟩
  rw [b.visitAll_eq_follow, b.visitAll_eq_follow]
  exact ⟨b.follow_of_stop_eq_none hs, b.follow_of_stop_eq_none hs'⟩

/-- A hole as wide as the stock is thick, in a quarter of an inch of stock. -/
theorem Job.itinerary_remeasured_board :
    ∃ (inch metric : Job ℝ) (f g : Frame ℝ),
      Job.new "inch" (.single .inch ⟨1, 4⟩) ⟨"", .flat 1⟩ = .ok inch ∧
      Job.new "millimeter" (.single .inch ⟨1, 4⟩) ⟨"", .flat 1⟩ = .ok metric ∧
      (inch.itinerary [.group [.identity] [.hole 1 .through none] (some (.single .board 1))
        none]).calls = [.hole f 1] ∧
      (metric.itinerary [.group [.identity] [.hole 1 .through none] (some (.single .board 1))
        none]).calls = [.hole g 1] ∧
      Frame.Matches (127 / 5) 1 f g := by
  obtain ⟨bit, hbit⟩ : ∃ bit : Bit ℝ, bit = ⟨"", .flat 1⟩ := ⟨_, rfl⟩
  have hinch : Job.new "inch" (.single .inch ⟨1, 4⟩) bit =
      .ok ⟨⟨.inch, ⟨127, 5⟩⟩, ⟨some ⟨127, 20⟩⟩, ⟨1, 4⟩, bit⟩ := rfl
  have hmetric : Job.new "millimeter" (.single .inch ⟨1, 4⟩) bit =
      .ok ⟨⟨.millimeter, 1⟩, ⟨some ⟨127, 20⟩⟩, ⟨127, 20⟩, bit⟩ := rfl
  have hboard : (Amount.single .board 1).decode ⟨.inch, ⟨127, 5⟩⟩ ⟨some ⟨127, 20⟩⟩ =
      .ok ⟨1, 4⟩ := by decide
  have hboard' : (Amount.single .board 1).decode ⟨.millimeter, 1⟩ ⟨some ⟨127, 20⟩⟩ =
      .ok ⟨127, 20⟩ := by decide
  have hcalls : ∀ (job : Job ℝ) (unit ratio : Ratio),
      (Amount.single .board 1).decode job.native job.units = .ok unit →
      unit.div 1 = .ok ratio → ∃ f, job.itinerary
        [.group [.identity] [.hole 1 .through none] (some (.single .board 1)) none] =
          .single (.hole f 1) := by
    intro job unit ratio decoded divided
    obtain ⟨f, hf⟩ := Cut.exists_itinerary_hole decoded divided .identity 1 .through
    rw [Job.itinerary, Cut.itineraryAll, hf]
    exact ⟨f, rfl⟩
  obtain ⟨f, hf⟩ := hcalls ⟨⟨.inch, ⟨127, 5⟩⟩, ⟨some ⟨127, 20⟩⟩, ⟨1, 4⟩, bit⟩ _ _ hboard rfl
  obtain ⟨g, hg⟩ := hcalls ⟨⟨.millimeter, 1⟩, ⟨some ⟨127, 20⟩⟩, ⟨127, 20⟩, bit⟩ _ _ hboard' rfl
  have hs := congrArg Itinerary.stop hf
  have hs' := congrArg Itinerary.stop hg
  obtain ⟨hall, -⟩ := Job.itinerary_remeasured hinch hmetric rfl rfl
    (fun cut hc => ⟨_, _, _, _, List.mem_singleton.mp hc⟩) hs hs'
  rw [hf, hg] at hall
  obtain ⟨-, hone⟩ := (List.forall₂_cons.mp hall).1
  rw [hbit] at hinch hmetric
  exact ⟨_, _, f, g, hinch, hmetric, by rw [← hbit, hf]; rfl, by rw [← hbit, hg]; rfl,
    (hone rfl).frame⟩

end Toolpath
