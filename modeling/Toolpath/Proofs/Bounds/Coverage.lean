import Toolpath.Proofs.Program.Inside
import Toolpath.Proofs.Traversal.Simple

/-! The box of a job holds everything that its program feeds to. -/
namespace Toolpath
open Scalar

namespace Carve
open Machine
variable {o : Options ℝ} {s : Style ℝ} {b : Bounds ℝ}

theorem inside_block (hs : 0 < o.stepDown) {c : Call ℝ} (htip : 0 ≤ c.frame.job.bit.tipWidth)
    (hlevel : c.isComment = false → c.frame.placement.linear.IsLevel)
    (hcheck : ∀ f p, c = .trace f p → p.check = .ok ()) (h : ∀ q ∈ c.points, b.Contains q)
    (m : Machine ℝ) : m.Always s (Command.FeedsInto b s) (block o c).commands := by
  cases c with
  | comment f text => exact inside_of_forall_not_feed (by simp [block, Command.isFeed])
  | trace f p => exact inside_trace (hcheck f p rfl) h
  | hole f diameter => exact inside_hole hs (hlevel rfl) htip h
  | pocket f p => exact inside_pocket h
  | pause f => exact inside_of_forall_not_feed (by simp [block, Command.isFeed])

theorem inside_work (hs : 0 < o.stepDown) {job : Job ℝ} (htip : 0 ≤ job.bit.tipWidth)
    {calls : List (Call ℝ)}
    (hcalls : ∀ c ∈ calls, c.frame.job = job ∧ (∀ f p, c = .trace f p → p.check = .ok ()) ∧
      (c.isComment = false → c.frame.placement.linear.IsLevel) ∧ ∀ q ∈ c.points, b.Contains q)
    (m : Machine ℝ) : m.Always s (Command.FeedsInto b s) (work o calls) := by
  induction calls generalizing m with
  | nil => trivial
  | cons c rest ih =>
    obtain ⟨⟨hjob, hcheck, hlevel, hpoints⟩, hrest⟩ := List.forall_mem_cons.mp hcalls
    rw [work_cons, always_append]
    exact ⟨inside_block hs (hjob ▸ htip) hlevel hcheck hpoints m, ih hrest _⟩

theorem inside_setup (job : Job ℝ) (m : Machine ℝ) :
    m.Always s (Command.FeedsInto b s) (setup o job).commands := by
  unfold setup
  cases job.system with
  | error e => trivial
  | ok u => exact inside_of_forall_not_feed (by simp [toSafeHeight, rapidZ, Command.isFeed])

theorem inside_shutdown (m : Machine ℝ) :
    m.Always s (Command.FeedsInto b s) (shutdown o) :=
  inside_of_forall_not_feed (by simp [shutdown, toSafeHeight, rapidZ, Command.isFeed])

theorem stop_of_carry_ok {α : Type} [Scalar α] {o : Options α} {it : Itinerary α}
    (h : (carry o it).result = .ok ()) : it.stop = none := by
  obtain ⟨_, -, hstop⟩ := Block.exists_of_bind_ok h
  cases hs : it.stop with
  | none => rfl
  | some e => simp [hs] at hstop

theorem result_program_of_run {α : Type} [Scalar α] {o : Options α} {job : Job α}
    {cuts : List (Cut α)} (h : ((generate o job cuts).run.run #[]).1 = .ok ()) :
    (program o job cuts).result = .ok () := by
  rw [generate_eq_perform, perform_run] at h
  exact h

/-- Where a program can be generated the box of the job can be found, and every feed command of the
program ends inside it. -/
theorem contains_feeds (o : Options ℝ) (ho : o.check = .ok ()) (job : Job ℝ)
    (htip : 0 ≤ job.bit.tipWidth) (cuts : List (Cut ℝ)) (hsimple : Cut.IsSimpleAll cuts)
    (hok : ((generate o job cuts).run.run #[]).1 = .ok ()) :
    ∃ b, Bounds.ofCuts job cuts = .ok b ∧
      ∀ (s : Style ℝ) (m : Machine ℝ) before c after,
        issued o job cuts = before ++ c :: after → c.isFeed = true →
          b.Contains ((m.run s before).1.step s c).1.position := by
  have hs := (Options.inRange_of_check ho).stepDown
  have hprogram := result_program_of_run hok
  have hstop : (job.itinerary cuts).stop = none := by
    obtain ⟨_, -, hrest⟩ := Block.exists_of_bind_ok hprogram
    obtain ⟨_, hcarry, -⟩ := Block.exists_of_bind_ok hrest
    exact stop_of_carry_ok hcarry
  refine ⟨_, Bounds.ofCuts_eq_ok hstop, fun s m before c after hissued hfeed => ?_⟩
  refine Machine.Always.apply (P := Command.FeedsInto _ s) ?_ hissued hfeed
  rw [issued_eq, commands_program_of_ok hprogram, always_append, always_append]
  refine ⟨inside_setup job m, inside_work hs htip (fun c hc => ?_) _, inside_shutdown _⟩
  refine ⟨Job.frame_job hc, ?_, Job.isLevel_of_mem hsimple hstop hc, fun q hq => ?_⟩
  · rintro f p rfl
    exact Job.check_traced hc
  · exact Bounds.contains_foldl_cover (List.mem_flatMap.mpr ⟨c, hc, hq⟩) _

end Carve

/-- A hole of one unit, one unit to the right. -/
def Cut.unitHole {α : Type} [Scalar α] : Cut α :=
  .group [.position { x := 1, y := 0 }] [.hole 1 .through none] none none

namespace Carve
open Machine

/-- A hole of an inch through a quarter of an inch of stock. -/
theorem contains_feeds_unitHole :
    (Options.standard : Options ℝ).check = .ok () ∧
    0 ≤ (Job.quarterInch : Job ℝ).bit.tipWidth ∧
    ∃ b, Bounds.ofCuts .quarterInch [Cut.unitHole] = .ok b ∧
      ∀ (s : Style ℝ) (m : Machine ℝ) before c after,
        issued .standard .quarterInch [Cut.unitHole] = before ++ c :: after → c.isFeed = true →
          b.Contains ((m.run s before).1.step s c).1.position := by
  have hcheck := Options.check_standard
  have htip : 0 ≤ (Job.quarterInch : Job ℝ).bit.tipWidth := by
    norm_num [Job.tipWidth_quarterInch]
  have hsimple : Cut.IsSimpleAll [(Cut.unitHole : Cut ℝ)] := by
    simp [Cut.unitHole, Cut.IsSimpleAll, Cut.IsSimple]
  obtain ⟨f, hcalls⟩ : ∃ f, (Job.quarterInch : Job ℝ).itinerary [Cut.unitHole] =
      .single (.hole f 1) := ⟨_, rfl⟩
  have hok : ((generate (.standard : Options ℝ) .quarterInch [Cut.unitHole]).run.run #[]).1 =
      .ok () := by
    have hcarry : (carry (.standard : Options ℝ) (.single (.hole f 1))).result = .ok () := by
      have hhole : (block (.standard : Options ℝ) (.hole f 1)).result = .ok () :=
        outline_ok rfl (by simp)
      change ((block .standard (.hole f 1) >>= fun _ => pure ()) >>= fun _ => pure ()).result = _
      rw [Block.bind_of_ok hhole]
      rfl
    rw [generate_eq_perform, perform_run]
    unfold program
    rw [Block.bind_of_ok rfl, hcalls, Block.bind_of_ok hcarry]
    rfl
  exact ⟨hcheck, htip, contains_feeds .standard hcheck .quarterInch htip _ hsimple hok⟩

end Carve
end Toolpath
