import Toolpath.Proofs.Program.Joined
import Toolpath.Proofs.Program.Told

/-! Leaves do not depend on what was carved before them: neither on where the tool was left, nor on
what was issued. A program is its cuts' own blocks in order. -/
namespace Toolpath
namespace Carve
open Machine
variable {α : Type} [Scalar α] {s : Style α}

theorem portable_carry (o : Options α) (it : Itinerary α) : (carry o it).Portable s := by
  refine (Block.portable_forM (portable_block o)).bind fun _ => ?_
  cases it.stop with
  | none => exact Block.portable_pure ()
  | some e => exact Block.portable_fail e

theorem carry_append (o : Options α) (a b : Itinerary α) :
    carry o (a.append b) = (carry o a >>= fun _ => carry o b) := by
  cases hs : a.stop with
  | none => simp [carry, Itinerary.append_of_none hs, hs]
  | some e => simp [carry, Itinerary.append_of_some hs, hs]

/-- Cuts are carved one after another, each by a block of its own. -/
theorem carry_itineraryAll (o : Options α) (f : Frame α) (cuts : List (Cut α)) :
    carry o (Cut.itineraryAll f cuts) = cuts.forM fun cut => carry o (cut.itinerary f) := by
  induction cuts with
  | nil => rfl
  | cons cut rest ih =>
    rw [Cut.itineraryAll, carry_append, ih]
    rfl

/-- Passes by a router that asks where it is to tell whether a pass has closed. -/
def ledPasses (s : Style α) (f : Frame α) (p : Path α) :
    (heights : List α) → (number : Nat) → Direction → Machine α → Block α Unit
  | [], _, _, _ => pure ()
  | z :: rest, number, d, m => do
    let low := (m.run s (stepDown z d number)).1
    let round := pass f p d low.position
    let last := (low.run s round.commands).1
    Block.issue (stepDown z d number)
    let _ ← round
    ledPasses s f p rest (number + 1)
      (if last.position == low.position then d else d.reversed) last

/-- A path by a router that asks where it is. -/
def ledPath (s : Style α) (o : Options α) (f : Frame α) (p : Path α) (m : Machine α) :
    Block α Unit :=
  match p.start? with
  | none => pure ()
  | some v =>
    if (descent o f v).passes.isEmpty then pure ()
    else do
      Block.issue (approach o (f.place v))
      ledPasses s f p (descent o f v).passes 0 .forward (m.run s (approach o (f.place v))).1
      Block.issue (toSafeHeight o)

/-- A call carried out by a router that asks where it is. Only closed paths make a difference to
it, so pecks, rings and pauses are as without. -/
def led (s : Style α) (o : Options α) (m : Machine α) : Call α → Block α Unit
  | .trace f p => ledPath s o f p m
  | .hole f diameter =>
    if f.length diameter - f.job.bit.tipWidth ≤ 0 then hole o f diameter
    else do
      Block.issue [.remark (.circled (f.length diameter) f.job.native.name)]
      ledPath s o f (Path.circle (millRadius f diameter)) m
  | c => block o c

theorem position_segment {f : Frame α} {p : Path α} {d : Direction} {index : Nat} {t : Segment}
    {v : Vec α} (h : (segment f p d index t).result = .ok v) (m : Machine α) :
    (m.run s (segment f p d index t).commands).1.position = m.position.movedOver v := by
  unfold segment at h ⊢
  dsimp only at h ⊢
  split at h
  · cases h
  · next far hfar =>
    cases t with
    | straight start finish =>
      obtain rfl : f.place far = v := Except.ok.inj h
      rfl
    | arc start finish center sense =>
      dsimp only at h ⊢
      cases hcenter : p.vertices[center]? with
      | none =>
        rw [hcenter] at h
        cases h
      | some c =>
        rw [hcenter] at h
        obtain rfl : f.place far = v := Except.ok.inj h
        rfl

/-- The router is where the segments are said to end. -/
theorem position_segments {f : Frame α} {p : Path α} {d : Direction} {l : List (Segment × Nat)}
    {v : Vec α} {m : Machine α} (h : (segments f p d l m.position).result = .ok v) :
    (m.run s (segments f p d l m.position).commands).1.position = v := by
  induction l generalizing m with
  | nil => exact Except.ok.inj h
  | cons head rest ih =>
    obtain ⟨t, index⟩ := head
    rw [segments] at h ⊢
    obtain ⟨far, hfar, hrest⟩ := Block.exists_of_bind_ok h
    have hposition := position_segment (s := s) hfar m
    rw [Block.bind_of_ok hfar, fst_run_append]
    change (segments f p d rest (m.position.movedOver far)).result = .ok v at hrest
    change (Machine.run s _
      (segments f p d rest (m.position.movedOver far)).commands).1.position = v
    rw [← hposition] at hrest ⊢
    exact ih hrest

theorem position_pass {f : Frame α} {p : Path α} {d : Direction} {v : Vec α} {m : Machine α}
    (h : (pass f p d m.position).result = .ok v) :
    (m.run s (pass f p d m.position).commands).1.position = v := by
  cases d with
  | forward => exact position_segments h
  | reverse => exact position_segments h

/-- A router that asks where it is makes the same passes. -/
theorem ledPasses_eq (f : Frame α) (p : Path α) (heights : List α) (number : Nat) (d : Direction)
    {m : Machine α} {position : Vec α} (hm : m.Above position) :
    ledPasses s f p heights number d m = passes f p heights number d position := by
  induction heights generalizing number d m position with
  | nil => rfl
  | cons z rest ih =>
    have hlow : (m.run s (stepDown z d number)).1.position = { position with z } :=
      congrArg₂ (Vec.mk · · z) hm.1 hm.2
    rw [ledPasses, passes, hlow]
    congr 1
    funext _
    cases hround : (pass f p d { position with z }).result with
    | error e => rw [Block.bind_of_error hround, Block.bind_of_error hround]
    | ok v =>
      have hlast : ((m.run s (stepDown z d number)).1.run s
          (pass f p d { position with z }).commands).1.position = v := by
        rw [← hlow] at hround ⊢
        exact position_pass hround
      rw [Block.bind_of_ok hround, Block.bind_of_ok hround, hlast,
        ih (number + 1) _ ⟨congrArg Vec.x hlast, congrArg Vec.y hlast⟩]

theorem ledPath_eq (o : Options α) (f : Frame α) (p : Path α) (m : Machine α) :
    ledPath s o f p m = path o f p := by
  unfold ledPath path
  cases p.start? with
  | none => rfl
  | some v =>
    have hpasses := ledPasses_eq (s := s) f p (descent o f v).passes 0 .forward
      (above_approach (s := s) o m (f.place v))
    dsimp only
    rw [hpasses]
    rfl

/-- Asking where the router is makes no difference, wherever it was left. -/
theorem led_eq_block (s : Style α) (o : Options α) (m : Machine α) (c : Call α) :
    led s o m c = block o c := by
  cases c with
  | trace f p => exact ledPath_eq o f p m
  | hole f diameter =>
    rw [led, block]
    split_ifs with hnarrow
    · rfl
    · rw [hole_of_wide hnarrow, ledPath_eq]
  | comment f text => rfl
  | pocket f p => rfl
  | pause f => rfl

/-- What one top-level cut of a job is told as. -/
def cutBlock (s : Style α) (o : Options α) (job : Job α) (cut : Cut α) : Block α Unit :=
  (carry o (cut.itinerary (.root job))).told s .initial

theorem told_setup (o : Options α) (job : Job α) (m : Machine α) :
    (setup o job).told s m = setup o job := by
  unfold setup
  cases job.system with
  | error e => rfl
  | ok system => rfl

theorem told_shutdown (o : Options α) (m : Machine α) :
    (Block.issue (shutdown o)).told s m = Block.issue (shutdown o) := rfl

/-- A run is told as setup, the block of each cut, and shutdown. -/
theorem told_program (o : Options α) (job : Job α) (cuts : List (Cut α)) (m : Machine α) :
    (program o job cuts).told s m = (do
      setup o job
      cuts.forM (cutBlock s o job)
      .issue (shutdown o)) := by
  have hcut (cut : Cut α) : (carry o (cut.itinerary (.root job))).Portable s := portable_carry o _
  have hend (x : Unit) : (Block.issue (shutdown o)).Portable s := fun m m' => rfl
  have hblocks : (fun cut => (carry o (cut.itinerary (.root job))).told s m) = cutBlock s o job :=
    funext fun cut => hcut cut m .initial
  rw [program, Job.itinerary, carry_itineraryAll,
    Block.told_bind fun _ => (Block.portable_forM hcut).bind hend, Block.told_bind hend,
    Block.told_forM hcut, told_setup, told_shutdown, hblocks]

/-- A run, also one that fails, as it is told from where the tool is. -/
def toldRun (s : Style α) (o : Options α) (job : Job α) (m : Machine α) (cuts : List (Cut α)) :
    Block α Unit :=
  ⟨m.told s (issued o job cuts), ((generate o job cuts).run.run #[]).1⟩

theorem toldRun_eq (o : Options α) (job : Job α) (m : Machine α) (cuts : List (Cut α)) :
    toldRun s o job m cuts = (program o job cuts).told s m := by
  rw [toldRun, issued_eq, generate_eq_perform, perform_run]
  rfl

/-- Cuts whose run succeeds can be carved in any order. -/
theorem toldRun_of_perm {o : Options α} {job : Job α} {m m' : Machine α} {cuts cuts' : List (Cut α)}
    (hperm : cuts.Perm cuts') (h : (toldRun s o job m cuts).result = .ok ()) :
    toldRun s o job m' cuts' = .issue ((setup o job).commands ++
      cuts'.flatMap (fun cut => (cutBlock s o job cut).commands) ++ shutdown o) := by
  rw [toldRun_eq, told_program] at h ⊢
  obtain ⟨_, hsetup, h⟩ := Block.exists_of_bind_ok h
  obtain ⟨_, hcuts, -⟩ := Block.exists_of_bind_ok h
  have hall : ∀ cut ∈ cuts', (cutBlock s o job cut).result = .ok () := fun cut hcut =>
    Block.result_of_forM_ok hcuts cut (hperm.mem_iff.mpr hcut)
  rw [Block.bind_of_ok hsetup, Block.forM_of_ok hall, Block.issue_bind, List.append_assoc]
  rfl

/-- A leaf issues the same commands and fails in the same cases wherever the tool was left and
whatever was issued before, also where it asks the router where it is. So the runs over two lists
of cuts make up the run over both, and cuts that change places take their blocks with them. -/
theorem toldRun_append (s : Style α) (o : Options α) (job : Job α) :
    (∀ (c : Call α) (m : Machine α) (log : Log α), ((backend o).make c).run.run log =
      ((led s o m c).result, log ++ (led s o m c).commands.toArray)) ∧
    (∀ (c : Call α) (m m' : Machine α), (led s o m c).told s m = (led s o m' c).told s m') ∧
    (∀ (m : Machine α) (a b : List (Cut α)), toldRun s o job m (a ++ b) = (do
      setup o job
      a.forM (cutBlock s o job)
      b.forM (cutBlock s o job)
      .issue (shutdown o))) ∧
    ∀ (m m' : Machine α) (cuts cuts' : List (Cut α)), cuts.Perm cuts' →
      (toldRun s o job m cuts).result = .ok () →
      toldRun s o job m' cuts' = .issue ((setup o job).commands ++
        cuts'.flatMap (fun cut => (cutBlock s o job cut).commands) ++ shutdown o) := by
  refine ⟨fun c m log => ?_, fun c m m' => ?_, fun m a b => ?_,
    fun m m' cuts cuts' hperm h => toldRun_of_perm hperm h⟩
  · rw [make_backend, perform_run, led_eq_block]
  · rw [led_eq_block, led_eq_block]
    exact portable_block o c m m'
  · rw [toldRun_eq, told_program]
    have happend : (a ++ b).forM (cutBlock s o job) = (do
        a.forM (cutBlock s o job)
        b.forM (cutBlock s o job)) := List.forM_append
    rw [happend, bind_assoc]

theorem carry_single_ok {o : Options α} {c : Call α} (h : (block o c).result = .ok ()) :
    (carry o (.single c)).result = .ok () := by
  have hcalls : (Itinerary.single c).calls.forM (block o) =
      ⟨(block o c).commands ++ [], .ok ()⟩ := Block.bind_of_ok h _
  rw [carry, hcalls, Block.bind_of_ok rfl]
  rfl

/-- A hole and a pause after it change places. -/
theorem toldRun_append_swapped :
    (toldRun .silent .standard .quarterInch .initial
        ([.hole 1 .through none, .pause none] : List (Cut ℝ))).result = .ok () ∧
      toldRun .silent .standard .quarterInch .initial [.pause none, .hole 1 .through none] =
        .issue ((setup .standard .quarterInch).commands ++
          ([.pause none, .hole 1 .through none] : List (Cut ℝ)).flatMap
            (fun cut => (cutBlock .silent .standard .quarterInch cut).commands) ++
          shutdown .standard) := by
  have hitinerary : (Cut.hole (1 : ℝ) .through none).itinerary (.root .quarterInch) =
      .single (.hole ((Frame.root .quarterInch).sink .through) 1) := rfl
  have hhole : (cutBlock .silent .standard .quarterInch
      (.hole (1 : ℝ) .through none)).result = .ok () := by
    have hout : (Call.hole ((Frame.root .quarterInch).sink .through) (1 : ℝ)).isOutline := rfl
    rw [cutBlock, hitinerary]
    exact carry_single_ok (outline_ok hout (by simp))
  have hpause : (cutBlock .silent .standard (.quarterInch : Job ℝ) (.pause none)).result =
      .ok () := rfl
  have hcuts : ∀ cut ∈ ([.hole 1 .through none, .pause none] : List (Cut ℝ)),
      (cutBlock .silent .standard .quarterInch cut).result = .ok () := by simp [hhole, hpause]
  have hrun : (toldRun .silent .standard .quarterInch .initial
      ([.hole 1 .through none, .pause none] : List (Cut ℝ))).result = .ok () := by
    rw [toldRun_eq, told_program, Block.forM_of_ok hcuts]
    rfl
  exact ⟨hrun, (toldRun_append .silent .standard .quarterInch).2.2.2 _ _ _ _ (.swap _ _ _) hrun⟩

end Carve
end Toolpath
