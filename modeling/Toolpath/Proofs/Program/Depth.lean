import Toolpath.Proofs.Plan.StepDown
import Toolpath.Proofs.Program.Carving

/-! Over exact coordinates nothing is cut below the bottom face, and an outline that is cut at all is
cut down to its target. -/
namespace Toolpath
open Scalar

/-- The heights that are fed to on the way from a surface down to a target. There are some exactly
when the target is below the surface. None is below the target, which is the last of them. -/
structure Descends (surface target : ℝ) (heights : List ℝ) : Prop where
  carved : heights ≠ [] ↔ target < surface
  above : ∀ z ∈ heights, target ≤ z
  finished : heights ≠ [] → heights.getLast? = some target

theorem descends_nil {surface target : ℝ} (h : ¬ target < surface) :
    Descends surface target [] where
  carved := ⟨fun hne => absurd rfl hne, fun hd => absurd hd h⟩
  above _ hz := absurd hz List.not_mem_nil
  finished hne := absurd rfl hne

theorem descends_of_getLast? {surface target : ℝ} {heights : List ℝ} (hd : target < surface)
    (habove : ∀ z ∈ heights, target ≤ z) (hlast : heights.getLast? = some target) :
    Descends surface target heights where
  carved := ⟨fun _ => hd, fun _ hnil => by simp [hnil] at hlast⟩
  above := habove
  finished _ := hlast

namespace Frame

theorem floor_le_aboveFloor (f : Frame ℝ) (z : ℝ) : f.job.floor ≤ f.aboveFloor z := by
  unfold aboveFloor
  rw [greater_real]
  exact le_max_right _ _

theorem bottom_of_through {f : Frame ℝ} (h : f.through = true) (v : Vec ℝ) :
    f.bottom v = f.job.floor := if_pos h

theorem floor_le_bottom (f : Frame ℝ) (v : Vec ℝ) : f.job.floor ≤ f.bottom v := by
  unfold bottom
  split_ifs
  · exact le_refl _
  · exact f.floor_le_aboveFloor _

end Frame

theorem Job.floor_quarterInch : (Job.quarterInch : Job ℝ).floor = -1 / 4 := by
  unfold Job.floor Ratio.toScalar
  rw [ofRatio_real]
  norm_num [Job.quarterInch]

namespace Carve
open Machine
variable {o : Options ℝ} {s : Style ℝ}

@[simp] theorem feedHeights_toSafeHeight (m : Machine ℝ) :
    m.feedHeights s (toSafeHeight o) = [] :=
  feedHeights_of_forall_not_feed fun c hc => by
    simp only [toSafeHeight, List.mem_cons, List.not_mem_nil, or_false] at hc
    rcases hc with rfl | rfl | rfl <;> rfl

/-- An approach ends at its point. -/
theorem landed_approach (o : Options ℝ) (s : Style ℝ) (m : Machine ℝ) (p : Vec ℝ) :
    (m.run s (approach o p)).1.position = p := by
  unfold approach
  rw [fst_run_append]
  split_ifs with hz
  · have hfast : greater o.minimumFastZ p.z = p.z := of_decide_eq_true hz
    change (⟨p.x, p.y, greater o.minimumFastZ p.z⟩ : Vec ℝ) = p
    rw [hfast]
  · rfl

/-- An approach ends at its point and feeds nowhere else. -/
theorem approach_spec (o : Options ℝ) (s : Style ℝ) (m : Machine ℝ) (p : Vec ℝ) :
    (m.run s (approach o p)).1.position.z = p.z ∧
      ∀ z ∈ m.feedHeights s (approach o p), z = p.z := by
  have hrapid : ∀ c ∈ [rapidXY p, .enter .plunging, rapidZ (greater o.minimumFastZ p.z)],
      c.isFeed = false := by
    simp [rapidXY, rapidZ, Command.isFeed]
  refine ⟨congrArg Vec.z (landed_approach o s m p), ?_⟩
  unfold approach
  rw [feedHeights_append, feedHeights_append, feedHeights_toSafeHeight,
    feedHeights_of_forall_not_feed hrapid, List.nil_append, List.nil_append]
  split_ifs
  · simp
  · simp [feedZ, Command.isFeed, Command.height?]

theorem feedHeights_pass (f : Frame ℝ) (p : Path ℝ) (z : ℝ) (number : Nat) (d : Direction)
    (position : Vec ℝ) (m : Machine ℝ) :
    ∃ level, m.feedHeights s ([.enter .plunging, .remark (.stepDown z), feedZ z,
      .enter (.cutting d number)] ++ (pass f p d position).commands) = z :: level ∧
        ∀ h ∈ level, h = z := by
  have hlateral : ∀ c ∈ (pass f p d position).commands, c.height? = none := fun c hc =>
    Command.height?_of_isLateral (lateral_pass f p d position c hc)
  rw [feedHeights_append]
  refine ⟨_, rfl, fun h hh => ?_⟩
  exact eq_of_mem_feedHeights_of_level hlateral hh

/-- Passes feed at the given heights, ending at the last of them. -/
theorem feedHeights_passes {f : Frame ℝ} {p : Path ℝ} (hp : p.check = .ok ()) (heights : List ℝ)
    (number : Nat) (d : Direction) (position : Vec ℝ) (m : Machine ℝ) :
    (∀ z ∈ m.feedHeights s (passes f p heights number d position).commands, z ∈ heights) ∧
      (m.feedHeights s (passes f p heights number d position).commands).getLast? =
        heights.getLast? := by
  induction heights generalizing number d position m with
  | nil => simp [passes]
  | cons z rest ih =>
    obtain ⟨v, hv⟩ := exists_pass_ok (f := f) hp d { position with z }
    obtain ⟨next, hpasses⟩ := passes_cons_of_ok hv rest number
    obtain ⟨level, hpass, hlevel⟩ := feedHeights_pass (s := s) f p z number d { position with z } m
    obtain ⟨hmem, hlast⟩ := ih (number + 1) next v (m.run s ([.enter .plunging,
      .remark (.stepDown z), feedZ z, .enter (.cutting d number)] ++
        (pass f p d { position with z }).commands)).1
    rw [hpasses, ← List.append_assoc, feedHeights_append, hpass]
    constructor
    · intro h hh
      rcases List.mem_append.mp hh with hh | hh
      · rcases List.mem_cons.mp hh with rfl | hh
        · exact List.mem_cons_self
        · exact hlevel h hh ▸ List.mem_cons_self
      · exact List.mem_cons_of_mem z (hmem h hh)
    · have hfirst : (z :: level).getLast? = some z := by
        rw [List.getLast?_eq_some_getLast (List.cons_ne_nil z level)]
        rcases List.mem_cons.mp (List.getLast_mem (List.cons_ne_nil z level)) with h | h
        · rw [h]
        · rw [hlevel _ h]
      rw [List.getLast?_append, hlast, hfirst, List.getLast?_cons]
      cases rest.getLast? <;> rfl

/-- What carves down to a target does so between an approach from above and the way back up. -/
theorem descends_between {p : Vec ℝ} {target : ℝ} {l : List (Command ℝ)} (hd : target < p.z)
    (hl : ∀ m : Machine ℝ, Descends p.z target (m.feedHeights s l)) (m : Machine ℝ) :
    Descends p.z target (m.feedHeights s (approach o p ++ l ++ toSafeHeight o)) := by
  obtain ⟨-, hnear⟩ := approach_spec o s m p
  have hcarve := hl (m.run s (approach o p)).1
  rw [feedHeights_append, feedHeights_append, feedHeights_toSafeHeight, List.append_nil]
  apply descends_of_getLast? hd
  · intro z hz
    rcases List.mem_append.mp hz with hz | hz
    · rw [hnear z hz]
      exact hd.le
    · exact hcarve.above z hz
  · rw [List.getLast?_append, hcarve.finished (hcarve.carved.mpr hd)]
    rfl

/-- A path that refers to its own vertices is followed down to the bottom of its frame. -/
theorem descends_path (hs : 0 < o.stepDown) (f : Frame ℝ) {p : Path ℝ} (hp : p.check = .ok ())
    {v : Vec ℝ} (hv : p.start? = some v) (m : Machine ℝ) :
    Descends (f.place v).z (f.bottom v) (m.feedHeights s (path o f p).commands) := by
  by_cases hd : f.bottom v < (f.place v).z
  · have hlast := Descent.getLast?_passes (d := descent o f v) hs hd
    have hne : (descent o f v).passes ≠ [] := fun h => by simp [h] at hlast
    rw [commands_path hp hv hne]
    refine descends_between hd (fun m => ?_) m
    obtain ⟨hmem, hend⟩ := feedHeights_passes (s := s) (f := f) hp (descent o f v).passes 0 .forward
      (f.place v) m
    exact descends_of_getLast? hd (fun z hz => Descent.target_le_of_mem_passes (hmem z hz))
      (hend.trans hlast)
  · have hnone : (descent o f v).passes = [] := Descent.passes_of_not_lt hd
    rw [path_of_no_pass hv hnone]
    exact descends_nil hd

theorem feedHeights_pecks (o : Options ℝ) (f : Frame ℝ) (m : Machine ℝ) :
    m.feedHeights s (pecks o f) =
      (descent o f .zero).strokes.flatMap fun k => k.plunge :: k.retract.toList := by
  unfold pecks
  induction (descent o f .zero).strokes generalizing m with
  | nil => rfl
  | cons k rest ih =>
    rw [List.flatMap_cons, feedHeights_append, ih, List.flatMap_cons]
    congr 1
    cases k.retract with
    | none => rfl
    | some z => rfl

theorem descends_peck (hs : 0 < o.stepDown) (f : Frame ℝ) (m : Machine ℝ) :
    Descends (f.place .zero).z (f.bottom .zero) (m.feedHeights s (peck o f).commands) := by
  by_cases hd : f.bottom .zero < (f.place .zero).z
  · rw [peck_of_not_le (not_le.mpr hd)]
    refine descends_between hd (fun m => ?_) m
    obtain ⟨init, hinit⟩ := List.getLast?_eq_some_iff.mp
      (Descent.getLast?_strokes (d := descent o f .zero) hs hd)
    rw [feedHeights_pecks]
    apply descends_of_getLast? hd
    · intro z hz
      obtain ⟨k, hk, hz⟩ := List.mem_flatMap.mp hz
      obtain ⟨hplunge, hretract⟩ := Descent.target_le_of_mem_strokes hs hk
      rcases List.mem_cons.mp hz with rfl | hz
      · exact hplunge
      · exact hretract z (Option.mem_toList.mp hz)
    · rw [hinit, List.flatMap_append, List.getLast?_append]
      rfl
  · rw [peck_of_le (not_lt.mp hd)]
    exact descends_nil hd

theorem descends_of_entry (hs : 0 < o.stepDown) {c : Call ℝ} {v : Vec ℝ}
    (hc : ∀ f p, c = .trace f p → p.check = .ok ()) (hv : c.entry? = some v) (m : Machine ℝ) :
    Descends (c.frame.place v).z (c.frame.bottom v) (m.feedHeights s (block o c).commands) := by
  cases c with
  | trace f p => exact descends_path hs f (hc f p rfl) hv m
  | hole f diameter =>
    rw [Call.entry?] at hv
    rw [block]
    split_ifs at hv with hnarrow
    · rw [hole_of_narrow hnarrow, Block.issue_bind, ← Option.some.inj hv]
      exact descends_peck hs f m
    · rw [hole_of_wide hnarrow, Block.issue_bind]
      exact descends_path hs f (Path.check_circle _) hv m
  | comment f text => cases hv
  | pocket f p => cases hv
  | pause f => cases hv

theorem feedHeights_of_no_entry {c : Call ℝ} (hout : c.isOutline) (hv : c.entry? = none)
    (m : Machine ℝ) : m.feedHeights s (block o c).commands = [] := by
  cases c with
  | trace f p =>
    have hpath : path o f p = pure () := path_of_no_start hv
    rw [block, hpath]
    rfl
  | hole f diameter =>
    rw [Call.entry?] at hv
    rw [block]
    split_ifs at hv with hnarrow
    rw [hole_of_wide hnarrow, path_of_no_start hv]
    rfl
  | comment f text => cases hout
  | pocket f p => cases hout
  | pause f => cases hout

/-- The tool enters a ring at the height of its start, from where it is or from above. -/
theorem ringEntry_spec (o : Options ℝ) (s : Style ℝ) (m : Machine ℝ) (number : Nat)
    (start : Vec ℝ) : (m.run s (ringEntry o number start)).1.position.z = start.z ∧
      ∀ z ∈ m.feedHeights s (ringEntry o number start),
        z = start.z ∨ number ≠ 0 ∧ z = m.position.z := by
  unfold ringEntry
  by_cases hn : number = 0
  · rw [if_pos hn]
    obtain ⟨hend, hnear⟩ := approach_spec o s m start
    exact ⟨hend, fun z hz => Or.inl (hnear z hz)⟩
  · have hheights : m.feedHeights s [.enter .plunging, feedXY start, feedZ start.z] =
        [m.position.z, start.z] := rfl
    rw [if_neg hn, hheights]
    refine ⟨rfl, fun z hz => ?_⟩
    simp only [List.mem_cons, List.not_mem_nil, or_false] at hz
    rcases hz with rfl | rfl
    · exact Or.inr ⟨hn, rfl⟩
    · exact Or.inl rfl

theorem floor_le_feedHeights_rings (f : Frame ℝ) (center : Vec ℝ) (number : Nat)
    (l : List (Ring ℝ)) {m : Machine ℝ} (hm : number ≠ 0 → f.job.floor ≤ m.position.z) :
    ∀ z ∈ m.feedHeights s (rings o f center number l), f.job.floor ≤ z := by
  induction l generalizing number m with
  | nil => simp [rings]
  | cons r rest ih =>
    have hstart : f.job.floor ≤ (ringStart f center r).z := f.floor_le_aboveFloor _
    obtain ⟨hend, hentry⟩ := ringEntry_spec o s m number (ringStart f center r)
    intro z hz
    rw [rings_cons, feedHeights_append, feedHeights_append] at hz
    rcases List.mem_append.mp hz with hz | hz
    · rcases List.mem_append.mp hz with hz | hz
      · rcases hentry z hz with rfl | ⟨hn, rfl⟩
        · exact hstart
        · exact hm hn
      · have hlevel := eq_of_mem_feedHeights_of_level (by simp [Command.height?]) hz
        exact hlevel.trans hend ▸ hstart
    · refine ih (number + 1) (fun _ => ?_) z hz
      rw [fst_run_append, height_run_of_level (by simp [Command.height?]), hend]
      exact hstart

theorem floor_le_feedHeights_pocket (f : Frame ℝ) (p : Pocket ℝ) (m : Machine ℝ) :
    ∀ z ∈ m.feedHeights s (pocket o f p).commands, f.job.floor ≤ z := by
  unfold pocket
  dsimp only
  split_ifs
  · simp
  · simp
  · split
    · simp
    · rename_i plan _
      rw [Block.commands_issue, feedHeights_append, feedHeights_toSafeHeight, List.append_nil]
      exact floor_le_feedHeights_rings f _ 0 plan.rings fun h => absurd rfl h

theorem floor_le_feedHeights_block (hs : 0 < o.stepDown) {c : Call ℝ}
    (hc : ∀ f p, c = .trace f p → p.check = .ok ()) (m : Machine ℝ) :
    ∀ z ∈ m.feedHeights s (block o c).commands, c.frame.job.floor ≤ z := by
  cases hout : c.isOutline with
  | true =>
    cases hv : c.entry? with
    | none => simp [feedHeights_of_no_entry hout hv]
    | some v =>
      intro z hz
      exact (c.frame.floor_le_bottom v).trans ((descends_of_entry hs hc hv m).above z hz)
  | false =>
    cases c with
    | comment f text => simp [block, Command.isFeed]
    | pocket f p => exact floor_le_feedHeights_pocket f p m
    | pause f => simp [block, Command.isFeed]
    | trace f p => cases hout
    | hole f diameter => cases hout

theorem floor_le_feedHeights_work (hs : 0 < o.stepDown) {job : Job ℝ} {calls : List (Call ℝ)}
    (hc : ∀ c ∈ calls, c.frame.job = job ∧ ∀ f p, c = .trace f p → p.check = .ok ())
    (m : Machine ℝ) : ∀ z ∈ m.feedHeights s (work o calls), job.floor ≤ z := by
  induction calls generalizing m with
  | nil => simp [work]
  | cons c rest ih =>
    obtain ⟨hjob, hcheck⟩ := hc c List.mem_cons_self
    intro z hz
    rw [work_cons, feedHeights_append] at hz
    rcases List.mem_append.mp hz with hz | hz
    · exact hjob ▸ floor_le_feedHeights_block hs hcheck m z hz
    · exact ih (fun d hd => hc d (List.mem_cons_of_mem c hd)) _ z hz

theorem feedHeights_setup (job : Job ℝ) (m : Machine ℝ) :
    m.feedHeights s (setup o job).commands = [] := by
  unfold setup
  cases job.system with
  | error e => rfl
  | ok u => rfl

/-- An outline is carved to its end: from where it starts down to the bottom of its frame, which is
the bottom face of the stock for a cut that goes through. One without a start is not carved. -/
structure CarvesDown (o : Options ℝ) (s : Style ℝ) (m : Machine ℝ) (c : Call ℝ) : Prop where
  result : (block o c).result = .ok ()
  idle : c.entry? = none → m.feedHeights s (block o c).commands = []
  descends : ∀ v, c.entry? = some v →
    Descends (c.frame.place v).z (c.frame.bottom v) (m.feedHeights s (block o c).commands)
  through : ∀ v, c.frame.through → c.frame.bottom v = c.frame.job.floor

/-- In every run, also one that fails, each feed command leaves the tool at or above the bottom
face, and each outline is carved down to its target after whatever was carved before it. -/
theorem floor_le_feedHeights_issued (o : Options ℝ) (ho : o.check = .ok ()) (job : Job ℝ)
    (cuts : List (Cut ℝ)) (s : Style ℝ) (m : Machine ℝ) :
    (∀ z ∈ m.feedHeights s (issued o job cuts), job.floor ≤ z) ∧
    ∀ before c, before ++ [c] <+: made o job cuts → c.isOutline →
      (setup o job).commands ++ work o (before ++ [c]) <+: issued o job cuts ∧
      c.frame.job = job ∧
      CarvesDown o s (m.run s ((setup o job).commands ++ work o before)).1 c := by
  have hr := (Options.inRange_of_check ho).stepDown
  have hmade : ∀ c ∈ made o job cuts, c.frame.job = job ∧
      ∀ f p, c = .trace f p → p.check = .ok () := by
    intro c hc
    have hcall := mem_itinerary_of_mem_made hc
    exact ⟨Job.frame_job hcall, fun f p h => Job.check_traced (h ▸ hcall)⟩
  constructor
  · rcases issued_eq_append o job cuts with ⟨hi, -⟩ | ⟨-, tail, ht, hi⟩
    · simp [hi]
    · have htail : ∀ m : Machine ℝ, m.feedHeights s tail = [] := by
        intro m
        rcases ht with rfl | rfl
        · rfl
        · rfl
      rw [hi, feedHeights_append, feedHeights_append, feedHeights_setup, htail, List.nil_append,
        List.append_nil]
      exact floor_le_feedHeights_work hr hmade _
  · intro before c hpre hout
    obtain ⟨hjob, hcheck⟩ := hmade c (hpre.subset (by simp))
    refine ⟨work_prefix_issued hpre (by simp), hjob, ?_⟩
    constructor
    · exact outline_ok hout hcheck
    · exact fun hv => feedHeights_of_no_entry hout hv _
    · exact fun v hv => descends_of_entry hr hcheck hv _
    · exact fun v ht => Frame.bottom_of_through ht v

theorem floor_lt_quarterInch :
    (Job.quarterInch : Job ℝ).floor < ((Frame.root .quarterInch).place (.zero : Vec ℝ)).z := by
  have hsurface : ((Frame.root (Job.quarterInch : Job ℝ)).place .zero).z = 0 := by
    change (0 : ℝ) * 0 + 0 * 0 + 1 * 0 + 0 = 0
    norm_num
  rw [Job.floor_quarterInch, hsurface]
  norm_num

theorem made_line (o : Options ℝ) :
    made o .quarterInch [.trace ⟨[.zero, .unitX], [.straight 0 1]⟩ .through .middle none] =
      [.trace (.sink (.root .quarterInch) .through) ⟨[.zero, .unitX], [.straight 0 1]⟩] := by
  have hblock : (block o (.trace (.sink (.root .quarterInch) .through)
      ⟨[.zero, .unitX], [.straight 0 1]⟩)).result = .ok () := path_ok rfl o _
  exact reached_cons_of_ok hblock []

/-- A line through a quarter of an inch of stock ends a quarter of an inch down. -/
theorem floor_le_feedHeights_issued_line :
    (Options.standard : Options ℝ).check = .ok () ∧
    ∃ c, made Options.standard .quarterInch
        [.trace ⟨[.zero, .unitX], [.straight 0 1]⟩ .through .middle none] = [c] ∧
      ((Machine.initial.run ⟨fun _ => "", fun _ => "", .none⟩
        (setup Options.standard .quarterInch).commands).1.feedHeights
          ⟨fun _ => "", fun _ => "", .none⟩ (block Options.standard c).commands).getLast? =
        some (-1 / 4 : ℝ) := by
  have hcheck := Options.check_standard
  have hmade := made_line .standard
  have hspec := (floor_le_feedHeights_issued .standard hcheck .quarterInch _
    ⟨fun _ => "", fun _ => "", .none⟩ .initial).2 [] _ ⟨[], hmade.symm⟩ rfl
  obtain ⟨-, -, hdown⟩ := hspec
  have hcarved := (hdown.descends .zero rfl).carved.mpr floor_lt_quarterInch
  have hlast := (hdown.descends .zero rfl).finished hcarved
  have hbottom := (hdown.through .zero rfl).trans Job.floor_quarterInch
  have hsetup : (setup Options.standard Job.quarterInch).commands ++ work Options.standard [] =
      (setup (Options.standard : Options ℝ) Job.quarterInch).commands := List.append_nil _
  rw [hbottom, hsetup] at hlast
  exact ⟨hcheck, _, hmade, hlast⟩

end Carve
end Toolpath
