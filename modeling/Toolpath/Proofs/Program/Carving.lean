import Toolpath.Program.Carve
import Toolpath.Proofs.Outline.Reference
import Toolpath.Proofs.Program.Issued
import Toolpath.Proofs.Program.Motion
import Toolpath.Proofs.Scalar.Exact
import Mathlib.Tactic.SplitIfs

/-! The commands of the parts of a program: what each of them can be, and when there are any. -/
namespace Toolpath
open Scalar

namespace Options
variable {α : Type} [Scalar α]

/-- What options in range are known to meet. -/
structure InRange (o : Options α) : Prop where
  stepDown : 0 < o.stepDown
  feedRate : 0 < o.feedRate
  spindleSpeed : 0 < o.spindleSpeed
  finite : isFinite o.safeHeight ∧ isFinite o.minimumFastZ
  heights : ¬ o.safeHeight < o.minimumFastZ
  digits : o.fractionDigits ≤ 10

theorem lt_of_checkPositive {name : String} {v : α} (h : checkPositive name v = .ok ()) :
    0 < v := by
  unfold checkPositive at h
  split_ifs at h with hv
  exact of_decide_eq_true (Bool.and_eq_true_iff.mp hv).2

theorem inRange_of_check {o : Options α} (h : o.check = .ok ()) : o.InRange := by
  obtain ⟨_, hs, h⟩ := exists_of_bind_eq_ok h
  obtain ⟨_, hf, h⟩ := exists_of_bind_eq_ok h
  obtain ⟨_, hp, h⟩ := exists_of_bind_eq_ok h
  obtain ⟨hb, h⟩ := of_check_eq_ok h
  obtain ⟨hh, h⟩ := of_check_eq_ok h
  split_ifs at h with hd
  exact ⟨lt_of_checkPositive hs, lt_of_checkPositive hf, lt_of_checkPositive hp,
    by simpa using hb, hh, Nat.le_of_not_lt hd⟩

/-- Every step is in range where all else is standard. -/
theorem check_standard_of_pos {step : ℝ} (h : 0 < step) :
    ({ standard with stepDown := step } : Options ℝ).check = .ok () := by
  unfold standard check checkPositive
  norm_num [ofInt, ofRatio_real, h]
  rfl

theorem check_standard : (standard : Options ℝ).check = .ok () := by
  have hstep : (0 : ℝ) < ofRatio 1 50 := by
    rw [ofRatio_real]
    norm_num
  exact check_standard_of_pos hstep

end Options
namespace Carve
variable {α : Type} [Scalar α]

/-- The way from the surface to the bottom of a cut at a local point. -/
def descent (o : Options α) (f : Frame α) (v : Vec α) : Descent α :=
  ⟨(f.place v).z, f.bottom v, o.stepDown⟩

theorem path_of_no_start {o : Options α} {f : Frame α} {p : Path α} (h : p.start? = none) :
    path o f p = pure () := by
  unfold path
  rw [h]

theorem path_of_no_pass {o : Options α} {f : Frame α} {p : Path α} {v : Vec α}
    (h : p.start? = some v) (hp : (descent o f v).passes = []) : path o f p = pure () := by
  unfold path
  rw [h]
  exact if_pos (by simpa [descent] using hp)

theorem path_of_passes {o : Options α} {f : Frame α} {p : Path α} {v : Vec α}
    (h : p.start? = some v) (hp : (descent o f v).passes ≠ []) :
    path o f p = (do
      Block.issue (approach o (f.place v))
      passes f p (descent o f v).passes 0 .forward (f.place v)
      Block.issue (toSafeHeight o)) := by
  unfold path
  rw [h]
  exact if_neg (by simpa [descent] using hp)

theorem lateral_segment (f : Frame α) (p : Path α) (d : Direction) (index : Nat) (s : Segment) :
    ∀ c ∈ (segment f p d index s).commands, c.isLateral := by
  unfold segment
  dsimp only
  split
  · simp
  · cases s with
    | straight start finish => simp [feedXY, Command.isLateral]
    | arc start finish center sense =>
      dsimp only
      split
      · exact Block.forall_mem_bind (by simp) (by simp)
      · simp [Command.isLateral]

theorem lateral_segments (f : Frame α) (p : Path α) (d : Direction) (l : List (Segment × Nat))
    (position : Vec α) : ∀ c ∈ (segments f p d l position).commands, c.isLateral := by
  induction l generalizing position with
  | nil => simp [segments]
  | cons head rest ih =>
    obtain ⟨s, index⟩ := head
    exact Block.forall_mem_bind (lateral_segment f p d index s) fun far _ => ih _

theorem lateral_pass (f : Frame α) (p : Path α) (d : Direction) (position : Vec α) :
    ∀ c ∈ (pass f p d position).commands, c.isLateral := by
  cases d with
  | forward => exact lateral_segments f p .forward _ position
  | reverse => exact lateral_segments f p .reverse _ position

theorem carving_passes (f : Frame α) (p : Path α) (heights : List α) (number : Nat)
    (d : Direction) (position : Vec α) :
    ∀ c ∈ (passes f p heights number d position).commands, c.isCarving := by
  induction heights generalizing number d position with
  | nil => simp [passes]
  | cons z rest ih =>
    refine Block.forall_mem_bind ?_ fun _ _ => Block.forall_mem_bind ?_ fun finish _ => ih _ _ _
    · intro c hc
      simp only [Block.commands_issue, List.mem_cons, List.not_mem_nil, or_false] at hc
      rcases hc with rfl | rfl | rfl | rfl <;> rfl
    · intro c hc
      exact Command.isCarving_of_isLateral (lateral_pass f p d _ c hc)

theorem exists_segment_ok {p : Path α} {s : Segment} (h : s.Refers p.vertices.length) (f : Frame α)
    (d : Direction) (index : Nat) : ∃ v, (segment f p d index s).result = .ok v := by
  have hstart := List.getElem?_eq_getElem h.start_lt
  have hfinish := List.getElem?_eq_getElem h.finish_lt
  unfold segment
  cases s with
  | straight start finish =>
    cases d with
    | forward => simp only [hfinish]; exact ⟨_, rfl⟩
    | reverse => simp only [hstart]; exact ⟨_, rfl⟩
  | arc start finish center sense =>
    have hcenter := List.getElem?_eq_getElem h.2.2
    cases d with
    | forward => simp only [hfinish, hcenter]; exact ⟨_, rfl⟩
    | reverse => simp only [hstart, hcenter]; exact ⟨_, rfl⟩

theorem exists_segments_ok {f : Frame α} {p : Path α} {d : Direction} {l : List (Segment × Nat)}
    (h : ∀ x ∈ l, x.1.Refers p.vertices.length) (position : Vec α) :
    ∃ v, (segments f p d l position).result = .ok v := by
  induction l generalizing position with
  | nil => exact ⟨position, rfl⟩
  | cons head rest ih =>
    obtain ⟨s, index⟩ := head
    obtain ⟨far, hfar⟩ := exists_segment_ok (h _ List.mem_cons_self) f d index
    rw [segments, Block.bind_of_ok hfar]
    exact ih (fun x hx => h x (List.mem_cons_of_mem _ hx)) _

theorem exists_pass_ok {f : Frame α} {p : Path α} (hp : p.check = .ok ()) (d : Direction)
    (position : Vec α) : ∃ v, (pass f p d position).result = .ok v := by
  have hrefers : ∀ x ∈ p.segments.zipIdx, x.1.Refers p.vertices.length := fun x hx =>
    Path.check_eq_ok.mp hp x.1 (List.fst_mem_of_mem_zipIdx hx)
  cases d with
  | forward => exact exists_segments_ok hrefers position
  | reverse =>
    exact exists_segments_ok (fun x hx => hrefers x (List.mem_reverse.mp hx)) position

/-- What the first of several passes adds before the others. -/
theorem passes_cons_of_ok {f : Frame α} {p : Path α} {z : α} {d : Direction} {position v : Vec α}
    (h : (pass f p d { position with z }).result = .ok v) (rest : List α) (number : Nat) :
    ∃ next : Direction, passes f p (z :: rest) number d position =
      ⟨[.enter .plunging, .remark (.stepDown z), feedZ z, .enter (.cutting d number)] ++
        ((pass f p d { position with z }).commands ++
          (passes f p rest (number + 1) next v).commands),
        (passes f p rest (number + 1) next v).result⟩ := by
  refine ⟨if v == { position with z } then d else d.reversed, ?_⟩
  rw [passes, Block.issue_bind, Block.bind_of_ok h]

theorem passes_ok {f : Frame α} {p : Path α} (hp : p.check = .ok ()) (heights : List α)
    (number : Nat) (d : Direction) (position : Vec α) :
    (passes f p heights number d position).result = .ok () := by
  induction heights generalizing number d position with
  | nil => rfl
  | cons z rest ih =>
    obtain ⟨v, hv⟩ := exists_pass_ok (f := f) hp d { position with z }
    obtain ⟨next, hpasses⟩ := passes_cons_of_ok hv rest number
    rw [hpasses]
    exact ih _ _ _

theorem commands_path {o : Options α} {f : Frame α} {p : Path α} {v : Vec α}
    (hp : p.check = .ok ()) (hv : p.start? = some v) (hd : (descent o f v).passes ≠ []) :
    (path o f p).commands = approach o (f.place v) ++
      (passes f p (descent o f v).passes 0 .forward (f.place v)).commands ++ toSafeHeight o := by
  rw [path_of_passes hv hd, Block.issue_bind, Block.bind_of_ok (passes_ok hp _ _ _ _),
    List.append_assoc]
  rfl

theorem path_ok {p : Path α} (hp : p.check = .ok ()) (o : Options α) (f : Frame α) :
    (path o f p).result = .ok () := by
  cases hv : p.start? with
  | none => rw [path_of_no_start hv]; rfl
  | some v =>
    by_cases hd : (descent o f v).passes = []
    · rw [path_of_no_pass hv hd]
      rfl
    · rw [path_of_passes hv hd, Block.issue_bind, Block.bind_of_ok (passes_ok hp _ _ _ _)]
      rfl

/-- The strokes of a hole as commands. -/
def pecks (o : Options α) (f : Frame α) : List (Command α) :=
  (descent o f .zero).strokes.flatMap fun k => feedZ k.plunge :: (k.retract.map feedZ).toList

theorem exists_feedZ_of_mem_pecks {o : Options α} {f : Frame α} {c : Command α}
    (hc : c ∈ pecks o f) : ∃ z, c = feedZ z := by
  obtain ⟨k, -, hc⟩ := List.mem_flatMap.mp hc
  rcases List.mem_cons.mp hc with rfl | hc
  · exact ⟨k.plunge, rfl⟩
  · obtain ⟨z, -, rfl⟩ := Option.map_eq_some_iff.mp (Option.mem_toList.mp hc)
    exact ⟨z, rfl⟩

theorem carving_pecks (o : Options α) (f : Frame α) : ∀ c ∈ pecks o f, c.isCarving := by
  intro c hc
  obtain ⟨z, rfl⟩ := exists_feedZ_of_mem_pecks hc
  rfl

theorem peck_of_le {o : Options α} {f : Frame α} (h : (f.place .zero).z ≤ f.bottom .zero) :
    peck o f = pure () := if_pos h

theorem peck_of_not_le {o : Options α} {f : Frame α} (h : ¬ (f.place .zero).z ≤ f.bottom .zero) :
    peck o f = .issue (approach o (f.place .zero) ++ pecks o f ++ toSafeHeight o) := if_neg h

theorem peck_ok (o : Options α) (f : Frame α) : (peck o f).result = .ok () := by
  by_cases h : (f.place .zero).z ≤ f.bottom .zero
  · rw [peck_of_le h]
    rfl
  · rw [peck_of_not_le h]
    rfl

/-- The radius of the circle that the tip follows in a wide hole. -/
def millRadius (f : Frame α) (diameter : α) : α :=
  (f.length diameter - f.job.bit.tipWidth) / two / f.placement.lengthScale

theorem hole_of_narrow {o : Options α} {f : Frame α} {diameter : α}
    (h : f.length diameter - f.job.bit.tipWidth ≤ 0) :
    hole o f diameter = (do
      Block.issue [.remark (.pecked (f.length diameter) f.job.native.name)]
      peck o f) := if_pos h

theorem hole_of_wide {o : Options α} {f : Frame α} {diameter : α}
    (h : ¬ f.length diameter - f.job.bit.tipWidth ≤ 0) :
    hole o f diameter = (do
      Block.issue [.remark (.circled (f.length diameter) f.job.native.name)]
      path o f (Path.circle (millRadius f diameter))) := if_neg h

end Carve

namespace Call
variable {α : Type}

/-- Whether a call carves along an outline: a path or a round hole. -/
def isOutline : Call α → Bool
  | .trace _ _ => true
  | .hole _ _ => true
  | _ => false

/-- The local point that the outline of a call starts at. -/
def entry? [Scalar α] : Call α → Option (Vec α)
  | .trace _ p => p.start?
  | .hole f diameter =>
    if f.length diameter - f.job.bit.tipWidth ≤ 0 then some .zero
    else (Path.circle (Carve.millRadius f diameter)).start?
  | _ => none

end Call

namespace Carve
variable {α : Type} [Scalar α]

theorem outline_ok {o : Options α} {c : Call α} (hout : c.isOutline)
    (hc : ∀ f p, c = .trace f p → p.check = .ok ()) : (block o c).result = .ok () := by
  cases c with
  | trace f p => exact path_ok (hc f p rfl) o f
  | hole f diameter =>
    rw [block]
    by_cases hnarrow : f.length diameter - f.job.bit.tipWidth ≤ 0
    · rw [hole_of_narrow hnarrow, Block.issue_bind]
      exact peck_ok o f
    · rw [hole_of_wide hnarrow, Block.issue_bind]
      exact path_ok (Path.check_circle _) o f
  | comment f text => cases hout
  | pocket f p => cases hout
  | pause f => cases hout

/-- Where a ring starts and ends. -/
def ringStart (f : Frame α) (center : Vec α) (r : Ring α) : Vec α :=
  ⟨center.x, center.y - r.radius, f.aboveFloor (center.z - r.depth)⟩

/-- The way to the start of a ring. -/
def ringEntry (o : Options α) (number : Nat) (start : Vec α) : List (Command α) :=
  if number = 0 then approach o start else [.enter .plunging, feedXY start, feedZ start.z]

theorem rings_cons (o : Options α) (f : Frame α) (center : Vec α) (number : Nat) (r : Ring α)
    (rest : List (Ring α)) : rings o f center number (r :: rest) =
      ringEntry o number (ringStart f center r) ++
        [.enter (.cutting .forward number), .arc true (ringStart f center r) center] ++
        rings o f center (number + 1) rest := rfl

/-- All rings but the first are entered from the ring before. -/
theorem carving_rings (o : Options α) (f : Frame α) (center : Vec α) (number : Nat)
    (hn : number ≠ 0) (l : List (Ring α)) :
    ∀ c ∈ rings o f center number l, c.isCarving := by
  induction l generalizing number with
  | nil => simp [rings]
  | cons r rest ih =>
    intro c hc
    simp only [rings, if_neg hn, List.mem_append, List.mem_cons, List.not_mem_nil,
      or_false] at hc
    rcases hc with ((rfl | rfl | rfl) | (rfl | rfl)) | hc
    · rfl
    · rfl
    · rfl
    · rfl
    · rfl
    · exact ih (number + 1) (Nat.succ_ne_zero number) c hc

end Carve
end Toolpath
