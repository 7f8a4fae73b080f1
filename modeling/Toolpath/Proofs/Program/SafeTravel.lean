import Toolpath.Proofs.Program.Carving
import Toolpath.Proofs.Scalar.Binary

/-! Rapid travel and pauses happen with the tool up. Every call that succeeds leaves it there. -/
namespace Toolpath
open Scalar

/-- The larger of two values is not below the first, also where one of them is no number. -/
theorem not_greater_lt {α : Type} [Scalar α] [Std.Irrefl (fun a b : α => a < b)] (a b : α) :
    ¬ greater a b < a := by
  unfold greater
  split_ifs with hba hnan
  · exact Std.Irrefl.irrefl a
  · exact Std.Irrefl.irrefl a
  · exact hba

namespace Machine
variable {α : Type} [Scalar α]

/-- The tool is at the safe height, and the router knows it. -/
structure AtRest (o : Options α) (m : Machine α) : Prop where
  height : m.position.z = o.safeHeight
  phase : m.phase = .atSafeHeight

/-- Rapid motion is sideways only at the safe height and never ends below the lowest height that
rapid motion may reach. A pause finds the tool at rest. -/
def TravelsSafely (o : Options α) (s : Style α) (m : Machine α) (c : Command α) : Prop :=
  match c with
  | .rapid t =>
    (t.x.isSome ∨ t.y.isSome →
      m.position.z = o.safeHeight ∧ (m.step s c).1.position.z = o.safeHeight) ∧
      ¬ (m.step s c).1.position.z < o.minimumFastZ
  | .pause => m.AtRest o
  | _ => True

theorem travelsSafely_of_isCarving {o : Options α} {s : Style α} {m : Machine α} {c : Command α}
    (h : c.isCarving) : m.TravelsSafely o s c := by
  cases c <;> simp_all [Command.isCarving, TravelsSafely]

end Machine

namespace Carve
open Machine
variable {α : Type} [Scalar α] {o : Options α} {s : Style α}

/-- A list of commands that travels safely from anywhere. -/
def Safe (o : Options α) (s : Style α) (l : List (Command α)) : Prop :=
  ∀ m : Machine α, m.Always s (TravelsSafely o s) l

theorem safe_append {a b : List (Command α)} (ha : Safe o s a) (hb : Safe o s b) :
    Safe o s (a ++ b) := fun m => always_append.mpr ⟨ha m, hb _⟩

theorem safe_of_isCarving {l : List (Command α)} (h : ∀ c ∈ l, c.isCarving) : Safe o s l :=
  fun _ => always_of_forall fun c hc _ => travelsSafely_of_isCarving (h c hc)

theorem safe_toSafeHeight (ho : o.InRange) : Safe o s (toSafeHeight o) := by
  intro m
  simp [toSafeHeight, rapidZ, TravelsSafely, Command.height?, ho.heights]

theorem atRest_toSafeHeight (m : Machine α) : (m.run s (toSafeHeight o)).1.AtRest o := by
  constructor
  · simp [toSafeHeight, rapidZ, Command.height?]
  · simp [toSafeHeight, rapidZ, Command.phase?]

theorem safe_approach [Std.Irrefl (fun a b : α => a < b)] (ho : o.InRange) (p : Vec α) :
    Safe o s (approach o p) := by
  have hfast : ¬ greater o.minimumFastZ p.z < o.minimumFastZ := not_greater_lt _ _
  intro m
  have hm := atRest_toSafeHeight (o := o) (s := s) m
  rw [approach, always_append, always_append]
  refine ⟨⟨safe_toSafeHeight ho m, ?_⟩, ?_⟩
  · simp [rapidXY, rapidZ, TravelsSafely, Command.height?, hm.height, ho.heights, hfast]
  · apply always_of_forall
    intro c hc m'
    split_ifs at hc
    · simp at hc
    · rw [List.mem_singleton.mp hc]
      trivial

end Carve

/-- Started at rest, a block travels safely, and it ends at rest unless it fails. -/
structure Block.KeepsRest {α : Type} [Scalar α] (o : Options α) (s : Style α)
    (b : Block α Unit) : Prop where
  safe : ∀ {m : Machine α}, m.AtRest o → m.Always s (Machine.TravelsSafely o s) b.commands
  rest : ∀ {m : Machine α}, m.AtRest o → b.result = .ok () → (m.run s b.commands).1.AtRest o

namespace Carve
open Machine Block
variable {α : Type} [Scalar α] {o : Options α} {s : Style α}

theorem keepsRest_pure : KeepsRest o s (pure () : Block α Unit) where
  safe _ := trivial
  rest hm _ := hm

theorem keepsRest_fail (e : CarveError α) : KeepsRest o s (.fail e : Block α Unit) where
  safe _ := trivial
  rest _ h := by simp at h

theorem keepsRest_issue_toSafeHeight (ho : o.InRange) {l : List (Command α)} (h : Safe o s l) :
    KeepsRest o s (.issue (l ++ toSafeHeight o)) where
  safe _ := safe_append h (safe_toSafeHeight ho) _
  rest _ _ := by
    rw [commands_issue, fst_run_append]
    exact atRest_toSafeHeight _

theorem keepsRest_between (ho : o.InRange) {l : List (Command α)} {b : Block α Unit}
    (hl : Safe o s l) (hb : Safe o s b.commands) :
    KeepsRest o s (do .issue l; b; .issue (toSafeHeight o)) := by
  cases h : b.result with
  | error e =>
    rw [issue_bind, bind_of_error h]
    exact ⟨fun _ => safe_append hl hb _, fun _ h => by simp at h⟩
  | ok _ =>
    rw [issue_bind, bind_of_ok h, commands_issue, ← List.append_assoc]
    exact keepsRest_issue_toSafeHeight ho (safe_append hl hb)

theorem keepsRest_remark (r : Remark α) {b : Block α Unit} (hb : KeepsRest o s b) :
    KeepsRest o s (do .issue [.remark r]; b) := by
  rw [issue_bind]
  exact ⟨fun hm => ⟨trivial, hb.safe hm⟩, fun hm h => hb.rest hm h⟩

theorem commands_setup {job : Job α} (h : (setup o job).result = .ok ()) :
    ∃ l, (∀ m : Machine α, m.Always s (TravelsSafely o s) l) ∧
      (setup o job).commands = l ++ toSafeHeight o ++ [.blank] := by
  unfold setup at h ⊢
  cases hj : job.system with
  | error e => simp [hj] at h
  | ok u =>
    exact ⟨[.absolute, .system u, .feedRate o.feedRate, .spindleSpeed o.spindleSpeed, .spindleOn],
      fun m => by simp [TravelsSafely], rfl⟩

theorem atRest_setup {job : Job α} (h : (setup o job).result = .ok ()) (m : Machine α) :
    (m.run s (setup o job).commands).1.AtRest o := by
  obtain ⟨l, -, hc⟩ := commands_setup (s := s) h
  have hr := atRest_toSafeHeight (o := o) (s := s) (m.run s l).1
  rw [hc, fst_run_append, fst_run_append]
  exact ⟨hr.height, hr.phase⟩

variable [Std.Irrefl (fun a b : α => a < b)]

theorem keepsRest_path (ho : o.InRange) (f : Frame α) (p : Path α) :
    KeepsRest o s (path o f p) := by
  cases hv : p.start? with
  | none => rw [path_of_no_start hv]; exact keepsRest_pure
  | some v =>
    by_cases hp : (descent o f v).passes = []
    · rw [path_of_no_pass hv hp]
      exact keepsRest_pure
    · rw [path_of_passes hv hp]
      exact keepsRest_between ho (safe_approach ho _) (safe_of_isCarving (carving_passes f p _ _ _ _))

theorem keepsRest_peck (ho : o.InRange) (f : Frame α) : KeepsRest o s (peck o f) := by
  by_cases h : (f.place .zero).z ≤ f.bottom .zero
  · rw [peck_of_le h]
    exact keepsRest_pure
  · rw [peck_of_not_le h]
    exact keepsRest_issue_toSafeHeight ho
      (safe_append (safe_approach ho _) (safe_of_isCarving (carving_pecks o f)))

theorem keepsRest_hole (ho : o.InRange) (f : Frame α) (diameter : α) :
    KeepsRest o s (hole o f diameter) := by
  by_cases h : f.length diameter - f.job.bit.tipWidth ≤ 0
  · rw [hole_of_narrow h]
    exact keepsRest_remark _ (keepsRest_peck ho f)
  · rw [hole_of_wide h]
    exact keepsRest_remark _ (keepsRest_path ho f _)

theorem safe_rings (ho : o.InRange) (f : Frame α) (center : Vec α) (l : List (Ring α)) :
    Safe o s (rings o f center 0 l) := by
  cases l with
  | nil => exact fun _ => trivial
  | cons r rest =>
    have hfirst : Safe o s [.enter (.cutting .forward 0),
        .arc true ⟨center.x, center.y - r.radius, f.aboveFloor (center.z - r.depth)⟩ center] :=
      fun _ => ⟨trivial, trivial, trivial⟩
    exact safe_append (safe_append (safe_approach ho _) hfirst)
      (safe_of_isCarving (carving_rings o f center 1 Nat.one_ne_zero rest))

theorem keepsRest_pocket (ho : o.InRange) (f : Frame α) (p : Pocket α) :
    KeepsRest o s (pocket o f p) := by
  unfold pocket
  dsimp only
  split_ifs
  · exact keepsRest_fail _
  · exact keepsRest_pure
  · split
    · exact keepsRest_fail _
    · exact keepsRest_issue_toSafeHeight ho (safe_rings ho f _ _)

/-- Every call finds the tool at rest and leaves it there. -/
theorem keepsRest_block (ho : o.InRange) (c : Call α) : KeepsRest o s (block o c) := by
  cases c with
  | comment f text => exact ⟨fun _ => ⟨trivial, trivial⟩, fun hm _ => hm⟩
  | trace f p => exact keepsRest_path ho f p
  | hole f diameter => exact keepsRest_hole ho f diameter
  | pocket f p => exact keepsRest_pocket ho f p
  | pause f => exact ⟨fun hm => ⟨hm, trivial⟩, fun hm _ => hm⟩

theorem atRest_work (ho : o.InRange) {m : Machine α} (hm : m.AtRest o) {calls : List (Call α)}
    (h : ∀ c ∈ calls, (block o c).result = .ok ()) : (m.run s (work o calls)).1.AtRest o := by
  induction calls generalizing m with
  | nil => exact hm
  | cons c rest ih =>
    rw [work_cons, fst_run_append]
    exact ih ((keepsRest_block ho c).rest hm (h c List.mem_cons_self))
      fun d hd => h d (List.mem_cons_of_mem c hd)

theorem always_work_reached (ho : o.InRange) {m : Machine α} (hm : m.AtRest o)
    (calls : List (Call α)) : m.Always s (TravelsSafely o s) (work o (reached o calls)) := by
  induction calls generalizing m with
  | nil => trivial
  | cons c rest ih =>
    have hc := keepsRest_block (s := s) ho c
    cases h : (block o c).result with
    | error e =>
      rw [reached_cons_of_error h, work_cons]
      exact always_append.mpr ⟨hc.safe hm, trivial⟩
    | ok _ =>
      rw [reached_cons_of_ok h, work_cons]
      exact always_append.mpr ⟨hc.safe hm, ih (hc.rest hm h)⟩

theorem always_issued (ho : o.InRange) (job : Job α) (cuts : List (Cut α)) (m : Machine α) :
    m.Always s (TravelsSafely o s) (issued o job cuts) := by
  rcases issued_eq_append o job cuts with ⟨hi, -⟩ | ⟨hs, tail, ht, hi⟩
  · rw [hi]
    trivial
  obtain ⟨l, hl, hc⟩ := commands_setup (s := s) hs
  have hblank : Safe o s [.blank] := fun _ => ⟨trivial, trivial⟩
  have hopening : Safe o s (setup o job).commands := by
    rw [hc]
    exact safe_append (safe_append hl (safe_toSafeHeight ho)) hblank
  have hwork : (m.run s (setup o job).commands).1.Always s (TravelsSafely o s)
      (work o (made o job cuts)) := by
    rw [made, hs]
    exact always_work_reached ho (atRest_setup hs m) _
  have htail : Safe o s tail := by
    rcases ht with rfl | rfl
    · exact fun _ => trivial
    · refine safe_append (safe_append (fun _ => ?_) (safe_toSafeHeight ho)) fun _ => ?_
      · exact ⟨trivial, trivial, trivial⟩
      · exact ⟨trivial, trivial⟩
  rw [hi]
  exact always_append.mpr ⟨always_append.mpr ⟨hopening m, hwork⟩, htail _⟩

/-- In every run, also one that fails, each command travels safely where it finds the router, and
each call that succeeds leaves the tool at rest after whatever was carved before it. -/
theorem issued_travelsSafely (o : Options α) (ho : o.check = .ok ()) (job : Job α)
    (cuts : List (Cut α)) (s : Style α) (m : Machine α) :
    (∀ before c after, issued o job cuts = before ++ c :: after →
      (m.run s before).1.TravelsSafely o s c) ∧
    ∀ before c, before ++ [c] <+: made o job cuts → (block o c).result = .ok () →
      (setup o job).commands ++ work o (before ++ [c]) <+: issued o job cuts ∧
        (m.run s ((setup o job).commands ++ work o (before ++ [c]))).1.AtRest o := by
  have hr := Options.inRange_of_check ho
  refine ⟨fun before c after h => (always_issued hr job cuts m).apply h, fun before c hpre hc => ?_⟩
  have hs : (setup o job).result = .ok () := by
    cases hs : (setup o job).result with
    | ok _ => rfl
    | error e => simp [made, hs] at hpre
  refine ⟨work_prefix_issued hpre (by simp), ?_⟩
  rw [fst_run_append]
  refine atRest_work hr (atRest_setup hs m) fun d hd => ?_
  rcases List.mem_append.mp hd with hd | hd
  · obtain ⟨after, hpre⟩ := hpre
    rw [made, hs, List.append_assoc] at hpre
    exact result_of_reached_append hpre.symm (by simp) d hd
  · rw [List.mem_singleton.mp hd]
    exact hc

/-- The pause of a program that does nothing else finds the tool at rest. -/
theorem issued_travelsSafely_pause :
    (Options.standard : Options Float).check = .ok () ∧
      ∃ before after, issued .standard .quarterInch [.pause none] = before ++ .pause :: after ∧
        (Machine.initial.run Options.standard.style before).1.AtRest Options.standard := by
  have hcheck : (Options.standard : Options Float).check = .ok () := rfl
  have hsafe := issued_travelsSafely .standard hcheck .quarterInch [.pause none]
    Options.standard.style .initial
  have hissued : issued Options.standard .quarterInch [.pause none] =
      (setup .standard .quarterInch).commands ++ .pause :: shutdown (Options.standard (α := Float)) :=
    rfl
  exact ⟨hcheck, _, _, hissued, hsafe.1 _ _ _ hissued⟩

end Carve
end Toolpath
