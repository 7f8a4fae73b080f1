import Toolpath.Proofs.Program.Pocket
import Toolpath.Proofs.Program.SafeTravel
import Toolpath.Proofs.Scalar.Rounded

/-!
The heights that rapid moves end at: the safe height, and over each place where a cut is begun the
larger of its own height and the lowest that the settings allow.
-/
namespace Toolpath
open Scalar

/-- Whether a command is a rapid move. -/
def Command.isRapid {α : Type} : Command α → Bool
  | .rapid _ => true
  | _ => false

theorem Command.isRapid_of_isCarving {α : Type} {c : Command α} (h : c.isCarving) :
    c.isRapid = false := by
  cases c <;> simp_all [isCarving, isRapid]

namespace Machine
variable {α : Type} [Scalar α]

/-- The heights that rapid moves leave the tool at, in order. -/
def rapidHeights (s : Style α) (m : Machine α) (l : List (Command α)) : List α :=
  m.gather s (fun m c => if c.isRapid then [(m.step s c).1.position.z] else []) l

theorem rapidHeights_append (s : Style α) (m : Machine α) (a b : List (Command α)) :
    m.rapidHeights s (a ++ b) = m.rapidHeights s a ++ (m.run s a).1.rapidHeights s b :=
  gather_append _ m a b

theorem rapidHeights_eq_nil {l : List (Command α)} (h : ∀ c ∈ l, c.isRapid = false) (s : Style α)
    (m : Machine α) : m.rapidHeights s l = [] :=
  gather_eq_nil (fun c hc _ => if_neg (by rw [h c hc]; exact Bool.false_ne_true)) m

end Machine

namespace Carve
open Machine
variable {α : Type} [Scalar α] {o : Options α} {s : Style α}

/-- Where the tool is brought to for a path, unless there is nothing of it to cut. -/
def pathPlunges (o : Options α) (f : Frame α) (p : Path α) : List (Vec α) :=
  match p.start? with
  | none => []
  | some v => if (descent o f v).passes.isEmpty then [] else [f.place v]

theorem pathPlunges_of_no_pass {f : Frame α} {p : Path α} {v : Vec α} (hv : p.start? = some v)
    (hp : (descent o f v).passes = []) : pathPlunges o f p = [] := by
  simp [pathPlunges, hv, hp]

theorem pathPlunges_of_passes {f : Frame α} {p : Path α} {v : Vec α} (hv : p.start? = some v)
    (hp : (descent o f v).passes ≠ []) : pathPlunges o f p = [f.place v] := by
  simp [pathPlunges, hv, hp]

/-- Where the tool is brought to for a hole that is pecked, unless there is no stock below. -/
def peckPlunges (f : Frame α) : List (Vec α) :=
  if (f.place .zero).z ≤ f.bottom .zero then [] else [f.place .zero]

/-- The places that a call brings the tool to from the safe height. -/
def plunges (o : Options α) : Call α → List (Vec α)
  | .trace f p => pathPlunges o f p
  | .hole f diameter =>
    if f.length diameter - f.job.bit.tipWidth ≤ 0 then peckPlunges f
    else pathPlunges o f (Path.circle (millRadius f diameter))
  | .pocket f p => ((carvedRings f p).head?.map (ringStart f (f.place .zero))).toList
  | _ => []

/-- The heights of rapid moves that bring the tool to some places. -/
structure RapidOver (o : Options α) (places : List (Vec α)) (heights : List α) : Prop where
  only : ∀ z ∈ heights, z = o.safeHeight ∨ ∃ p ∈ places, z = greater o.minimumFastZ p.z
  all : ∀ p ∈ places, greater o.minimumFastZ p.z ∈ heights

theorem RapidOver.nil : RapidOver o [] [] := ⟨by simp, by simp⟩

theorem RapidOver.append {a b : List (Vec α)} {x y : List α} (ha : RapidOver o a x)
    (hb : RapidOver o b y) : RapidOver o (a ++ b) (x ++ y) where
  only z hz := by
    rcases List.mem_append.mp hz with hz | hz
    · exact (ha.only z hz).imp_right fun ⟨p, hp, h⟩ => ⟨p, List.mem_append_left b hp, h⟩
    · exact (hb.only z hz).imp_right fun ⟨p, hp, h⟩ => ⟨p, List.mem_append_right a hp, h⟩
  all p hp := by
    rcases List.mem_append.mp hp with hp | hp
    · exact List.mem_append_left y (ha.all p hp)
    · exact List.mem_append_right x (hb.all p hp)

theorem rapidOver_still {l : List (Command α)} (h : ∀ c ∈ l, c.isRapid = false) (m : Machine α) :
    RapidOver o [] (m.rapidHeights s l) := by
  rw [rapidHeights_eq_nil h]
  exact .nil

theorem rapidOver_carving {l : List (Command α)} (h : ∀ c ∈ l, c.isCarving) (m : Machine α) :
    RapidOver o [] (m.rapidHeights s l) :=
  rapidOver_still (fun c hc => Command.isRapid_of_isCarving (h c hc)) m

theorem rapidOver_toSafeHeight (m : Machine α) :
    RapidOver o [] (m.rapidHeights s (toSafeHeight o)) where
  only _ hz := .inl (List.mem_singleton.mp hz)
  all p hp := by cases hp

theorem rapidOver_approach (m : Machine α) (p : Vec α) :
    RapidOver o [p] (m.rapidHeights s (approach o p)) := by
  have hheights : m.rapidHeights s (approach o p) =
      [o.safeHeight, o.safeHeight, greater o.minimumFastZ p.z] := by
    unfold approach
    rw [rapidHeights_append]
    split_ifs <;> rfl
  rw [hheights]
  constructor
  · intro z hz
    simp only [List.mem_cons, List.not_mem_nil, or_false, or_self_left] at hz
    exact hz.imp_right fun h => ⟨p, List.mem_singleton_self p, h⟩
  · intro q hq
    rw [List.mem_singleton.mp hq]
    simp

/-- What is cut after an approach does not change what the tool was brought to. -/
theorem rapidOver_between (p : Vec α) {b : Block α Unit} (hb : ∀ c ∈ b.commands, c.isCarving)
    (m : Machine α) :
    RapidOver o [p] (m.rapidHeights s (do
      Block.issue (approach o p); b; Block.issue (toSafeHeight o) : Block α Unit).commands) := by
  have hcut (m : Machine α) : RapidOver o [p] (m.rapidHeights s (approach o p ++ b.commands)) := by
    rw [rapidHeights_append]
    exact (rapidOver_approach m p).append (rapidOver_carving hb _)
  cases h : b.result with
  | error e =>
    rw [Block.issue_bind, Block.bind_of_error h]
    exact hcut m
  | ok _ =>
    rw [Block.issue_bind, Block.bind_of_ok h, Block.commands_issue, ← List.append_assoc,
      rapidHeights_append]
    exact (hcut m).append (rapidOver_toSafeHeight _)

theorem rapidOver_path (o : Options α) (s : Style α) (f : Frame α) (p : Path α) (m : Machine α) :
    RapidOver o (pathPlunges o f p) (m.rapidHeights s (path o f p).commands) := by
  cases hv : p.start? with
  | none =>
    rw [path_of_no_start hv, pathPlunges, hv]
    exact .nil
  | some v =>
    by_cases hp : (descent o f v).passes = []
    · rw [path_of_no_pass hv hp, pathPlunges_of_no_pass hv hp]
      exact .nil
    · rw [path_of_passes hv hp, pathPlunges_of_passes hv hp]
      exact rapidOver_between _ (carving_passes f p _ _ _ _) m

theorem rapidOver_peck (o : Options α) (s : Style α) (f : Frame α) (m : Machine α) :
    RapidOver o (peckPlunges f) (m.rapidHeights s (peck o f).commands) := by
  unfold peckPlunges
  split_ifs with h
  · rw [peck_of_le h]
    exact .nil
  · rw [peck_of_not_le h, Block.commands_issue, rapidHeights_append, rapidHeights_append]
    exact ((rapidOver_approach m _).append (rapidOver_carving (carving_pecks o f) _)).append
      (rapidOver_toSafeHeight _)

theorem rapidOver_rings (f : Frame α) (center : Vec α) (l : List (Ring α)) (m : Machine α) :
    RapidOver o (l.head?.map (ringStart f center)).toList
      (m.rapidHeights s (rings o f center 0 l)) := by
  cases l with
  | nil => exact .nil
  | cons r rest =>
    rw [rings_cons, rapidHeights_append, rapidHeights_append]
    refine ((rapidOver_approach m _).append (rapidOver_carving ?_ _)).append
      (rapidOver_carving (carving_rings o f center 1 Nat.one_ne_zero rest) _)
    simp [Command.isCarving]

theorem rapidOver_pocket (o : Options α) (s : Style α) (f : Frame α) (p : Pocket α)
    (m : Machine α) : RapidOver o ((carvedRings f p).head?.map (ringStart f (f.place .zero))).toList
      (m.rapidHeights s (pocket o f p).commands) := by
  rcases pocket_cases f p with ⟨plan, hopen, habove, hplan⟩ | ⟨hrings, hcommands⟩
  · rw [commands_pocket_of_plan hopen habove hplan, rapidHeights_append]
    simpa using (rapidOver_rings f (f.place .zero) (carvedRings f p) m).append
      (rapidOver_toSafeHeight _)
  · rw [hrings, hcommands]
    exact .nil

theorem rapidOver_remark {places : List (Vec α)} (r : Remark α) {b : Block α Unit} (m : Machine α)
    (h : ∀ m : Machine α, RapidOver o places (m.rapidHeights s b.commands)) :
    RapidOver o places
      (m.rapidHeights s (do Block.issue [.remark r]; b : Block α Unit).commands) := by
  rw [Block.issue_bind, rapidHeights_append]
  exact (rapidOver_still (by simp [Command.isRapid]) m).append (h _)

/-- What one call brings the tool to. -/
theorem rapidOver_block (o : Options α) (s : Style α) (c : Call α) (m : Machine α) :
    RapidOver o (plunges o c) (m.rapidHeights s (block o c).commands) := by
  cases c with
  | comment f text => exact rapidOver_still (by simp [block, Command.isRapid]) m
  | trace f p => exact rapidOver_path o s f p m
  | hole f diameter =>
    rw [plunges, block]
    split_ifs with h
    · rw [hole_of_narrow h]
      exact rapidOver_remark _ m (rapidOver_peck o s f)
    · rw [hole_of_wide h]
      exact rapidOver_remark _ m (rapidOver_path o s f _)
  | pocket f p => exact rapidOver_pocket o s f p m
  | pause f => exact rapidOver_still (by simp [block, Command.isRapid]) m

theorem rapidOver_work (o : Options α) (s : Style α) (calls : List (Call α)) (m : Machine α) :
    RapidOver o (calls.flatMap (plunges o)) (m.rapidHeights s (work o calls)) := by
  induction calls generalizing m with
  | nil => exact .nil
  | cons c rest ih =>
    rw [work_cons, rapidHeights_append, List.flatMap_cons]
    exact (rapidOver_block o s c m).append (ih _)

theorem rapidHeights_setup {job : Job α} (h : (setup o job).result = .ok ()) (m : Machine α) :
    m.rapidHeights s (setup o job).commands = [o.safeHeight] := by
  unfold setup at h ⊢
  cases hj : job.system with
  | error e => simp [hj] at h
  | ok u => rfl

/-- A run that issues anything goes to the safe height, and to the places that its calls bring the
tool to. -/
theorem rapidOver_issued (o : Options α) (job : Job α) (cuts : List (Cut α)) (s : Style α)
    (m : Machine α) : issued o job cuts = [] ∧ made o job cuts = [] ∨
      o.safeHeight ∈ m.rapidHeights s (issued o job cuts) ∧
        RapidOver o ((made o job cuts).flatMap (plunges o))
          (m.rapidHeights s (issued o job cuts)) := by
  rcases issued_eq_append o job cuts with hnone | ⟨hs, tail, ht, hi⟩
  · exact .inl hnone
  have hsetup : RapidOver o [] (m.rapidHeights s (setup o job).commands) := by
    rw [rapidHeights_setup hs]
    exact rapidOver_toSafeHeight (s := s) m
  have htail (m : Machine α) : RapidOver o [] (m.rapidHeights s tail) := by
    rcases ht with rfl | rfl
    · exact .nil
    · exact rapidOver_toSafeHeight (s := s) m
  rw [hi, rapidHeights_append, rapidHeights_append]
  refine .inr ⟨?_, by simpa using (hsetup.append (rapidOver_work o s _ _)).append (htail _)⟩
  rw [rapidHeights_setup hs]
  exact List.mem_append_left _ (List.mem_append_left _ (List.mem_singleton_self _))

section
variable {o : Options Float} {places : List (Vec Float)} {heights : List Float}

/-- All rapid moves end at or above a height exactly if it is not above the safe height, and every
place that is below it is below what the settings allow. -/
theorem RapidOver.forall_le_iff (h : RapidOver o places heights) (hsafe : o.safeHeight ∈ heights)
    (hfast : isFinite o.minimumFastZ = true) (bound : Float) : (∀ z ∈ heights, bound ≤ z) ↔
      bound ≤ o.safeHeight ∧ ∀ p ∈ places, bound ≤ o.minimumFastZ ∨ bound ≤ p.z := by
  obtain ⟨x, hx, -⟩ := Binary.isFinite_iff.mp hfast
  constructor
  · exact fun hall =>
      ⟨hall _ hsafe, fun p hp => (Binary.le_greater_iff hx).mp (hall _ (h.all p hp))⟩
  · rintro ⟨hbound, hplaces⟩ z hz
    rcases h.only z hz with rfl | ⟨p, hp, rfl⟩
    · exact hbound
    · exact (Binary.le_greater_iff hx).mpr (hplaces p hp)

end

theorem fast_le_safe {o : Options Float} (h : o.InRange) : o.minimumFastZ ≤ o.safeHeight := by
  obtain ⟨x, hx, -⟩ := Binary.isFinite_iff.mp h.finite.1
  obtain ⟨y, hy, -⟩ := Binary.isFinite_iff.mp h.finite.2
  exact (Binary.not_lt_iff hx hy).mp h.heights

/-- No rapid move of a run ends below the lowest height that the settings allow to rapid motion, so
none ends below the top face where that height is not below it. Otherwise they all end at or above
the top face exactly if the safe height does and no cut that is made is begun below it. -/
theorem rapid_above_top_iff (o : Options Float) (ho : o.check = .ok ()) (job : Job Float)
    (cuts : List (Cut Float)) (s : Style Float) (m : Machine Float) :
    (∀ z ∈ m.rapidHeights s (issued o job cuts), o.minimumFastZ ≤ z) ∧
    (0 ≤ o.minimumFastZ → ∀ z ∈ m.rapidHeights s (issued o job cuts), 0 ≤ z) ∧
    ((∀ z ∈ m.rapidHeights s (issued o job cuts), 0 ≤ z) ↔ issued o job cuts = [] ∨
      0 ≤ o.safeHeight ∧
        ∀ c ∈ made o job cuts, ∀ p ∈ plunges o c, 0 ≤ o.minimumFastZ ∨ 0 ≤ p.z) := by
  have hr := Options.inRange_of_check ho
  have hsafe := fast_le_safe hr
  rcases rapidOver_issued o job cuts s m with ⟨hnone, -⟩ | ⟨hmem, hover⟩
  · rw [hnone]
    exact ⟨by simp [rapidHeights, gather], by simp [rapidHeights, gather],
      by simp [rapidHeights, gather]⟩
  · have hiff := hover.forall_le_iff hmem hr.finite.2
    have hself : o.minimumFastZ ≤ o.minimumFastZ := by
      obtain ⟨x, hx, -⟩ := Binary.isFinite_iff.mp hr.finite.2
      exact (Binary.le_iff hx hx).mpr le_rfl
    have hsome : issued o job cuts ≠ [] := by
      rintro hnone
      rw [hnone] at hmem
      cases hmem
    refine ⟨(hiff _).mpr ⟨hsafe, fun p _ => .inl hself⟩, fun h => (hiff 0).mpr
      ⟨Binary.float_le_of_le_of_le h hsafe, fun p _ => .inl h⟩, ?_⟩
    rw [hiff 0, or_iff_right hsome, List.forall_mem_flatMap]

/-- Settings that let rapid moves go below the top face. -/
def fastInside : Options Float := { Options.standard with minimumFastZ := -0.1 }

/-- Half a tenth below the origin. -/
def sunkOrigin : Vec Float := ⟨0, 0, -0.05⟩

/-- A line that is drawn below the top face. -/
def sunkLine : Path Float := ⟨[sunkOrigin, sunkOrigin + .unitX], [.straight 0 1]⟩

/-- Cut to a tenth below where it is drawn. -/
def sunkFrame : Frame Float := (Frame.root .quarterInch).sink (.down 0.1)

/-- A line that is begun below the top face is reached by a rapid move that ends there. -/
theorem rapid_below_top : fastInside.check = .ok () ∧
    ∃ z ∈ Machine.initial.rapidHeights fastInside.style
      (issued fastInside .quarterInch [.trace sunkLine (.down 0.1) .middle none]), z < 0 := by
  have hblock : (block fastInside (.trace sunkFrame sunkLine)).result = .ok () :=
    path_ok (p := sunkLine) rfl fastInside sunkFrame
  have hmade : made fastInside .quarterInch [.trace sunkLine (.down 0.1) .middle none] =
      [.trace sunkFrame sunkLine] := reached_cons_of_ok hblock []
  have hpasses : (descent fastInside sunkFrame sunkOrigin).passes ≠ [] :=
    Descent.passes_ne_nil (by decide +kernel) (by decide +kernel)
  have hplunges :
      plunges fastInside (.trace sunkFrame sunkLine) = [sunkFrame.place sunkOrigin] := by
    rw [plunges]
    exact pathPlunges_of_passes rfl hpasses
  obtain ⟨-, hnone⟩ | ⟨-, hover⟩ := rapidOver_issued fastInside .quarterInch
    [.trace sunkLine (.down 0.1) .middle none] fastInside.style .initial
  · rw [hmade] at hnone
    exact absurd hnone (List.cons_ne_nil _ _)
  · rw [hmade, List.flatMap_singleton, hplunges] at hover
    exact ⟨rfl, _, hover.all _ (List.mem_singleton_self _), by decide +kernel⟩

/-- With those settings no rapid move goes further down than they let it. -/
theorem rapid_above_top_iff_sunk : fastInside.check = .ok () ∧
    ∀ z ∈ Machine.initial.rapidHeights fastInside.style
      (issued fastInside .quarterInch [.trace sunkLine (.down 0.1) .middle none]), -0.1 ≤ z :=
  have hcheck : fastInside.check = .ok () := rfl
  ⟨hcheck, (rapid_above_top_iff fastInside hcheck .quarterInch _ _ _).1⟩

end Carve
end Toolpath
