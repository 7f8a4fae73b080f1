import Toolpath.Proofs.Plan.StepDown
import Toolpath.Proofs.Program.Contour

/-! Where the tool is when a segment of a contour is cut. A move says only where it ends, so a gap
between two segments is cut through. -/
namespace Toolpath
namespace Carve
variable {α : Type} [Scalar α] {f : Frame α} {p : Path α} {a b : Vec α}

/-- The second of two segments starts where the first one ends, once they are placed. -/
def Meets (f : Frame α) (p : Path α) (s t : Segment) : Prop :=
  (f.place (p.vertex s.finish)).AlikeXY (f.place (p.vertex t.start))

/-- The commands before a segment of a pass: the passes above it, the way down, and the segments of
the same pass before it. -/
def before (f : Frame α) (p : Path α) (above : List (α × Direction)) (z : α) (d : Direction)
    (done : List Segment) : List (Command α) :=
  contour f p 0 above ++ stepDown z d above.length ++ done.map (cut f p d)

theorem contour_append (number : Nat) (above below : List (α × Direction)) :
    contour f p number (above ++ below) =
      contour f p number above ++ contour f p (number + above.length) below := by
  unfold contour
  rw [List.zipIdx_append, List.flatMap_append]

theorem contour_split {above below : List (α × Direction)} {z : α} {d : Direction}
    {done rest : List Segment} {s : Segment} (h : d.order p.segments = done ++ s :: rest) :
    contour f p 0 (above ++ (z, d) :: below) = before f p above z d done ++ cut f p d s ::
      (rest.map (cut f p d) ++ contour f p (above.length + 1) below) := by
  rw [contour_append, contour_cons, h, before, Nat.zero_add]
  simp only [List.map_append, List.map_cons, List.append_assoc, List.cons_append]

theorem length_headings (first last : Vec α) (heights : List α) (d : Direction)
    (position : Vec α) : (headings first last heights d position).length = heights.length := by
  induction heights generalizing d position with
  | nil => rfl
  | cons z rest ih => rw [headings, List.length_cons, List.length_cons, ih]

section
variable (st : Style α) (m : Machine α)

theorem position_cut (d : Direction) (s : Segment) :
    (m.step st (cut f p d s)).1.position =
      m.position.movedOver (f.place (p.vertex (s.exit d))) := by
  cases s <;> rfl

theorem position_cuts (d : Direction) (l : List Segment) :
    (m.run st (l.map (cut f p d))).1.position = landing f p d l m.position := by
  induction l generalizing m with
  | nil => rfl
  | cons s rest ih => rw [List.map_cons, Machine.run_cons, ih, position_cut, landing_cons]

theorem position_stepDown (z : α) (d : Direction) (number : Nat) :
    (m.run st (stepDown z d number)).1.position = { m.position with z } := rfl

/-- A plunge ends over the point that it goes to. -/
theorem position_approach (o : Options α) (v : Vec α) :
    (m.run st (approach o v)).1.position.movedOver v = (m.run st (approach o v)).1.position := by
  unfold approach
  rw [Machine.fst_run_append]
  split_ifs <;> rfl

end

variable [PartialEquivBEq α]

/-- Every pass begins over the end of the path that it is to start from. -/
theorem alikeXY_origin (st : Style α) (ha : p.start? = some a) (hb : p.finish? = some b)
    {heights : List α} {d : Direction} {position : Vec α}
    (hposition : position.AlikeXY (d.origin (f.place a) (f.place b)))
    {above below : List (α × Direction)} {z : α} {e : Direction}
    (h : heights.zip (headings (f.place a) (f.place b) heights d position) =
      above ++ (z, e) :: below)
    (number : Nat) {m : Machine α} (hm : m.position.movedOver position = m.position) :
    (m.run st (contour f p number above)).1.position.AlikeXY
      (e.origin (f.place a) (f.place b)) := by
  induction heights generalizing d position above number m with
  | nil => simp [headings] at h
  | cons y rest ih =>
    rw [headings, List.zip_cons_cons] at h
    cases above with
    | nil =>
      obtain ⟨rfl, rfl⟩ := Prod.mk.inj (List.cons.inj h).1
      change m.position.AlikeXY _
      rw [← hm]
      exact hposition
    | cons head above =>
      obtain ⟨rfl, hrest⟩ := List.cons.inj h
      rw [contour_cons, Machine.fst_run_append]
      refine ih ?_ hrest (number + 1) ?_
      · split_ifs with hstay
        -- the tool is back where it was, and from there the pass was to start
        · exact (Vec.alikeXY_of_beq hstay).trans hposition
        · exact Vec.AlikeXY.refl _
      · rw [Machine.fst_run_append, position_cuts, landing_order f ha hb, position_stepDown,
          place_origin]
        rfl

/-- The tool at the height of a pass, before its first segment. -/
theorem alikeXY_begin (st : Style α) (m : Machine α) (o : Options α) (ha : p.start? = some a)
    (hb : p.finish? = some b) {heights : List α} {above below : List (α × Direction)} {z : α}
    {d : Direction} (h : heights.zip
      (headings (f.place a) (f.place b) heights .forward (f.place a)) = above ++ (z, d) :: below) :
    (m.run st (approach o (f.place a) ++
      (contour f p 0 above ++ stepDown z d above.length))).1.position.AlikeXY
        (d.origin (f.place a) (f.place b)) := by
  rw [Machine.fst_run_append, Machine.fst_run_append, position_stepDown]
  exact alikeXY_origin st ha hb (.refl _) h 0 (position_approach st m o _)

/-- Segments that meet one after another meet in both directions. -/
theorem isChain_meets_iff (f : Frame α) (p : Path α) (d : Direction) :
    p.segments.IsChain (Meets f p) ↔ ∀ done s t rest,
      d.order p.segments = done ++ s :: t :: rest →
        (f.place (p.vertex (s.exit d))).AlikeXY (f.place (p.vertex (t.entry d))) := by
  rw [List.isChain_iff_forall_rel_of_append_cons_cons]
  cases d with
  | forward =>
    exact ⟨fun h done s t rest hs => h hs, fun h s t done rest hs => h done s t rest hs⟩
  | reverse =>
    constructor
    · intro h done s t rest hs
      have hs' : p.segments = rest.reverse ++ t :: s :: done.reverse := by
        rw [← List.reverse_reverse p.segments]
        exact (congrArg List.reverse hs).trans (by simp)
      exact (h hs').symm
    · intro h s t done rest hs
      have hs' : Direction.reverse.order p.segments = rest.reverse ++ t :: s :: done.reverse :=
        (congrArg List.reverse hs).trans (by simp)
      exact (h _ _ _ _ hs').symm

/-- After the segments of a pass before it, the tool is over the vertex that a segment is to be
cut from exactly when the segment before it meets it. -/
theorem alikeXY_entry_iff (st : Style α) (ha : p.start? = some a) (hb : p.finish? = some b)
    {d : Direction} {m : Machine α}
    (hm : m.position.AlikeXY (d.origin (f.place a) (f.place b))) :
    (∀ done s rest, d.order p.segments = done ++ s :: rest →
      (m.run st (done.map (cut f p d))).1.position.AlikeXY
        (f.place (p.vertex (s.entry d)))) ↔ p.segments.IsChain (Meets f p) := by
  have hlast (done : List Segment) (s : Segment) :
      (m.run st ((done ++ [s]).map (cut f p d))).1.position =
        m.position.movedOver (f.place (p.vertex (s.exit d))) := by
    rw [position_cuts, landing, List.getLast?_concat]
  rw [isChain_meets_iff f p d]
  constructor
  · intro h done s t rest hs
    have hentry := h (done ++ [s]) t rest (by rw [hs, List.append_assoc]; rfl)
    rwa [hlast] at hentry
  · intro h done s rest hs
    rcases List.eq_nil_or_concat done with rfl | ⟨done, r, rfl⟩
    · rw [vertex_entry_head ha hb hs, place_origin]
      exact hm
    · rw [List.concat_eq_append, hlast]
      exact h done r s rest (by rw [hs, List.concat_eq_append, List.append_assoc]; rfl)

/-- The tool is over the vertex that a segment is to be cut from, for all segments of all passes,
exactly when each segment starts where the one before it ends. -/
theorem path_starts_segments (hp : p.check = .ok ()) (hne : p.segments ≠ []) (f : Frame α) :
    ∃ a, p.start? = some a ∧ ∀ o : Options α, (descent o f a).passes ≠ [] →
      ∃ passes : List (α × Direction), passes.map Prod.fst = (descent o f a).passes ∧
        path o f p = .issue (approach o (f.place a) ++ contour f p 0 passes ++ toSafeHeight o) ∧
        (∀ above z d below done s rest, passes = above ++ (z, d) :: below →
          d.order p.segments = done ++ s :: rest → ∃ tail,
            contour f p 0 passes = before f p above z d done ++ cut f p d s :: tail) ∧
        ∀ (st : Style α) (m : Machine α),
          (∀ above z d below done s rest, passes = above ++ (z, d) :: below →
            d.order p.segments = done ++ s :: rest →
            (m.run st (approach o (f.place a) ++ before f p above z d done)).1.position.AlikeXY
              (f.place (p.vertex (s.entry d)))) ↔ p.segments.IsChain (Meets f p) := by
  obtain ⟨a, ha⟩ := Path.exists_start hp hne
  obtain ⟨b, hb⟩ := Path.exists_finish hp hne
  refine ⟨a, ha, fun o hd => ⟨_, List.map_fst_zip (length_headings _ _ _ _ _).ge,
    path_eq hp ha hb hd, ?_, fun st m => ?_⟩⟩
  · intro above z d below done s rest hpasses hs
    rw [hpasses]
    exact ⟨_, contour_split hs⟩
  have hrun (above : List (α × Direction)) (z : α) (d : Direction) (done : List Segment) :
      (m.run st (approach o (f.place a) ++ before f p above z d done)).1 =
        ((m.run st (approach o (f.place a) ++
          (contour f p 0 above ++ stepDown z d above.length))).1.run st
            (done.map (cut f p d))).1 := by
    rw [before, ← List.append_assoc, Machine.fst_run_append]
  simp only [hrun]
  constructor
  · intro h
    obtain ⟨z, rest, hz⟩ := List.exists_cons_of_ne_nil hd
    have hfirst : ∃ below, (descent o f a).passes.zip
        (headings (f.place a) (f.place b) (descent o f a).passes .forward (f.place a)) =
          [] ++ (z, .forward) :: below := by
      rw [hz, headings, List.zip_cons_cons]
      exact ⟨_, rfl⟩
    obtain ⟨below, hfirst⟩ := hfirst
    exact (alikeXY_entry_iff st ha hb (alikeXY_begin st m o ha hb hfirst)).mp
      fun done s rest hs => h _ _ _ _ done s rest hfirst hs
  · intro h above z d below done s rest hpasses hs
    exact (alikeXY_entry_iff st ha hb (alikeXY_begin st m o ha hb hpasses)).mpr h done s rest hs

end Carve

/-- Two lines side by side. -/
def Path.sideBySide : Path Float :=
  ⟨[.zero, .unitX, ⟨0, 1, 0⟩, ⟨1, 1, 0⟩], [.straight 0 1, .straight 2 3]⟩

/-- Cut to a tenth of an inch. -/
def Frame.tenthDeep : Frame Float := (Frame.root .quarterInch).sink (.down (Scalar.ofRatio 1 10))

namespace Carve

/-- The second of two lines side by side is not cut from its start. -/
theorem path_starts_segments_sideBySide :
    Path.sideBySide.check = .ok () ∧ ∃ passes : List (Float × Direction),
      path .standard .tenthDeep .sideBySide = .issue
        (approach .standard (Frame.tenthDeep.place .zero) ++
          contour .tenthDeep .sideBySide 0 passes ++ toSafeHeight .standard) ∧
      ¬ ∀ above z d below done s rest, passes = above ++ (z, d) :: below →
        d.order Path.sideBySide.segments = done ++ s :: rest →
        (Machine.initial.run Options.standard.style
          (approach .standard (Frame.tenthDeep.place .zero) ++
            before .tenthDeep .sideBySide above z d done)).1.position.AlikeXY
          (Frame.tenthDeep.place (Path.sideBySide.vertex (s.entry d))) := by
  obtain ⟨a, ha, hpath⟩ := path_starts_segments (p := .sideBySide) rfl (List.cons_ne_nil _ _)
    .tenthDeep
  obtain rfl : Vec.zero = a := Option.some.inj ha
  have hdeep : (descent .standard Frame.tenthDeep .zero).passes ≠ [] :=
    Descent.passes_ne_nil (by decide +kernel) (by decide +kernel)
  obtain ⟨passes, -, hissue, -, hfollows⟩ := hpath .standard hdeep
  refine ⟨rfl, passes, hissue, fun h => ?_⟩
  have hchain := (hfollows Options.standard.style .initial).mp h
  have hmeets := List.isChain_pair.mp hchain
  exact absurd hmeets.2 (by decide +kernel)

end Carve
end Toolpath
