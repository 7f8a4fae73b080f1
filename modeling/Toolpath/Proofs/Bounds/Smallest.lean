import Toolpath.Proofs.Bounds.Cover
import Toolpath.Proofs.Bounds.Hull
import Toolpath.Proofs.Program.Issued
import Toolpath.Proofs.Traversal.Rearranged

/-! The box of a job is the smallest one around all that its leaves touch, in whatever order they
come. -/
namespace Toolpath

section
variable {α : Type}

mutual
/-- Something to cut is reached: a hole, a pocket or a path with a segment, where each group around
it has a pose. -/
def Cut.Touches : Cut α → Prop
  | .group poses components _ _ => poses ≠ [] ∧ Cut.TouchesAny components
  | .trace path _ _ _ => path.segments ≠ []
  | .hole _ _ _ => True
  | .pocket _ _ => True
  | .pause _ => False

def Cut.TouchesAny : List (Cut α) → Prop
  | [] => False
  | cut :: rest => cut.Touches ∨ Cut.TouchesAny rest
end

variable [Scalar α]

namespace Bounds

theorem discPoints_ne_nil (center : Vec α) (radius top bottom : α) :
    discPoints center radius top bottom ≠ [] := by
  simp [discPoints]

theorem tracePoints_ne_nil {f : Frame α} {p : Path α} :
    tracePoints f p ≠ [] ↔ p.segments ≠ [] := by
  refine not_congr ⟨fun h => ?_, fun h => ?_⟩
  · cases hp : p.segments with
    | nil => rfl
    | cons s rest =>
      have hs := List.flatMap_eq_nil_iff.mp h s (hp ▸ List.mem_cons_self)
      cases s <;> simp [segmentPoints] at hs
  · rw [tracePoints, h, List.flatMap_nil]

end Bounds

/-- A call among entries touches something. -/
def Entry.TouchesAny (l : List (Entry α)) : Prop := ∃ c, .call c ∈ l ∧ c.points ≠ []

namespace Entry

theorem touchesAny_append {l m : List (Entry α)} :
    TouchesAny (l ++ m) ↔ TouchesAny l ∨ TouchesAny m := by
  simp only [TouchesAny, List.mem_append, or_and_right, exists_or]

theorem touchesAny_flatMap {ι : Type} {l : List ι} {g : ι → List (Entry α)} :
    TouchesAny (l.flatMap g) ↔ ∃ x ∈ l, TouchesAny (g x) := by
  simp only [TouchesAny, List.mem_flatMap]
  grind

theorem not_touchesAny_remark (f : Frame α) (comment : Option String) :
    ¬ TouchesAny (remark f comment) := by
  cases comment <;> simp [TouchesAny, remark, Call.points]

theorem touchesAny_singleton {c : Call α} : TouchesAny [.call c] ↔ c.points ≠ [] := by
  simp [TouchesAny]

end Entry

mutual
/-- Where nothing is refused, something is touched exactly if something to cut is reached. -/
theorem Cut.touchesAny_flatten {f : Frame α} {cut : Cut α} (h : ∀ e, .refusal e ∉ cut.flatten f) :
    Entry.TouchesAny (cut.flatten f) ↔ cut.Touches := by
  rw [Cut.flatten.eq_def] at h ⊢
  rw [Entry.touchesAny_append, or_iff_right (Entry.not_touchesAny_remark f _)]
  have hnode := fun e he => h e (List.mem_append_right _ he)
  match cut with
  | .group poses components unit _ =>
    have hall := fun g => @Cut.touchesAny_flattenAll g components
    rw [Cut.Touches]
    dsimp only at hnode ⊢
    cases hu : f.inUnit unit with
    | error e => simp [hu] at hnode
    | ok base =>
      simp only [hu] at hnode ⊢
      have hpose : ∀ pose ∈ poses, Entry.TouchesAny (match f.descend ⟨unit, pose⟩ with
          | .error e => [.refusal e]
          | .ok child => Cut.flattenAll child components) ↔ Cut.TouchesAny components := by
        intro pose hmem
        have hchild := fun e he => hnode e (List.mem_flatMap.mpr ⟨pose, hmem, he⟩)
        cases hd : f.descend ⟨unit, pose⟩ with
        | error e => simp [hd] at hchild
        | ok child =>
          simp only [hd] at hchild
          exact hall child hchild
      rw [Entry.touchesAny_flatMap]
      constructor
      · rintro ⟨pose, hmem, ht⟩
        exact ⟨List.ne_nil_of_mem hmem, (hpose pose hmem).mp ht⟩
      · rintro ⟨hne, ht⟩
        obtain ⟨pose, hmem⟩ := List.exists_mem_of_ne_nil poses hne
        exact ⟨pose, hmem, (hpose pose hmem).mpr ht⟩
  | .trace path depth _ _ =>
    rw [Cut.Touches, ← Bounds.tracePoints_ne_nil (f := f.sink depth)]
    dsimp only at hnode ⊢
    cases hp : path.check with
    | error e => simp [hp] at hnode
    | ok _ => exact Entry.touchesAny_singleton
  | .hole diameter depth _ =>
    exact Entry.touchesAny_singleton.trans (iff_true_intro (Bounds.discPoints_ne_nil _ _ _ _))
  | .pocket p _ =>
    exact Entry.touchesAny_singleton.trans (iff_true_intro (Bounds.discPoints_ne_nil _ _ _ _))
  | .pause _ => simp [Entry.TouchesAny, Call.points, Cut.Touches]
termination_by structural cut

theorem Cut.touchesAny_flattenAll {f : Frame α} {cuts : List (Cut α)}
    (h : ∀ e, .refusal e ∉ Cut.flattenAll f cuts) :
    Entry.TouchesAny (Cut.flattenAll f cuts) ↔ Cut.TouchesAny cuts := by
  match cuts with
  | [] => simp [Cut.flattenAll, Cut.TouchesAny, Entry.TouchesAny]
  | cut :: rest =>
    rw [Cut.flattenAll] at h ⊢
    rw [Entry.touchesAny_append, Cut.TouchesAny,
      Cut.touchesAny_flatten fun e he => h e (List.mem_append_left _ he),
      Cut.touchesAny_flattenAll fun e he => h e (List.mem_append_right _ he)]
termination_by structural cuts
end

namespace Job
variable {job : Job α} {l r cuts : List (Cut α)}

/-- All points that are touched when the cuts of a job are made, in order. -/
def touched (job : Job α) (cuts : List (Cut α)) : List (Vec α) :=
  (job.itinerary cuts).calls.flatMap Call.points

theorem touched_ne_nil_iff (h : (job.itinerary cuts).stop = none) :
    job.touched cuts ≠ [] ↔ Cut.TouchesAny cuts := by
  unfold itinerary at h
  rw [Cut.itineraryAll_eq_ofEntries] at h
  rw [← Cut.touchesAny_flattenAll (Itinerary.stop_ofEntries_eq_none.mp h), touched, itinerary,
    Cut.itineraryAll_eq_ofEntries, ne_eq, List.flatMap_eq_nil_iff]
  simp [Entry.TouchesAny, Itinerary.mem_calls_ofEntries h]

theorem itinerary_append (job : Job α) (l r : List (Cut α)) :
    job.itinerary (l ++ r) = (job.itinerary l).append (job.itinerary r) := by
  simp only [itinerary, Cut.itineraryAll_eq_ofEntries, Cut.flattenAll_eq_flatMap,
    List.flatMap_append, Itinerary.ofEntries_append]

theorem touched_append (h : (job.itinerary l).stop = none) (r : List (Cut α)) :
    job.touched (l ++ r) = job.touched l ++ job.touched r := by
  rw [touched, itinerary_append, Itinerary.append_of_none h, List.flatMap_append]
  rfl

theorem mem_touched_iff_of_rearranged {cuts' : List (Cut α)} (h : Cut.Rearranged cuts cuts')
    (hstop : (job.itinerary cuts).stop = none) (p : Vec α) :
    p ∈ job.touched cuts ↔ p ∈ job.touched cuts' := by
  have hcalls := (h.itinerary_iff hstop).2
  simp only [touched, List.mem_flatMap]
  exact exists_congr fun c => and_congr_left fun _ => hcalls c

end Job

namespace Bounds
variable [Ordered α] {job : Job α} {l r cuts : List (Cut α)} {b : Bounds α}

theorem isHull_ofCuts (h : ofCuts job cuts = .ok b)
    (hn : ∀ p ∈ job.touched cuts, p.isNaN = false) : b.IsHull (job.touched cuts) := by
  obtain ⟨-, rfl⟩ := ofCuts_eq_ok_iff.mp h
  exact isHull_foldl_cover hn

/-- The box of cuts before others is united with that of the others. -/
theorem ofCuts_append_eq_ok_iff (hn : ∀ p ∈ job.touched (l ++ r), p.isNaN = false) :
    ofCuts job (l ++ r) = .ok b ↔
      ∃ a c, ofCuts job l = .ok a ∧ ofCuts job r = .ok c ∧ b = a.union c := by
  have hunion (hl : (job.itinerary l).stop = none) : (job.touched (l ++ r)).foldl cover {} =
      ((job.touched l).foldl cover {}).union ((job.touched r).foldl cover {}) := by
    rw [Job.touched_append hl] at hn ⊢
    obtain ⟨hnl, hnr⟩ := List.forall_mem_append.mp hn
    exact foldl_cover_append hnl hnr
  have hstop : (job.itinerary (l ++ r)).stop = none ↔
      (job.itinerary l).stop = none ∧ (job.itinerary r).stop = none := by
    rw [Job.itinerary_append, Itinerary.stop_append_eq_none]
  simp only [ofCuts_eq_ok_iff, hstop]
  constructor
  · rintro ⟨⟨hl, hr⟩, rfl⟩
    exact ⟨_, _, ⟨hl, rfl⟩, ⟨hr, rfl⟩, hunion hl⟩
  · rintro ⟨_, _, ⟨hl, rfl⟩, ⟨hr, rfl⟩, rfl⟩
    exact ⟨⟨hl, hr⟩, (hunion hl).symm⟩

/-- The box of a job is the smallest one around what is touched. Cuts in another order or more often
have the same box, more cuts the united one, and it is empty unless something to cut is reached. -/
theorem ofCuts_isSmallest (h : ofCuts job cuts = .ok b)
    (hn : ∀ p ∈ job.touched cuts, p.isNaN = false) :
    b.IsHull (job.touched cuts) ∧
    (∀ cuts', Cut.Rearranged cuts cuts' → ∃ b', ofCuts job cuts' = .ok b' ∧ b.same b' = true) ∧
    (∀ l r, cuts = l ++ r →
      ∃ a c, ofCuts job l = .ok a ∧ ofCuts job r = .ok c ∧ b = a.union c) ∧
    (b.isNonempty = true ↔ Cut.TouchesAny cuts) := by
  have hbox := isHull_ofCuts h hn
  have hstop := (ofCuts_eq_ok_iff.mp h).1
  refine ⟨hbox, fun cuts' hcuts => ?_, ?_, ?_⟩
  · have hmem := Job.mem_touched_iff_of_rearranged hcuts hstop
    have hbox' := ofCuts_eq_ok (hcuts.itinerary_iff hstop).1
    have hn' : ∀ p ∈ job.touched cuts', p.isNaN = false := fun p hp => hn p ((hmem p).mpr hp)
    exact ⟨_, hbox', hbox.same (isHull_ofCuts hbox' hn') hmem⟩
  · rintro l r rfl
    exact (ofCuts_append_eq_ok_iff hn).mp h
  · rw [hbox.isNonempty, Job.touched_ne_nil_iff hstop]

end Bounds

end

namespace Bounds

/-- A hole at two places and an arc that starts at minus zero, and the same with the places
exchanged, one of them twice, after the arc. -/
theorem ofCuts_isSmallest_places :
    let hole : Cut Float := .hole 0.25 .through none
    let arc : Cut Float := .trace ⟨[⟨-0, 0, 0⟩, ⟨1, 0, 0⟩, ⟨0.5, 0, 0⟩], [.arc 0 1 2 .clockwise]⟩
      (.down 0.1) .middle none
    let cuts := [.group [.offset 2 0, .offset 0 3] [hole] none none, arc]
    let turned := [arc, .group [.offset 0 3, .offset 2 0, .offset 0 3] [hole] none none]
    (∀ p ∈ Job.quarterInch.touched cuts, p.isNaN = false) ∧
    ∃ b b', ofCuts .quarterInch cuts = .ok b ∧ b.IsHull (Job.quarterInch.touched cuts) ∧
      ofCuts .quarterInch turned = .ok b' ∧ b.same b' = true ∧ b.isNonempty = true := by
  intro hole arc cuts turned
  have hn : ∀ p ∈ Job.quarterInch.touched cuts, p.isNaN = false := by decide +kernel
  have hbox : ofCuts .quarterInch cuts = .ok _ := ofCuts_eq_ok rfl
  have hagain : (.offset 0 3 : Pose Float) ∈ [.offset 2 0, .offset 0 3] :=
    List.mem_cons_of_mem _ List.mem_cons_self
  have hturned : Cut.Rearranged cuts turned :=
    .trans (.poseAgain hagain [hole] none none [arc]) (.perm (.swap _ _ _))
  obtain ⟨hull, hsame, -, hvalid⟩ := ofCuts_isSmallest hbox hn
  obtain ⟨b', hb', hsame⟩ := hsame turned hturned
  exact ⟨hn, _, b', hbox, hull, hb', hsame, hvalid.mpr (.inl ⟨by simp, .inl trivial⟩)⟩

end Bounds
end Toolpath
