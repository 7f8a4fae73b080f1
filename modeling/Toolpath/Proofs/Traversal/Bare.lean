import Toolpath.Proofs.Traversal.Itinerary

/-! Cuts without their comments. All their other calls are made as before. -/
namespace Toolpath

namespace Itinerary
variable {α : Type}

/-- The calls that are no comments. -/
def bare (it : Itinerary α) : Itinerary α := ⟨it.calls.filter (!·.isComment), it.stop⟩

theorem bare_append (a b : Itinerary α) : (a.append b).bare = a.bare.append b.bare := by
  cases hs : a.stop with
  | none =>
    have hbare : a.bare.stop = none := hs
    rw [append_of_none hs, append_of_none hbare]
    simp [bare]
  | some e =>
    have hbare : a.bare.stop = some e := hs
    rw [append_of_some hs, append_of_some hbare]

theorem bare_join (l : List (Itinerary α)) : (join l).bare = join (l.map bare) := by
  induction l with
  | nil => rfl
  | cons a rest ih => rw [List.map_cons, join, join, bare_append, ih]

theorem bare_remark_append (f : Frame α) (comment : Option String) (it : Itinerary α) :
    ((remark f comment).append it).bare = it.bare := by
  rw [bare_append]
  cases comment <;> rfl

end Itinerary

variable {α : Type}

mutual
/-- A cut without the comments at it and below it. -/
def Cut.bare (cut : Cut α) : Cut α :=
  match cut with
  | .group poses components unit _ => .group poses (Cut.bareAll components) unit none
  | .trace path depth side _ => .trace path depth side none
  | .hole diameter depth _ => .hole diameter depth none
  | .pocket p _ => .pocket p none
  | .pause _ => .pause none
termination_by structural cut

def Cut.bareAll (cuts : List (Cut α)) : List (Cut α) :=
  match cuts with
  | [] => []
  | cut :: rest => cut.bare :: Cut.bareAll rest
termination_by structural cuts
end

variable [Scalar α]

mutual
theorem Cut.itinerary_bare (f : Frame α) (cut : Cut α) :
    cut.bare.itinerary f = (cut.itinerary f).bare := by
  match cut with
  | .group poses components unit comment =>
    have hall := fun g => Cut.itineraryAll_bareAll g components
    rw [Cut.bare.eq_def, Cut.itinerary.eq_def, Cut.itinerary.eq_def, Itinerary.bare_remark_append]
    dsimp only
    cases f.inUnit unit with
    | error e => rfl
    | ok base =>
      rw [Itinerary.bare_join, List.map_map]
      refine congrArg Itinerary.join (List.map_congr_left fun pose _ => ?_)
      show _ = Itinerary.bare (match base.enter pose.toPlacement with
        | .error e => .stopped e
        | .ok child => Cut.itineraryAll child components)
      cases base.enter pose.toPlacement with
      | error e => rfl
      | ok child => exact hall child
  | .trace path depth side comment =>
    rw [Cut.bare.eq_def, Cut.itinerary.eq_def, Cut.itinerary.eq_def, Itinerary.bare_remark_append]
    dsimp only
    cases path.check <;> rfl
  | .hole diameter depth comment =>
    rw [Cut.bare.eq_def, Cut.itinerary.eq_def, Cut.itinerary.eq_def, Itinerary.bare_remark_append]
    rfl
  | .pocket p comment =>
    rw [Cut.bare.eq_def, Cut.itinerary.eq_def, Cut.itinerary.eq_def, Itinerary.bare_remark_append]
    rfl
  | .pause comment =>
    rw [Cut.bare.eq_def, Cut.itinerary.eq_def, Cut.itinerary.eq_def, Itinerary.bare_remark_append]
    rfl
termination_by structural cut

theorem Cut.itineraryAll_bareAll (f : Frame α) (cuts : List (Cut α)) :
    Cut.itineraryAll f (Cut.bareAll cuts) = (Cut.itineraryAll f cuts).bare := by
  match cuts with
  | [] => rfl
  | cut :: rest =>
    rw [Cut.bareAll, Cut.itineraryAll, Cut.itineraryAll, Itinerary.bare_append,
      Cut.itinerary_bare f cut, Cut.itineraryAll_bareAll f rest]
termination_by structural cuts
end

end Toolpath
