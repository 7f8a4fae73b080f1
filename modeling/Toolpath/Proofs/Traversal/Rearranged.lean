import Toolpath.Proofs.Traversal.Flattening

/-! Cuts in another order, or taken more often, at any level of a tree. A traversal comes to the same
calls, each of them at least once. -/
namespace Toolpath
variable {α : Type}

/-- The same cuts in another order or more often, with the same components and poses in another
order or more often. -/
inductive Cut.Rearranged : List (Cut α) → List (Cut α) → Prop
  | perm {cuts cuts' : List (Cut α)} (h : cuts.Perm cuts') : Rearranged cuts cuts'
  | again {cut : Cut α} {cuts : List (Cut α)} (h : cut ∈ cuts) : Rearranged cuts (cut :: cuts)
  | posesPerm {poses poses' : List (Pose α)} (h : poses.Perm poses') (components : List (Cut α))
      (unit : Option Amount) (comment : Option String) (rest : List (Cut α)) :
    Rearranged (.group poses components unit comment :: rest)
      (.group poses' components unit comment :: rest)
  | poseAgain {pose : Pose α} {poses : List (Pose α)} (h : pose ∈ poses)
      (components : List (Cut α)) (unit : Option Amount) (comment : Option String)
      (rest : List (Cut α)) :
    Rearranged (.group poses components unit comment :: rest)
      (.group (pose :: poses) components unit comment :: rest)
  | components {components components' : List (Cut α)} (h : Rearranged components components')
      (poses : List (Pose α)) (unit : Option Amount) (comment : Option String)
      (rest : List (Cut α)) :
    Rearranged (.group poses components unit comment :: rest)
      (.group poses components' unit comment :: rest)
  | symm {cuts cuts' : List (Cut α)} (h : Rearranged cuts cuts') : Rearranged cuts' cuts
  | trans {cuts cuts' cuts'' : List (Cut α)} (h : Rearranged cuts cuts')
      (h' : Rearranged cuts' cuts'') : Rearranged cuts cuts''

section
variable [Scalar α] {f : Frame α} {v : Entry α}

theorem Cut.mem_flatten_group {poses : List (Pose α)} {components : List (Cut α)}
    {unit : Option Amount} {comment : Option String} :
    v ∈ (Cut.group poses components unit comment).flatten f ↔
      v ∈ Entry.remark f comment ∨
      (∃ e, f.inUnit unit = .error e ∧ v = .refusal (.measure e)) ∨
      ((∃ base, f.inUnit unit = .ok base) ∧ ∃ pose ∈ poses,
        (∃ e, f.descend ⟨unit, pose⟩ = .error e ∧ v = .refusal e) ∨
        ∃ child, f.descend ⟨unit, pose⟩ = .ok child ∧ v ∈ Cut.flattenAll child components) := by
  rw [Cut.flatten.eq_def, List.mem_append]
  refine or_congr_right ?_
  dsimp only
  cases f.inUnit unit with
  | error e => simp
  | ok base =>
    simp only [List.mem_flatMap, reduceCtorEq, false_and, exists_false, false_or, Except.ok.injEq,
      exists_eq', true_and]
    refine exists_congr fun pose => and_congr_right fun _ => ?_
    cases f.descend ⟨unit, pose⟩ <;> simp

theorem Cut.mem_flattenAll_cons {cut : Cut α} {rest : List (Cut α)} :
    v ∈ Cut.flattenAll f (cut :: rest) ↔ v ∈ cut.flatten f ∨ v ∈ Cut.flattenAll f rest := by
  rw [Cut.flattenAll, List.mem_append]

/-- Rearranged cuts have the same entries. -/
theorem Cut.Rearranged.mem_flattenAll_iff {cuts cuts' : List (Cut α)}
    (h : Cut.Rearranged cuts cuts') (f : Frame α) (v : Entry α) :
    v ∈ Cut.flattenAll f cuts ↔ v ∈ Cut.flattenAll f cuts' := by
  induction h generalizing f v with
  | perm h => simp only [flattenAll_eq_flatMap, List.mem_flatMap, h.mem_iff]
  | @again cut cuts h =>
    have hcut : v ∈ cut.flatten f → v ∈ flattenAll f cuts := fun hv => by
      rw [flattenAll_eq_flatMap]
      exact List.mem_flatMap.mpr ⟨cut, h, hv⟩
    rw [mem_flattenAll_cons]
    exact ⟨.inr, fun hv => hv.elim hcut id⟩
  | posesPerm h components unit comment rest =>
    simp only [mem_flattenAll_cons, mem_flatten_group, h.mem_iff]
  | @poseAgain pose poses h components unit comment rest =>
    have hposes : ∀ p, p ∈ pose :: poses ↔ p ∈ poses := fun p =>
      ⟨fun hp => (List.mem_cons.mp hp).elim (· ▸ h) id, List.mem_cons_of_mem pose⟩
    simp only [mem_flattenAll_cons, mem_flatten_group, hposes]
  | components h poses unit comment rest ih =>
    simp only [mem_flattenAll_cons, mem_flatten_group, ih]
  | symm h ih => exact (ih f v).symm
  | trans h h' ih ih' => exact (ih f v).trans (ih' f v)

/-- Rearranged cuts are traversed without being stopped if the cuts are, and then with the same
calls. -/
theorem Cut.Rearranged.itinerary_iff {cuts cuts' : List (Cut α)} (h : Cut.Rearranged cuts cuts')
    (hstop : (Cut.itineraryAll f cuts).stop = none) :
    (Cut.itineraryAll f cuts').stop = none ∧
      ∀ c, c ∈ (Cut.itineraryAll f cuts).calls ↔ c ∈ (Cut.itineraryAll f cuts').calls := by
  simp only [Cut.itineraryAll_eq_ofEntries] at hstop ⊢
  have hstop' : (Itinerary.ofEntries (Cut.flattenAll f cuts')).stop = none := by
    rw [Itinerary.stop_ofEntries_eq_none] at hstop ⊢
    exact fun e he => hstop e ((h.mem_flattenAll_iff f _).mpr he)
  refine ⟨hstop', fun c => ?_⟩
  rw [Itinerary.mem_calls_ofEntries hstop, Itinerary.mem_calls_ofEntries hstop',
    h.mem_flattenAll_iff]

end
end Toolpath
