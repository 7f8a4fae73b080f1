import Toolpath.Proofs.Traversal.Rescaled
import Toolpath.Proofs.Traversal.Trail

/-! The same cuts in fewer groups. Nothing but the limit on groups depends on how deep a cut lies,
so that a traversal which is not stopped by that limit makes the same calls from farther outside. -/
namespace Toolpath
variable {α : Type}

/-- The frame without the number of groups that it lies in. -/
def Frame.unnested (f : Frame α) : Frame α := { f with nesting := 0 }

/-- The call without the number of groups that it is made in. -/
def Call.unnested : Call α → Call α
  | comment f text => comment f.unnested text
  | trace f p => trace f.unnested p
  | hole f diameter => hole f.unnested diameter
  | pocket f p => pocket f.unnested p
  | pause f => pause f.unnested

/-- The same frame in at most as many groups. -/
structure Frame.Raised (f g : Frame α) : Prop where
  unnested : g.unnested = f.unnested
  nesting_le : g.nesting ≤ f.nesting

/-- Unless the first itinerary is stopped for its depth, the second one has the same calls in the
same order, however deep they lie, and is stopped by the same error. -/
def Itinerary.Raised (a b : Itinerary α) : Prop :=
  (∀ limit, a.stop ≠ some (.nestedTooDeep limit)) →
    b.calls.map Call.unnested = a.calls.map Call.unnested ∧ b.stop = a.stop

namespace Itinerary
variable {a a' b b' : Itinerary α}

theorem raised_single {c d : Call α} (h : d.unnested = c.unnested) :
    (single c).Raised (single d) := fun _ => ⟨congrArg (fun c => [c]) h, rfl⟩

theorem raised_remark {f g : Frame α} (h : f.Raised g) (comment : Option String) :
    (remark f comment).Raised (remark g comment) := by
  cases comment with
  | none => exact fun _ => ⟨rfl, rfl⟩
  | some text => exact raised_single (congrArg (Call.comment · text) h.unnested)

theorem raised_stopped (e : CarveError α) : (stopped e).Raised (stopped e) := fun _ => ⟨rfl, rfl⟩

/-- A traversal that is stopped for its depth is not compared. -/
theorem raised_of_tooDeep (limit : Nat) (b : Itinerary α) :
    (stopped (.nestedTooDeep limit)).Raised b := fun h => absurd rfl (h limit)

theorem Raised.append (ha : a.Raised a') (hb : b.Raised b') :
    (a.append b).Raised (a'.append b') := by
  intro hdepth
  cases hstop : a.stop with
  | some e =>
    rw [append_of_some hstop] at hdepth ⊢
    obtain ⟨hcalls, hsame⟩ := ha hdepth
    rw [append_of_some (hsame.trans hstop)]
    exact ⟨hcalls, hsame⟩
  | none =>
    rw [append_of_none hstop] at hdepth ⊢
    obtain ⟨hcalls, hsame⟩ := ha fun limit h => nomatch hstop.symm.trans h
    obtain ⟨hmore, hlast⟩ := hb hdepth
    rw [append_of_none (hsame.trans hstop)]
    simp only [List.map_append, hcalls, hmore]
    exact ⟨trivial, hlast⟩

theorem append_empty (a : Itinerary α) : a.append {} = a := by
  cases hstop : a.stop with
  | none =>
    rw [append_of_none hstop, List.append_nil]
    exact congrArg (Itinerary.mk a.calls) hstop.symm
  | some e => exact append_of_some hstop _

theorem join_append (l m : List (Itinerary α)) : join (l ++ m) = (join l).append (join m) := by
  induction l with
  | nil => rfl
  | cons a rest ih => rw [List.cons_append, join, join, ih, append_assoc]

end Itinerary

section
variable [Scalar α] {f g : Frame α}

namespace Frame.Raised

theorem inside (h : f.Raised g) (pose : Placement α) : (f.inside pose).Raised (g.inside pose) where
  unnested := congrArg (fun f => (f.inside pose).unnested) h.unnested
  nesting_le := Nat.succ_le_succ h.nesting_le

theorem sink (h : f.Raised g) (depth : Depth α) :
    (g.sink depth).unnested = (f.sink depth).unnested := by
  have hsink (f : Frame α) : (f.sink depth).unnested = f.unnested.sink depth := by
    unfold Frame.sink
    cases depth with
    | through => rfl
    | down d =>
      dsimp only
      split_ifs <;> rfl
  rw [hsink, hsink, h.unnested]

/-- A unit is decoded without regard to the depth. -/
theorem map_inUnit (h : f.Raised g) (unit : Option Amount) :
    (g.inUnit unit).map Frame.unnested = (f.inUnit unit).map Frame.unnested := by
  have hunit (f : Frame α) : (f.inUnit unit).map Frame.unnested = f.unnested.inUnit unit := by
    cases unit with
    | none => rfl
    | some a =>
      change (f.job.decode a >>= fun value => f.rebase value).map Frame.unnested =
        (f.job.decode a >>= fun value => f.unnested.rebase value)
      cases f.job.decode a with
      | error e => rfl
      | ok value =>
        change (f.rebase value).map Frame.unnested = f.unnested.rebase value
        unfold rebase
        change _ = (value.div f.unitScale >>= _)
        cases value.div f.unitScale <;> rfl
  rw [hunit, hunit, h.unnested]

theorem inUnit_error (h : f.Raised g) {unit : Option Amount} {e : MeasureError}
    (hf : f.inUnit unit = .error e) : g.inUnit unit = .error e := by
  have hmap := h.map_inUnit unit
  rw [hf] at hmap
  cases hg : g.inUnit unit with
  | error e' =>
    rw [hg] at hmap
    injection hmap with he
    rw [he]
  | ok base =>
    rw [hg] at hmap
    cases hmap

theorem inUnit (h : f.Raised g) {unit : Option Amount} {base : Frame α}
    (hf : f.inUnit unit = .ok base) : ∃ base', g.inUnit unit = .ok base' ∧ base.Raised base' := by
  have hmap := h.map_inUnit unit
  rw [hf] at hmap
  cases hg : g.inUnit unit with
  | error e =>
    rw [hg] at hmap
    cases hmap
  | ok base' =>
    rw [hg] at hmap
    injection hmap with hunnested
    have hnesting : base'.nesting ≤ base.nesting := by
      rw [nesting_of_inUnit hf, nesting_of_inUnit hg]
      exact h.nesting_le
    exact ⟨base', rfl, hunnested, hnesting⟩

end Frame.Raised

namespace Itinerary
variable {base base' : Frame α} {poses poses' : List (Pose α)} {components : List (Cut α)}

theorem repeated_append (base : Frame α) (l m : List (Pose α)) (components : List (Cut α)) :
    repeated base (l ++ m) components =
      (repeated base l components).append (repeated base m components) := by
  unfold repeated
  rw [List.map_append, join_append]

theorem repeated_cons (hroom : base.nesting < Frame.nestingLimit) (pose : Pose α)
    (poses : List (Pose α)) (components : List (Cut α)) :
    repeated base (pose :: poses) components =
      (Cut.itineraryAll (base.inside pose.toPlacement) components).append
        (repeated base poses components) := by
  unfold repeated
  rw [List.map_cons, join, Frame.enter_eq, if_pos hroom]

theorem repeated_cons_of_deep (hdeep : ¬ base.nesting < Frame.nestingLimit) (pose : Pose α)
    (poses : List (Pose α)) (components : List (Cut α)) :
    repeated base (pose :: poses) components = stopped (.nestedTooDeep Frame.nestingLimit) := by
  unfold repeated
  rw [List.map_cons, join, Frame.enter_eq, if_neg hdeep]
  rfl

/-- Components at poses that lead to the same frames but for their depth. -/
theorem raised_repeated
    (hall : ∀ {f g : Frame α}, f.Raised g →
      (Cut.itineraryAll f components).Raised (Cut.itineraryAll g components))
    (h : List.Forall₂ (fun pose pose' =>
      (base.inside pose.toPlacement).Raised (base'.inside pose'.toPlacement)) poses poses') :
    (repeated base poses components).Raised (repeated base' poses' components) := by
  induction h with
  | nil => exact fun _ => ⟨rfl, rfl⟩
  | @cons pose pose' rest rest' hinside _ ih =>
    have hle : base'.nesting ≤ base.nesting := Nat.le_of_succ_le_succ hinside.nesting_le
    by_cases hroom : base.nesting < Frame.nestingLimit
    · rw [repeated_cons hroom, repeated_cons (hle.trans_lt hroom)]
      exact (hall hinside).append ih
    · rw [repeated_cons_of_deep hroom]
      exact raised_of_tooDeep _ _

end Itinerary

mutual
/-- A node from farther outside. The depth of its frame is counted along the tree, and is never more
than that of the other frame. -/
theorem Cut.raised_itinerary {f g : Frame α} (h : f.Raised g) (cut : Cut α) :
    (cut.itinerary f).Raised (cut.itinerary g) := by
  have hremark := Itinerary.raised_remark h cut.comment
  match cut with
  | .group poses components unit comment =>
    cases hf : f.inUnit unit with
    | error e =>
      rw [Cut.itinerary.eq_def, Cut.itinerary.eq_def]
      simp only [hf, h.inUnit_error hf]
      exact hremark.append (Itinerary.raised_stopped _)
    | ok base =>
      obtain ⟨base', hg, hbase⟩ := h.inUnit hf
      rw [Cut.itinerary_group hf, Cut.itinerary_group hg]
      refine hremark.append (Itinerary.raised_repeated ?_ ?_)
      · exact fun h' => Cut.raised_itineraryAll h' components
      · exact List.forall₂_same.mpr fun pose _ => hbase.inside pose.toPlacement
  | .trace path depth _ _ =>
    rw [Cut.itinerary.eq_def, Cut.itinerary.eq_def]
    refine hremark.append ?_
    dsimp only
    cases path.check with
    | error e => exact Itinerary.raised_stopped e
    | ok _ => exact Itinerary.raised_single (congrArg (Call.trace · path) (h.sink depth))
  | .hole diameter depth _ =>
    rw [Cut.itinerary.eq_def, Cut.itinerary.eq_def]
    exact hremark.append
      (Itinerary.raised_single (congrArg (Call.hole · diameter) (h.sink depth)))
  | .pocket p _ =>
    rw [Cut.itinerary.eq_def, Cut.itinerary.eq_def]
    exact hremark.append (Itinerary.raised_single (congrArg (Call.pocket · p) h.unnested))
  | .pause _ =>
    rw [Cut.itinerary.eq_def, Cut.itinerary.eq_def]
    exact hremark.append (Itinerary.raised_single (congrArg Call.pause h.unnested))
termination_by structural cut

theorem Cut.raised_itineraryAll {f g : Frame α} (h : f.Raised g) (cuts : List (Cut α)) :
    (Cut.itineraryAll f cuts).Raised (Cut.itineraryAll g cuts) := by
  match cuts with
  | [] => exact fun _ => ⟨rfl, rfl⟩
  | cut :: rest =>
    rw [Cut.itineraryAll, Cut.itineraryAll]
    exact (Cut.raised_itinerary h cut).append (Cut.raised_itineraryAll h rest)
termination_by structural cuts
end

end
end Toolpath
