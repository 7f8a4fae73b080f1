import Toolpath.Proofs.Cut.Scaled
import Toolpath.Proofs.Measure.Exact
import Toolpath.Proofs.Traversal.Itinerary
import Toolpath.Proofs.Traversal.Route

/-! Two traversals side by side, of one tree that is written in two units, or for two jobs with
other native units. Local lengths differ by a factor `k`, lengths on the machine by a factor `c`. -/
namespace Toolpath
open Scalar

/-- Jobs on the same stock whose native lengths differ by a factor. -/
structure Job.Rescaled (c : ℝ) (j j' : Job ℝ) : Prop where
  pos : 0 < c
  floor : j'.floor = j.floor * c
  decode : ∀ a u v, j.decode a = .ok u → j'.decode a = .ok v → (v.toScalar : ℝ) = u.toScalar * c

namespace Frame

/-- What cuts see of their frames agrees, up to the factors. -/
structure Matches (c k : ℝ) (f g : Frame ℝ) : Prop where
  floor : g.job.floor = f.job.floor * c
  isMirroring : g.placement.isMirroring = f.placement.isMirroring
  place : ∀ p, g.place (p.scale k) = (f.place p).scale c
  length : ∀ l, g.length (l * k) = f.length l * c
  depth : ∀ d, g.depth (d * k) = f.depth d * c
  bottom : ∀ p, g.bottom (p.scale k) = f.bottom p * c

/-- The invariant of two traversals: the unit that is in effect makes up for the factor between the
local lengths. -/
structure Rescaled (j j' : Job ℝ) (c k : ℝ) (f g : Frame ℝ) : Prop where
  pos : 0 < k
  job : f.job = j
  job' : g.job = j'
  placement : g.placement * .scale k = .scale c * f.placement
  unit : (g.unitScale.toScalar : ℝ) * k = f.unitScale.toScalar * c
  depthOffset : g.depthOffset = f.depthOffset * c
  through : g.through = f.through

variable {j j' : Job ℝ} {c k : ℝ} {f g : Frame ℝ}

theorem Rescaled.linear (h : Rescaled j j' c k f g) :
    g.placement.linear.scale k = f.placement.linear.scale c := by
  have hlinear := congrArg Placement.linear h.placement
  rwa [Placement.mul_scale_linear, Placement.scale_mul_linear] at hlinear

theorem Rescaled.place (h : Rescaled j j' c k f g) (p : Vec ℝ) :
    g.place (p.scale k) = (f.place p).scale c := by
  unfold Frame.place
  rw [← Placement.scale_apply, ← Placement.apply_mul, h.placement, Placement.apply_mul,
    Placement.scale_apply]

theorem Rescaled.norm_column (hj : j.Rescaled c j') (h : Rescaled j j' c k f g)
    (column : Linear ℝ → Vec ℝ) (hcolumn : ∀ m s, column (m.scale s) = (column m).scale s) :
    (column g.placement.linear).norm * k = (column f.placement.linear).norm * c := by
  rw [← Vec.norm_scale _ _ h.pos.le, ← Vec.norm_scale _ _ hj.pos.le, ← hcolumn, ← hcolumn, h.linear]

theorem Rescaled.length (hj : j.Rescaled c j') (h : Rescaled j j' c k f g) (l : ℝ) :
    g.length (l * k) = f.length l * c := by
  have hnorm := h.norm_column hj Linear.columnX fun _ _ => rfl
  rw [Frame.length, Frame.length, Placement.lengthScale_eq, Placement.lengthScale_eq, mul_assoc,
    mul_comm k, hnorm, mul_assoc]

theorem Rescaled.depth (hj : j.Rescaled c j') (h : Rescaled j j' c k f g) (d : ℝ) :
    g.depth (d * k) = f.depth d * c := by
  have hnorm := h.norm_column hj Linear.columnZ fun _ _ => rfl
  rw [Frame.depth, Frame.depth, Placement.depthScale_eq, Placement.depthScale_eq, mul_assoc,
    mul_comm k, hnorm, mul_assoc]

theorem aboveFloor_mul (hc : 0 < c) (hfloor : g.job.floor = f.job.floor * c) (z : ℝ) :
    g.aboveFloor (z * c) = f.aboveFloor z * c := by
  unfold aboveFloor
  rw [greater_real, greater_real, hfloor, max_mul_of_nonneg _ _ hc.le]

theorem Rescaled.matches (hj : j.Rescaled c j') (h : Rescaled j j' c k f g) : f.Matches c k g where
  floor := by
    rw [h.job, h.job', hj.floor]
  isMirroring := by
    have hdet : g.placement.determinant * k ^ 3 = f.placement.determinant * c ^ 3 := by
      have hscaled := congrArg Linear.determinant h.linear
      rwa [Linear.determinant_scale, Linear.determinant_scale] at hscaled
    have hk := pow_pos h.pos 3
    have hc := pow_pos hj.pos 3
    have hsign : g.placement.determinant < 0 ↔ f.placement.determinant < 0 := by
      constructor
      · intro hg
        exact neg_of_mul_neg_left (hdet ▸ mul_neg_of_neg_of_pos hg hk) hc.le
      · intro hf
        exact neg_of_mul_neg_left (hdet ▸ mul_neg_of_neg_of_pos hf hc) hk.le
    exact decide_eq_decide.mpr hsign
  place := h.place
  length := h.length hj
  depth := h.depth hj
  bottom p := by
    have hfloor : g.job.floor = f.job.floor * c := by rw [h.job, h.job', hj.floor]
    have hz : (g.place (p.scale k)).z = (f.place p).z * c := congrArg Vec.z (h.place p)
    unfold Frame.bottom
    rw [h.through, h.depthOffset, hz, ← add_mul, aboveFloor_mul hj.pos hfloor, hfloor]
    split_ifs <;> rfl

theorem Rescaled.sink (hj : j.Rescaled c j') (h : Rescaled j j' c k f g) (depth : Depth ℝ) :
    Rescaled j j' c k (f.sink depth) (g.sink (depth.scaled k)) := by
  cases depth with
  | through => exact { h with through := rfl }
  | down d =>
    have hzero : d * k = 0 ↔ d = 0 := by simp [h.pos.ne']
    simp only [Frame.sink, Depth.scaled, beq_real, decide_eq_true_eq, hzero]
    split_ifs with hd
    · exact h
    · refine { h with depthOffset := ?_ }
      change g.depthOffset - g.depth (d * k) = (f.depthOffset - f.depth d) * c
      rw [h.depthOffset, h.depth hj, sub_mul]

theorem Rescaled.enter (h : Rescaled j j' c k f g) {pose : Pose ℝ} {f' g' : Frame ℝ}
    (hf : f.enter pose.toPlacement = .ok f') (hg : g.enter (pose.scaled k).toPlacement = .ok g') :
    Rescaled j j' c k f' g' := by
  obtain ⟨-, rfl⟩ := enter_eq_ok.mp hf
  obtain ⟨-, rfl⟩ := enter_eq_ok.mp hg
  refine { h with placement := ?_ }
  change g.placement * (pose.scaled k).toPlacement * .scale k =
    .scale c * (f.placement * pose.toPlacement)
  rw [Placement.mul_assoc, Pose.toPlacement_scaled_mul, ← Placement.mul_assoc, h.placement,
    Placement.mul_assoc]

/-- In units that measure `u` and `v` the factor between local lengths is that of the units. -/
theorem Rescaled.rebase (hj : j.Rescaled c j') (h : Rescaled j j' c k f g) {u v : Ratio} {l : ℝ}
    (hl : 0 < l) (huv : (v.toScalar : ℝ) * l = u.toScalar * c) {f' g' : Frame ℝ}
    (hf : f.rebase u = .ok f') (hg : g.rebase v = .ok g') : Rescaled j j' c l f' g' := by
  obtain ⟨r, hr, rfl⟩ := rebase_eq_ok.mp hf
  obtain ⟨s, hs, rfl⟩ := rebase_eq_ok.mp hg
  have hk := h.pos.ne'
  have hc := hj.pos.ne'
  -- what the ratios differ by is what the units around them made up for
  have hratio : (s.toScalar : ℝ) * l = k * r.toScalar := by
    have hunit : (g.unitScale.toScalar : ℝ) = f.unitScale.toScalar * c / k :=
      eq_div_of_mul_eq hk h.unit
    rw [Ratio.of_div hs, Ratio.of_div hr, hunit, div_mul_eq_mul_div, huv]
    rcases eq_or_ne (f.unitScale.toScalar : ℝ) 0 with hzero | hnonzero
    · simp [hzero]
    · field_simp
  refine { h with pos := hl, placement := ?_, unit := huv }
  change g.placement * .scale s.toScalar * .scale l =
    .scale c * (f.placement * .scale r.toScalar)
  rw [Placement.mul_assoc, Placement.scale_mul_scale, hratio, ← Placement.scale_mul_scale,
    ← Placement.mul_assoc, h.placement, Placement.mul_assoc]

/-- A unit that both declare takes the factor between their local lengths away. -/
theorem Rescaled.inUnit (hj : j.Rescaled c j') (h : Rescaled j j' c k f g) {a : Amount}
    {f' g' : Frame ℝ} (hf : f.inUnit (some a) = .ok f') (hg : g.inUnit (some a) = .ok g') :
    Rescaled j j' c 1 f' g' := by
  obtain ⟨u, hu, hf⟩ := inUnit_some_eq_ok.mp hf
  obtain ⟨v, hv, hg⟩ := inUnit_some_eq_ok.mp hg
  rw [h.job] at hu
  rw [h.job'] at hv
  have huv := hj.decode a u v hu hv
  exact h.rebase hj one_pos ((mul_one _).trans huv) hf hg

end Frame

namespace Call

/-- Calls of one hook whose arguments and frames agree, up to the factors. -/
inductive Matches (c k : ℝ) : Call ℝ → Call ℝ → Prop
  | comment {f g : Frame ℝ} (h : f.Matches c k g) (text : String) :
    Matches c k (.comment f text) (.comment g text)
  | trace {f g : Frame ℝ} (h : f.Matches c k g) (p : Path ℝ) :
    Matches c k (.trace f p) (.trace g (p.scaled k))
  | hole {f g : Frame ℝ} (h : f.Matches c k g) (diameter : ℝ) :
    Matches c k (.hole f diameter) (.hole g (diameter * k))
  | pocket {f g : Frame ℝ} (h : f.Matches c k g) (p : Pocket ℝ) :
    Matches c k (.pocket f p) (.pocket g (p.scaled k))
  | pause {f g : Frame ℝ} (h : f.Matches c k g) : Matches c k (.pause f) (.pause g)

theorem Matches.frame {c k : ℝ} {a b : Call ℝ} (h : Matches c k a b) :
    a.frame.Matches c k b.frame := by
  cases h <;> assumption

/-- Calls for two jobs that match with the factor `k` or, below a unit that both declare, with
none. -/
structure Rescaled (j j' : Job ℝ) (c k : ℝ) (a b : Call ℝ) : Prop where
  job : a.frame.job = j
  job' : b.frame.job = j'
  agree : Matches c k a b ∨ Matches c 1 a b

theorem Rescaled.of_one {j j' : Job ℝ} {c : ℝ} {a b : Call ℝ} (h : Rescaled j j' c 1 a b) (k : ℝ) :
    Rescaled j j' c k a b where
  job := h.job
  job' := h.job'
  agree := .inr (h.agree.elim id id)

end Call

namespace Itinerary

/-- The calls are alike one by one, unless a traversal is stopped. -/
def Alike {α : Type} (r : Call α → Call α → Prop) (a b : Itinerary α) : Prop :=
  a.stop = none → b.stop = none → List.Forall₂ r a.calls b.calls

variable {α : Type} {r r' : Call α → Call α → Prop} {a a' b b' : Itinerary α}

theorem Alike.mono (h : a.Alike r b) (hr : ∀ x y, r x y → r' x y) : a.Alike r' b :=
  fun ha hb => (h ha hb).imp fun {x y} => hr x y

theorem alike_single {x y : Call α} (h : r x y) : (single x).Alike r (single y) :=
  fun _ _ => .cons h .nil

theorem alike_remark {f g : Frame α} (h : ∀ text, r (.comment f text) (.comment g text))
    (comment : Option String) : (remark f comment).Alike r (remark g comment) := by
  cases comment with
  | none => exact fun _ _ => .nil
  | some text => exact alike_single (h text)

theorem alike_stopped (e : CarveError α) : (stopped e).Alike r b :=
  fun h _ => nomatch h

theorem alike_of_stopped (e : CarveError α) : a.Alike r (stopped e) :=
  fun _ h => nomatch h

theorem Alike.append (ha : a.Alike r a') (hb : b.Alike r b') :
    (a.append b).Alike r (a'.append b') := by
  intro hstop hstop'
  obtain ⟨h, hmore⟩ := stop_append_eq_none.mp hstop
  obtain ⟨h', hmore'⟩ := stop_append_eq_none.mp hstop'
  rw [append_of_none h, append_of_none h']
  exact List.rel_append (ha h h') (hb hmore hmore')

theorem alike_join {l l' : List (Itinerary α)} (h : List.Forall₂ (Alike r) l l') :
    (join l).Alike r (join l') := by
  induction h with
  | nil => exact fun _ _ => .nil
  | cons hab _ ih => exact hab.append ih

end Itinerary

section
variable {α : Type} [Scalar α]

/-- The components of a group, once for each of its poses. -/
def Itinerary.repeated (base : Frame α) (poses : List (Pose α)) (components : List (Cut α)) :
    Itinerary α :=
  .join <| poses.map fun pose =>
    match base.enter pose.toPlacement with
    | .error e => .stopped e
    | .ok child => Cut.itineraryAll child components

theorem Cut.itinerary_group {f base : Frame α} {unit : Option Amount} (h : f.inUnit unit = .ok base)
    (poses : List (Pose α)) (components : List (Cut α)) (comment : Option String) :
    (Cut.group poses components unit comment).itinerary f =
      (Itinerary.remark f comment).append (.repeated base poses components) := by
  rw [Cut.itinerary.eq_def]
  simp only [h]
  rfl

theorem Cut.exists_itinerary_hole {job : Job α} {a : Amount} {unit ratio : Ratio}
    (decoded : job.decode a = .ok unit) (divided : unit.div 1 = .ok ratio) (pose : Pose α)
    (diameter : α) (depth : Depth α) :
    ∃ f, (Cut.group [pose] [.hole diameter depth none] (some a) none).itinerary (.root job) =
      .single (.hole f diameter) := by
  have hrebase := (Frame.rebase_eq_ok (f := .root job)).mpr ⟨ratio, divided, rfl⟩
  obtain ⟨base, hbase, room⟩ : ∃ base, (Frame.root job).inUnit (some a) = .ok base ∧
      base.nesting < Frame.nestingLimit :=
    ⟨_, Frame.inUnit_some_eq_ok.mpr ⟨unit, decoded, hrebase⟩, Nat.zero_lt_succ 255⟩
  obtain ⟨child, hchild⟩ : ∃ child, base.enter pose.toPlacement = .ok child :=
    ⟨_, Frame.enter_eq_ok.mpr ⟨room, rfl⟩⟩
  refine ⟨child.sink depth, ?_⟩
  rw [Cut.itinerary_group hbase]
  simp only [Itinerary.repeated, List.map_cons, hchild]
  rfl

theorem Cut.stop_itinerary_of_inUnit {f : Frame α} {unit : Option Amount} {e : MeasureError}
    (h : f.inUnit unit = .error e) (poses : List (Pose α)) (components : List (Cut α))
    (comment : Option String) :
    ((Cut.group poses components unit comment).itinerary f).stop ≠ none := by
  rw [Cut.itinerary.eq_def]
  simp only [h]
  cases comment <;> exact Option.some_ne_none _

end

namespace Frame.Rescaled
variable {j j' : Job ℝ} {c k : ℝ} {f g : Frame ℝ} {r : Call ℝ → Call ℝ → Prop}

theorem comment (hj : j.Rescaled c j') (h : Rescaled j j' c k f g) (text : String) :
    Call.Rescaled j j' c k (.comment f text) (.comment g text) :=
  ⟨h.job, h.job', .inl (.comment (h.matches hj) text)⟩

theorem alike_repeated (h : Rescaled j j' c k f g) {components components' : List (Cut ℝ)}
    (ih : ∀ f' g', Rescaled j j' c k f' g' →
      (Cut.itineraryAll f' components).Alike r (Cut.itineraryAll g' components'))
    (poses : List (Pose ℝ)) :
    (Itinerary.repeated f poses components).Alike r
      (.repeated g (poses.map (·.scaled k)) components') := by
  unfold Itinerary.repeated
  refine Itinerary.alike_join ?_
  rw [List.map_map, List.forall₂_map_left_iff, List.forall₂_map_right_iff, List.forall₂_same]
  intro pose _
  dsimp only [Function.comp]
  cases hf : f.enter pose.toPlacement with
  | error e => exact Itinerary.alike_stopped e
  | ok f' =>
    cases hg : g.enter (pose.scaled k).toPlacement with
    | error e => exact Itinerary.alike_of_stopped e
    | ok g' => exact ih f' g' (h.enter hf hg)

/-- Below a unit that both declare the local lengths are the same. -/
theorem alike_group (hj : j.Rescaled c j') (h : Rescaled j j' c k f g) {components : List (Cut ℝ)}
    (hcomment : ∀ text, r (.comment f text) (.comment g text))
    (ih : ∀ f' g', Rescaled j j' c 1 f' g' →
      (Cut.itineraryAll f' components).Alike r (Cut.itineraryAll g' components))
    (poses : List (Pose ℝ)) (a : Amount) (comment : Option String) :
    ((Cut.group poses components (some a) comment).itinerary f).Alike r
      ((Cut.group poses components (some a) comment).itinerary g) := by
  cases hf : f.inUnit (some a) with
  | error e => exact fun hstop => absurd hstop (Cut.stop_itinerary_of_inUnit hf _ _ _)
  | ok f' =>
    cases hg : g.inUnit (some a) with
    | error e => exact fun _ hstop => absurd hstop (Cut.stop_itinerary_of_inUnit hg _ _ _)
    | ok g' =>
      have hbody := (h.inUnit hj hf hg).alike_repeated ih poses
      simp only [Pose.scaled_one, List.map_id'] at hbody
      rw [Cut.itinerary_group hf, Cut.itinerary_group hg]
      exact (Itinerary.alike_remark hcomment comment).append hbody

end Frame.Rescaled

mutual
/-- A tree, and the tree in another unit, make matching calls in matching frames. -/
theorem Cut.itinerary_scaled {j j' : Job ℝ} {c k : ℝ} {f g : Frame ℝ} (hj : j.Rescaled c j')
    (h : Frame.Rescaled j j' c k f g) (cut : Cut ℝ) :
    (cut.itinerary f).Alike (Call.Rescaled j j' c k) ((cut.scaled k).itinerary g) := by
  match cut with
  | .group poses components none comment =>
    -- the factor is handed on to the poses and the components
    have hall := fun (f' g' : Frame ℝ) (h' : Frame.Rescaled j j' c k f' g') =>
      Cut.itineraryAll_scaled hj h' components
    rw [Cut.scaled.eq_def]
    dsimp only
    rw [Cut.itinerary_group rfl, Cut.itinerary_group rfl]
    exact (Itinerary.alike_remark (h.comment hj) comment).append (h.alike_repeated hall poses)
  | .group poses components (some a) comment =>
    -- below a declared unit both trees are the same, and the induction goes on without a factor
    have hall := fun (f' g' : Frame ℝ) (h' : Frame.Rescaled j j' c 1 f' g') =>
      Cut.itineraryAll_scaled hj h' components
    rw [Cut.scaledAll_one] at hall
    exact h.alike_group hj (h.comment hj)
      (fun f' g' h' => (hall f' g' h').mono fun _ _ hc => hc.of_one k) poses a comment
  | .trace path depth side comment =>
    rw [Cut.scaled.eq_def, Cut.itinerary.eq_def, Cut.itinerary.eq_def]
    refine (Itinerary.alike_remark (h.comment hj) comment).append ?_
    dsimp only
    rw [path.check_scaled k]
    have hsunk := h.sink hj depth
    cases path.check with
    | error e => exact Itinerary.alike_stopped e
    | ok _ =>
      exact Itinerary.alike_single ⟨hsunk.job, hsunk.job', .inl (.trace (hsunk.matches hj) path)⟩
  | .hole diameter depth comment =>
    rw [Cut.scaled.eq_def, Cut.itinerary.eq_def, Cut.itinerary.eq_def]
    refine (Itinerary.alike_remark (h.comment hj) comment).append ?_
    have hsunk := h.sink hj depth
    exact Itinerary.alike_single ⟨hsunk.job, hsunk.job', .inl (.hole (hsunk.matches hj) diameter)⟩
  | .pocket p comment =>
    rw [Cut.scaled.eq_def, Cut.itinerary.eq_def, Cut.itinerary.eq_def]
    refine (Itinerary.alike_remark (h.comment hj) comment).append ?_
    exact Itinerary.alike_single ⟨h.job, h.job', .inl (.pocket (h.matches hj) p)⟩
  | .pause comment =>
    rw [Cut.scaled.eq_def, Cut.itinerary.eq_def, Cut.itinerary.eq_def]
    refine (Itinerary.alike_remark (h.comment hj) comment).append ?_
    exact Itinerary.alike_single ⟨h.job, h.job', .inl (.pause (h.matches hj))⟩
termination_by structural cut

theorem Cut.itineraryAll_scaled {j j' : Job ℝ} {c k : ℝ} {f g : Frame ℝ} (hj : j.Rescaled c j')
    (h : Frame.Rescaled j j' c k f g) (cuts : List (Cut ℝ)) :
    (Cut.itineraryAll f cuts).Alike (Call.Rescaled j j' c k)
      (Cut.itineraryAll g (Cut.scaledAll k cuts)) := by
  match cuts with
  | [] => exact fun _ _ => .nil
  | cut :: rest =>
    rw [Cut.scaledAll, Cut.itineraryAll, Cut.itineraryAll]
    exact (Cut.itinerary_scaled hj h cut).append (Cut.itineraryAll_scaled hj h rest)
termination_by structural cuts
end

end Toolpath
