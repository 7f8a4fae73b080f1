import Toolpath.Proofs.Cut.Nested
import Toolpath.Proofs.Traversal.Flattening

/-! Cut trees written out with the groups that lie around each node, as if groups could lie in each
other to any depth. A traversal follows such a trail up to the first group that is too deep for
it. -/
namespace Toolpath
variable {α : Type}

/-- What is done at a node: a call, a refusal of what the node holds, or the way into a group at one
of its poses. -/
inductive Act (α : Type) where
  | call (c : Call α)
  | refuse (e : CarveError α)
  | enter (pose : Pose α)

/-- What is done at a node that lies in some groups, listed from the innermost one outward. -/
structure Visit (α : Type) where
  groups : List (Cut α)
  node : Cut α
  act : Act α

/-- A call is made for a node. -/
def Cut.Makes (node : Cut α) : Call α → Prop
  | .comment _ text => node.comment = some text
  | .trace _ path => ∃ depth side comment, node = .trace path depth side comment
  | .hole _ diameter => ∃ depth comment, node = .hole diameter depth comment
  | .pocket _ p => ∃ comment, node = .pocket p comment
  | .pause _ => ∃ comment, node = .pause comment

namespace Visit

def call? (v : Visit α) : Option (Call α) :=
  match v.act with
  | .call c => some c
  | _ => none

/-- Why a traversal does not get past a visit, apart from calls that fail. -/
def refusal? (v : Visit α) : Option (CarveError α) :=
  match v.act with
  | .call _ => none
  | .refuse e => some e
  | .enter _ =>
    if v.groups.length < Frame.nestingLimit then none
    else some (.nestedTooDeep Frame.nestingLimit)

theorem refusal?_enter {groups : List (Cut α)} {node : Cut α} {pose : Pose α} :
    refusal? ⟨groups, node, .enter pose⟩ = none ↔ groups.length < Frame.nestingLimit := by
  simp [refusal?]

/-- What a traversal comes to on a visit; nothing, where it goes into a group. -/
def taken? (v : Visit α) : Option (Entry α) :=
  match v.refusal? with
  | some e => some (.refusal e)
  | none => v.call?.map .call

/-- What a visit of a tree is: its groups lie around its node, a call of the node is made in a frame
that counts them, and only groups are gone into. Nothing that a node holds is refused for its
depth. -/
structure Sound (cuts : List (Cut α)) (v : Visit α) : Prop where
  within : Cut.Within cuts v.groups v.node
  call : ∀ c, v.act = .call c → v.node.Makes c ∧ c.frame.nesting = v.groups.length
  enter : ∀ pose, v.act = .enter pose → ∃ poses components unit comment,
    v.node = .group poses components unit comment ∧ pose ∈ poses
  refuse : ∀ limit, v.act ≠ .refuse (.nestedTooDeep limit)

/-- As far as visits are got past, none lies deeper than allowed. -/
def Shallow : List (Visit α) → Prop
  | [] => True
  | v :: rest => v.groups.length ≤ Frame.nestingLimit ∧ (v.refusal? = none → Shallow rest)

theorem Shallow.append {l m : List (Visit α)} (hl : Shallow l) (hm : Shallow m) :
    Shallow (l ++ m) := by
  induction l with
  | nil => exact hm
  | cons v rest ih => exact ⟨hl.1, fun hv => ih (hl.2 hv)⟩

theorem Shallow.flatMap {ι : Type} {l : List ι} {g : ι → List (Visit α)}
    (h : ∀ x ∈ l, Shallow (g x)) : Shallow (l.flatMap g) := by
  induction l with
  | nil => trivial
  | cons x rest ih =>
    obtain ⟨hx, hrest⟩ := List.forall_mem_cons.mp h
    rw [List.flatMap_cons]
    exact hx.append (ih hrest)

theorem Shallow.length_le {trail made : List (Visit α)} {v : Visit α} (h : Shallow trail)
    (hv : made ++ [v] <+: trail) (passed : ∀ u ∈ made, u.refusal? = none) :
    v.groups.length ≤ Frame.nestingLimit := by
  obtain ⟨after, rfl⟩ := hv
  rw [List.append_assoc] at h
  induction made with
  | nil => exact h.1
  | cons u rest ih =>
    obtain ⟨hu, hrest⟩ := List.forall_mem_cons.mp passed
    exact ih hrest (h.2 hu)

theorem Shallow.length_le_of_mem {trail made : List (Visit α)} {v : Visit α} (h : Shallow trail)
    (hmade : made <+: trail) (passed : ∀ u ∈ made, u.refusal? = none) (hv : v ∈ made) :
    v.groups.length ≤ Frame.nestingLimit := by
  obtain ⟨first, rest, rfl⟩ := List.append_of_mem hv
  refine h.length_le (.trans ⟨rest, ?_⟩ hmade) fun u hu => passed u (List.mem_append_left _ hu)
  rw [List.append_assoc, List.singleton_append]

end Visit

/-- A path is not refused for its depth. -/
theorem Path.checkSegments_ne_nestedTooDeep {count limit : Nat} (index : Nat)
    (segments : List Segment) :
    (checkSegments count index segments : Except (CarveError α) Unit) ≠
      .error (.nestedTooDeep limit) := by
  induction segments generalizing index with
  | nil => exact nofun
  | cons s rest ih =>
    have hs : (checkSegment count index s : Except (CarveError α) Unit) ≠
        .error (.nestedTooDeep limit) := by
      unfold checkSegment
      cases s <;> dsimp only <;> split_ifs <;> exact nofun
    intro h
    rw [checkSegments] at h
    cases hc : (checkSegment count index s : Except (CarveError α) Unit) with
    | error e =>
      rw [hc] at h
      exact hs (hc.trans h)
    | ok _ =>
      rw [hc] at h
      exact ih (index + 1) h

variable [Scalar α]

/-- The frame of a group's components at one of its poses, however deep the group lies. -/
def Frame.inside (f : Frame α) (pose : Placement α) : Frame α :=
  { f with placement := f.placement * pose, nesting := f.nesting + 1 }

mutual
/-- The visits at a node that lies in some groups, and at all nodes below it. -/
def Cut.trail (groups : List (Cut α)) (f : Frame α) (cut : Cut α) : List (Visit α) :=
  (cut.comment.toList.map fun text => ⟨groups, cut, .call (.comment f text)⟩) ++
    match cut with
    | .group poses components unit _ =>
      match f.inUnit unit with
      | .error e => [⟨groups, cut, .refuse (.measure e)⟩]
      | .ok base => poses.flatMap fun pose =>
        ⟨groups, cut, .enter pose⟩ ::
          Cut.trailAll (cut :: groups) (base.inside pose.toPlacement) components
    | .trace path depth _ _ =>
      match path.check with
      | .error e => [⟨groups, cut, .refuse e⟩]
      | .ok _ => [⟨groups, cut, .call (.trace (f.sink depth) path)⟩]
    | .hole diameter depth _ => [⟨groups, cut, .call (.hole (f.sink depth) diameter)⟩]
    | .pocket p _ => [⟨groups, cut, .call (.pocket f p)⟩]
    | .pause _ => [⟨groups, cut, .call (.pause f)⟩]
termination_by structural cut

def Cut.trailAll (groups : List (Cut α)) (f : Frame α) (cuts : List (Cut α)) : List (Visit α) :=
  match cuts with
  | [] => []
  | cut :: rest => cut.trail groups f ++ Cut.trailAll groups f rest
termination_by structural cuts
end

namespace Frame
variable {f g : Frame α}

theorem nesting_of_inUnit {unit : Option Amount} (h : f.inUnit unit = .ok g) :
    g.nesting = f.nesting := by
  cases unit with
  | none => rw [Except.ok.inj h]
  | some a =>
    obtain ⟨value, -, hr⟩ := inUnit_some_eq_ok.mp h
    obtain ⟨ratio, -, rfl⟩ := rebase_eq_ok.mp hr
    rfl

@[simp] theorem nesting_sink (f : Frame α) (depth : Depth α) :
    (f.sink depth).nesting = f.nesting := by
  unfold sink
  split
  · rfl
  · split_ifs <;> rfl

theorem enter_eq (f : Frame α) (pose : Placement α) :
    f.enter pose = if f.nesting < nestingLimit then .ok (f.inside pose)
      else .error (.nestedTooDeep nestingLimit) := by
  unfold enter
  split_ifs with h hroom hroom
  · omega
  · rfl
  · rfl
  · omega

end Frame

namespace Visit
variable {cuts groups : List (Cut α)} {node : Cut α}

omit [Scalar α] in
theorem Sound.of_call (hw : Cut.Within cuts groups node) {c : Call α} (hc : node.Makes c)
    (hf : c.frame.nesting = groups.length) : Sound cuts ⟨groups, node, .call c⟩ where
  within := hw
  call := by rintro _ ⟨⟩; exact ⟨hc, hf⟩
  enter _ h := nomatch h
  refuse _ h := nomatch h

omit [Scalar α] in
theorem Sound.of_refuse (hw : Cut.Within cuts groups node) {e : CarveError α}
    (he : ∀ limit, e ≠ .nestedTooDeep limit) : Sound cuts ⟨groups, node, .refuse e⟩ where
  within := hw
  call _ h := nomatch h
  enter _ h := nomatch h
  refuse limit h := he limit (Act.refuse.inj h)

omit [Scalar α] in
theorem Sound.of_enter {poses : List (Pose α)} {components : List (Cut α)} {unit : Option Amount}
    {comment : Option String} (hw : Cut.Within cuts groups (.group poses components unit comment))
    {pose : Pose α} (hpose : pose ∈ poses) :
    Sound cuts ⟨groups, .group poses components unit comment, .enter pose⟩ where
  within := hw
  call _ h := nomatch h
  enter := by rintro _ ⟨⟩; exact ⟨poses, components, unit, comment, rfl, hpose⟩
  refuse _ h := nomatch h

end Visit

omit [Scalar α] in
theorem Visit.ofEntries_remarks (groups : List (Cut α)) (f : Frame α) (cut : Cut α) :
    Itinerary.ofEntries
      ((cut.comment.toList.map fun text =>
        (⟨groups, cut, .call (.comment f text)⟩ : Visit α)).filterMap Visit.taken?) =
      .remark f cut.comment := by
  cases cut.comment <;> rfl

mutual
theorem Cut.sound_of_mem_trail {cuts groups : List (Cut α)} {f : Frame α}
    (hf : f.nesting = groups.length) {cut : Cut α} (hw : Cut.Within cuts groups cut) {v : Visit α}
    (hv : v ∈ cut.trail groups f) : v.Sound cuts := by
  rw [Cut.trail.eq_def] at hv
  rcases List.mem_append.mp hv with hv | hv
  · obtain ⟨text, htext, rfl⟩ := List.mem_map.mp hv
    exact .of_call hw (Option.mem_toList.mp htext) hf
  match cut with
  | .group poses components unit comment =>
    dsimp only at hv
    cases hu : f.inUnit unit with
    | error e =>
      simp only [hu, List.mem_singleton] at hv
      exact hv ▸ .of_refuse hw nofun
    | ok base =>
      simp only [hu] at hv
      obtain ⟨pose, hpose, hv⟩ := List.mem_flatMap.mp hv
      rcases List.mem_cons.mp hv with rfl | hv
      · exact .of_enter hw hpose
      · -- The components lie in this group too, and the frame inside it counts one more.
        have hbase := (Frame.nesting_of_inUnit hu).trans hf
        exact Cut.sound_of_mem_trailAll (congrArg (· + 1) hbase) (fun _ hc => .inner hw hc) hv
  | .trace path depth side comment =>
    dsimp only at hv
    cases hp : path.check with
    | error e =>
      simp only [hp, List.mem_singleton] at hv
      exact hv ▸ .of_refuse hw fun limit he => Path.checkSegments_ne_nestedTooDeep _ _ (he ▸ hp)
    | ok _ =>
      simp only [hp, List.mem_singleton] at hv
      exact hv ▸ .of_call hw ⟨depth, side, comment, rfl⟩ ((f.nesting_sink depth).trans hf)
  | .hole diameter depth comment =>
    simp only [List.mem_singleton] at hv
    exact hv ▸ .of_call hw ⟨depth, comment, rfl⟩ ((f.nesting_sink depth).trans hf)
  | .pocket p comment =>
    simp only [List.mem_singleton] at hv
    exact hv ▸ .of_call hw ⟨comment, rfl⟩ hf
  | .pause comment =>
    simp only [List.mem_singleton] at hv
    exact hv ▸ .of_call hw ⟨comment, rfl⟩ hf
termination_by structural cut

theorem Cut.sound_of_mem_trailAll {cuts groups : List (Cut α)} {f : Frame α}
    (hf : f.nesting = groups.length) {nodes : List (Cut α)}
    (hw : ∀ node ∈ nodes, Cut.Within cuts groups node) {v : Visit α}
    (hv : v ∈ Cut.trailAll groups f nodes) : v.Sound cuts := by
  match nodes with
  | [] => exact absurd hv List.not_mem_nil
  | node :: rest =>
    obtain ⟨hnode, hrest⟩ := List.forall_mem_cons.mp hw
    rw [Cut.trailAll] at hv
    rcases List.mem_append.mp hv with hv | hv
    · exact Cut.sound_of_mem_trail hf hnode hv
    · exact Cut.sound_of_mem_trailAll hf hrest hv
termination_by structural nodes
end

mutual
theorem Cut.shallow_trail {groups : List (Cut α)} (h : groups.length ≤ Frame.nestingLimit)
    (f : Frame α) (cut : Cut α) : Visit.Shallow (cut.trail groups f) := by
  have hone : ∀ act, Visit.Shallow [(⟨groups, cut, act⟩ : Visit α)] := fun _ => ⟨h, fun _ => trivial⟩
  rw [Cut.trail.eq_def]
  refine .append ?_ ?_
  · cases cut.comment with
    | none => trivial
    | some text => exact hone _
  match cut with
  | .group poses components unit comment =>
    dsimp only
    cases f.inUnit unit with
    | error e => exact hone _
    | ok base =>
      refine .flatMap fun pose _ => ⟨h, fun hroom => ?_⟩
      -- Past a way into the group, there is room for one more group.
      have hinner : (Cut.group poses components unit comment :: groups).length ≤
          Frame.nestingLimit := Visit.refusal?_enter.mp hroom
      exact Cut.shallow_trailAll hinner _ components
  | .trace path depth _ _ =>
    dsimp only
    cases path.check <;> exact hone _
  | .hole diameter depth _ => exact hone _
  | .pocket p _ => exact hone _
  | .pause _ => exact hone _
termination_by structural cut

theorem Cut.shallow_trailAll {groups : List (Cut α)} (h : groups.length ≤ Frame.nestingLimit)
    (f : Frame α) (cuts : List (Cut α)) : Visit.Shallow (Cut.trailAll groups f cuts) := by
  match cuts with
  | [] => trivial
  | cut :: rest =>
    rw [Cut.trailAll]
    exact (Cut.shallow_trail h f cut).append (Cut.shallow_trailAll h f rest)
termination_by structural cuts
end

mutual
/-- The itinerary of a tree is its trail, with a refusal where a group lies too deep to go into. -/
theorem Cut.itinerary_eq_trail {groups : List (Cut α)} {f : Frame α}
    (hf : f.nesting = groups.length) (cut : Cut α) :
    cut.itinerary f = .ofEntries ((cut.trail groups f).filterMap Visit.taken?) := by
  rw [Cut.itinerary.eq_def, Cut.trail.eq_def, List.filterMap_append, Itinerary.ofEntries_append,
    Visit.ofEntries_remarks]
  congr 1
  match cut with
  | .group poses components unit comment =>
    have hall {inner : List (Cut α)} {g : Frame α} (hg : g.nesting = inner.length) :=
      Cut.itineraryAll_eq_trail hg components
    dsimp only
    cases hu : f.inUnit unit with
    | error e => rfl
    | ok base =>
      have hbase := (Frame.nesting_of_inUnit hu).trans hf
      dsimp only
      rw [List.filterMap_flatMap, Itinerary.ofEntries_flatMap]
      refine congrArg Itinerary.join (List.map_congr_left fun pose _ => ?_)
      rw [Frame.enter_eq, hbase, List.filterMap_cons, Visit.taken?, Visit.refusal?]
      dsimp only
      -- The frame counts the groups of the trail, so both refuse the group at the same depth.
      split_ifs with hroom
      · exact hall (congrArg (· + 1) hbase)
      · rfl
  | .trace path depth _ _ =>
    dsimp only
    cases path.check <;> rfl
  | .hole diameter depth _ => rfl
  | .pocket p _ => rfl
  | .pause _ => rfl
termination_by structural cut

theorem Cut.itineraryAll_eq_trail {groups : List (Cut α)} {f : Frame α}
    (hf : f.nesting = groups.length) (cuts : List (Cut α)) :
    Cut.itineraryAll f cuts = .ofEntries ((Cut.trailAll groups f cuts).filterMap Visit.taken?) := by
  match cuts with
  | [] => rfl
  | cut :: rest =>
    rw [Cut.itineraryAll, Cut.trailAll, List.filterMap_append, Itinerary.ofEntries_append,
      Cut.itinerary_eq_trail hf cut, Cut.itineraryAll_eq_trail hf rest]
termination_by structural cuts
end

end Toolpath
