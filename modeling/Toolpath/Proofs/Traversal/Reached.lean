import Toolpath.Proofs.Traversal.Trail

/-! Where the calls of a traversal are made: at the ends of routes into the tree, also where the
traversal is stopped. -/
namespace Toolpath
variable {α : Type}

/-- A node of some cuts at the end of a route. Each leg goes into a group around the node, at one of
its poses. -/
inductive Cut.OnRoute (cuts : List (Cut α)) : List (Leg α) → Cut α → Prop
  | top {node : Cut α} (mem : node ∈ cuts) : OnRoute cuts [] node
  | inner {route : List (Leg α)} {poses : List (Pose α)} {components : List (Cut α)}
      {unit : Option Amount} {comment : Option String} {pose : Pose α} {node : Cut α}
      (group : OnRoute cuts route (.group poses components unit comment)) (posed : pose ∈ poses)
      (mem : node ∈ components) : OnRoute cuts (route ++ [⟨unit, pose⟩]) node

variable [Scalar α]

/-- A call for a node at the end of a route, in the frame there or in one that the node has sunk. -/
structure Call.EndsRoute (root : Frame α) (cuts : List (Cut α)) (route : List (Leg α))
    (c : Call α) : Prop where
  node : ∃ node, Cut.OnRoute cuts route node ∧ node.Makes c
  frame : ∃ f, root.along route = .ok f ∧ (c.frame = f ∨ ∃ depth, c.frame = f.sink depth)

theorem Frame.along_concat {f child g : Frame α} {route : List (Leg α)} {leg : Leg α}
    (hf : f.along route = .ok child) (hleg : child.descend leg = .ok g) :
    f.along (route ++ [leg]) = .ok g := by
  induction route generalizing f with
  | nil =>
    obtain rfl := Except.ok.inj hf
    exact along_cons_eq_ok.mpr ⟨g, descend_eq_ok.mp hleg, rfl⟩
  | cons first rest ih =>
    obtain ⟨next, hnext, hrest⟩ := along_cons_eq_ok.mp hf
    exact along_cons_eq_ok.mpr ⟨next, hnext, ih hrest⟩

section
variable {root : Frame α} {cuts : List (Cut α)} {c : Call α}

theorem Call.EndsRoute.intro {route : List (Leg α)} {f : Frame α} {node : Cut α}
    (hnode : Cut.OnRoute cuts route node) (hc : node.Makes c) (hf : root.along route = .ok f)
    (hframe : c.frame = f ∨ ∃ depth, c.frame = f.sink depth) : c.EndsRoute root cuts route :=
  ⟨⟨node, hnode, hc⟩, ⟨f, hf, hframe⟩⟩

mutual
theorem Cut.endsRoute_of_mem_flatten {route : List (Leg α)} {f : Frame α}
    (hf : root.along route = .ok f) {node : Cut α} (hnode : OnRoute cuts route node)
    (hc : .call c ∈ node.flatten f) : ∃ route, c.EndsRoute root cuts route := by
  rw [Cut.flatten.eq_def] at hc
  rcases List.mem_append.mp hc with hc | hc
  · cases hr : node.comment with
    | none => simp [hr, Entry.remark] at hc
    | some text =>
      simp only [hr, Entry.remark, List.mem_singleton, Entry.call.injEq] at hc
      exact hc ▸ ⟨route, .intro hnode hr hf (.inl rfl)⟩
  match node with
  | .group poses components unit comment =>
    dsimp only at hc
    cases hu : f.inUnit unit with
    | error e => simp [hu] at hc
    | ok base =>
      simp only [hu] at hc
      obtain ⟨pose, hpose, hc⟩ := List.mem_flatMap.mp hc
      cases hd : f.descend ⟨unit, pose⟩ with
      | error e => simp [hd] at hc
      | ok child =>
        simp only [hd] at hc
        -- The components are one leg farther than the group.
        exact Cut.endsRoute_of_mem_flattenAll (Frame.along_concat hf hd)
          (fun _ hmem => .inner hnode hpose hmem) hc
  | .trace path depth side comment =>
    dsimp only at hc
    cases hp : path.check with
    | error e => simp [hp] at hc
    | ok _ =>
      simp only [hp, List.mem_singleton, Entry.call.injEq] at hc
      exact hc ▸ ⟨route, .intro hnode ⟨depth, side, comment, rfl⟩ hf (.inr ⟨depth, rfl⟩)⟩
  | .hole diameter depth comment =>
    simp only [List.mem_singleton, Entry.call.injEq] at hc
    exact hc ▸ ⟨route, .intro hnode ⟨depth, comment, rfl⟩ hf (.inr ⟨depth, rfl⟩)⟩
  | .pocket p comment =>
    simp only [List.mem_singleton, Entry.call.injEq] at hc
    exact hc ▸ ⟨route, .intro hnode ⟨comment, rfl⟩ hf (.inl rfl)⟩
  | .pause comment =>
    simp only [List.mem_singleton, Entry.call.injEq] at hc
    exact hc ▸ ⟨route, .intro hnode ⟨comment, rfl⟩ hf (.inl rfl)⟩
termination_by structural node

theorem Cut.endsRoute_of_mem_flattenAll {route : List (Leg α)} {f : Frame α}
    (hf : root.along route = .ok f) {nodes : List (Cut α)}
    (hnodes : ∀ node ∈ nodes, OnRoute cuts route node) (hc : .call c ∈ Cut.flattenAll f nodes) :
    ∃ route, c.EndsRoute root cuts route := by
  match nodes with
  | [] => exact absurd hc List.not_mem_nil
  | node :: rest =>
    obtain ⟨hnode, hrest⟩ := List.forall_mem_cons.mp hnodes
    rw [Cut.flattenAll] at hc
    rcases List.mem_append.mp hc with hc | hc
    · exact Cut.endsRoute_of_mem_flatten hf hnode hc
    · exact Cut.endsRoute_of_mem_flattenAll hf hrest hc
termination_by structural nodes
end

omit [Scalar α] in
/-- A call before a stop is one of the entries. -/
theorem Itinerary.call_mem_of_mem_calls {l : List (Entry α)} (h : c ∈ (ofEntries l).calls) :
    .call c ∈ l := by
  induction l with
  | nil => exact absurd h List.not_mem_nil
  | cons v rest ih =>
    cases v with
    | refusal e => exact absurd h List.not_mem_nil
    | call d =>
      rcases mem_calls_append h with h | h
      · exact List.mem_singleton.mp h ▸ List.mem_cons_self
      · exact List.mem_cons_of_mem _ (ih h)

/-- All calls of a traversal are at the ends of routes. -/
theorem Cut.endsRoute_of_mem_calls (h : c ∈ (Cut.itineraryAll root cuts).calls) :
    ∃ route, c.EndsRoute root cuts route := by
  rw [Cut.itineraryAll_eq_ofEntries] at h
  have hroot : root.along [] = .ok root := rfl
  exact Cut.endsRoute_of_mem_flattenAll hroot (fun _ hnode => .top hnode)
    (Itinerary.call_mem_of_mem_calls h)

end
end Toolpath
