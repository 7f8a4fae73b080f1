import Toolpath.Proofs.Traversal.Itinerary
import Toolpath.Proofs.Traversal.Route

/-! Cut trees written out in the order of a traversal, as if nothing failed on the way. A traversal
takes the entries one by one and ends at the first that fails. -/
namespace Toolpath

/-- What a traversal comes to: a call, or a node that it cannot go into. -/
inductive Entry (α : Type) where
  | call (c : Call α)
  | refusal (e : CarveError α)

namespace Entry
variable {α : Type}

/-- The call of a leaf. -/
def leaf? : Entry α → Option (Call α)
  | call c => if c.isComment then none else some c
  | refusal _ => none

def remark (f : Frame α) : Option String → List (Entry α)
  | some text => [call (.comment f text)]
  | none => []

@[simp] theorem filterMap_leaf?_remark (f : Frame α) (comment : Option String) :
    (remark f comment).filterMap leaf? = [] := by
  cases comment <;> rfl

theorem filterMap_leaf?_calls (calls : List (Call α)) :
    (calls.map call).filterMap leaf? = calls.filter (!·.isComment) := by
  induction calls with
  | nil => rfl
  | cons c rest ih => cases h : c.isComment <;> simp [leaf?, h, ih]

end Entry

namespace Itinerary
variable {α : Type}

/-- The calls of entries up to the first refusal. -/
def ofEntries : List (Entry α) → Itinerary α
  | [] => {}
  | .call c :: rest => (single c).append (ofEntries rest)
  | .refusal e :: _ => stopped e

theorem append_assoc (a b c : Itinerary α) : (a.append b).append c = a.append (b.append c) := by
  cases ha : a.stop with
  | none =>
    cases hb : b.stop with
    | none => simp [append_of_none, ha, hb]
    | some e => simp [append_of_none ha, append_of_some, hb]
  | some e => rw [append_of_some ha, append_of_some ha, append_of_some ha]

/-- Entries that do not stop a traversal are its calls. -/
theorem entries_of_stop_eq_none {l : List (Entry α)} (h : (ofEntries l).stop = none) :
    l = (ofEntries l).calls.map .call := by
  induction l with
  | nil => rfl
  | cons v rest ih =>
    cases v with
    | refusal e => cases h
    | call c =>
      have hsingle : (single c).stop = none := rfl
      rw [ofEntries, append_of_none hsingle] at h ⊢
      exact congrArg (Entry.call c :: ·) (ih h)

theorem stop_ofEntries_eq_none {l : List (Entry α)} :
    (ofEntries l).stop = none ↔ ∀ e, .refusal e ∉ l := by
  constructor
  · intro h e he
    rw [entries_of_stop_eq_none h] at he
    obtain ⟨c, -, hc⟩ := List.mem_map.mp he
    cases hc
  · intro h
    induction l with
    | nil => rfl
    | cons v rest ih =>
      cases v with
      | refusal e => exact absurd List.mem_cons_self (h e)
      | call c =>
        have hsingle : (single c).stop = none := rfl
        rw [ofEntries, append_of_none hsingle]
        exact ih fun e he => h e (List.mem_cons_of_mem _ he)

theorem mem_calls_ofEntries {l : List (Entry α)} (h : (ofEntries l).stop = none) {c : Call α} :
    c ∈ (ofEntries l).calls ↔ .call c ∈ l := by
  constructor
  · intro hc
    rw [entries_of_stop_eq_none h]
    exact List.mem_map_of_mem hc
  · intro hc
    rw [entries_of_stop_eq_none h] at hc
    obtain ⟨d, hd, heq⟩ := List.mem_map.mp hc
    exact Entry.call.inj heq ▸ hd

theorem ofEntries_append (l m : List (Entry α)) :
    ofEntries (l ++ m) = (ofEntries l).append (ofEntries m) := by
  induction l with
  | nil => rfl
  | cons v rest ih =>
    cases v with
    | call c => rw [List.cons_append, ofEntries, ofEntries, ih, append_assoc]
    | refusal e => rfl

theorem ofEntries_flatMap {ι : Type} (l : List ι) (g : ι → List (Entry α)) :
    ofEntries (l.flatMap g) = join (l.map fun x => ofEntries (g x)) := by
  induction l with
  | nil => rfl
  | cons x rest ih => rw [List.flatMap_cons, ofEntries_append, ih, List.map_cons, join]

theorem ofEntries_remark (f : Frame α) (comment : Option String) :
    ofEntries (Entry.remark f comment) = remark f comment := by
  cases comment <;> rfl

end Itinerary

section
variable {α : Type} [Scalar α]

mutual
/-- The entries at a node and all below it: its comment under its own frame, then the leaf, or for
each pose of a group in order each of its components in order. -/
def Cut.flatten (f : Frame α) (cut : Cut α) : List (Entry α) :=
  Entry.remark f cut.comment ++
    match cut with
    | .group poses components unit _ =>
      match f.inUnit unit with
      | .error e => [.refusal (.measure e)]
      | .ok _ => poses.flatMap fun pose =>
        match f.descend ⟨unit, pose⟩ with
        | .error e => [.refusal e]
        | .ok child => Cut.flattenAll child components
    | .trace path depth _ _ =>
      match path.check with
      | .error e => [.refusal e]
      | .ok _ => [.call (.trace (f.sink depth) path)]
    | .hole diameter depth _ => [.call (.hole (f.sink depth) diameter)]
    | .pocket p _ => [.call (.pocket f p)]
    | .pause _ => [.call (.pause f)]
termination_by structural cut

def Cut.flattenAll (f : Frame α) (cuts : List (Cut α)) : List (Entry α) :=
  match cuts with
  | [] => []
  | cut :: rest => cut.flatten f ++ Cut.flattenAll f rest
termination_by structural cuts
end

/-- Nodes in one frame do not see each other. -/
theorem Cut.flattenAll_eq_flatMap (f : Frame α) (cuts : List (Cut α)) :
    Cut.flattenAll f cuts = cuts.flatMap fun cut => cut.flatten f := by
  induction cuts with
  | nil => rfl
  | cons cut rest ih => rw [Cut.flattenAll, ih, List.flatMap_cons]

mutual
theorem Cut.itinerary_eq_ofEntries (f : Frame α) (cut : Cut α) :
    cut.itinerary f = .ofEntries (cut.flatten f) := by
  rw [Cut.itinerary.eq_def, Cut.flatten.eq_def, Itinerary.ofEntries_append,
    Itinerary.ofEntries_remark]
  congr 1
  match cut with
  | .group poses components unit _ =>
    have hall := fun g => Cut.itineraryAll_eq_ofEntries g components
    dsimp only
    cases hu : f.inUnit unit with
    | error e => rfl
    | ok base =>
      dsimp only
      rw [Itinerary.ofEntries_flatMap]
      refine congrArg Itinerary.join (List.map_congr_left fun pose _ => ?_)
      rw [Frame.descend_of_inUnit hu]
      cases base.enter pose.toPlacement with
      | error e => rfl
      | ok child => exact hall child
  | .trace path depth _ _ =>
    dsimp only
    cases path.check <;> rfl
  | .hole diameter depth _ => rfl
  | .pocket p _ => rfl
  | .pause _ => rfl
termination_by structural cut

theorem Cut.itineraryAll_eq_ofEntries (f : Frame α) (cuts : List (Cut α)) :
    Cut.itineraryAll f cuts = .ofEntries (Cut.flattenAll f cuts) := by
  match cuts with
  | [] => rfl
  | cut :: rest =>
    rw [Cut.itineraryAll, Cut.flattenAll, Itinerary.ofEntries_append,
      Cut.itinerary_eq_ofEntries f cut, Cut.itineraryAll_eq_ofEntries f rest]
termination_by structural cuts
end

mutual
/-- The leaves of a tree in order, once for each choice of a pose of every group around them. A leaf
is what it makes of the frame at the end of its route. -/
def Cut.routes (cut : Cut α) : List (List (Leg α) × (Frame α → Call α)) :=
  match cut with
  | .group poses components unit _ => poses.flatMap fun pose =>
    (Cut.routesAll components).map fun r => (⟨unit, pose⟩ :: r.1, r.2)
  | .trace path depth _ _ => [([], fun f => .trace (f.sink depth) path)]
  | .hole diameter depth _ => [([], fun f => .hole (f.sink depth) diameter)]
  | .pocket p _ => [([], fun f => .pocket f p)]
  | .pause _ => [([], fun f => .pause f)]
termination_by structural cut

def Cut.routesAll (cuts : List (Cut α)) : List (List (Leg α) × (Frame α → Call α)) :=
  match cuts with
  | [] => []
  | cut :: rest => cut.routes ++ Cut.routesAll rest
termination_by structural cuts
end

/-- The calls at the ends of routes that start in one frame. -/
def Frame.ends (f : Frame α) (routes : List (List (Leg α) × (Frame α → Call α))) :
    List (Except (CarveError α) (Call α)) :=
  routes.map fun r => r.2 <$> f.along r.1

theorem Frame.ends_append (f : Frame α) (a b : List (List (Leg α) × (Frame α → Call α))) :
    f.ends (a ++ b) = f.ends a ++ f.ends b := List.map_append

theorem Frame.ends_leg {f child : Frame α} {leg : Leg α} (h : f.descend leg = .ok child)
    (routes : List (List (Leg α) × (Frame α → Call α))) :
    f.ends (routes.map fun r => (leg :: r.1, r.2)) = child.ends routes := by
  unfold ends
  rw [List.map_map]
  refine List.map_congr_left fun r _ => ?_
  change r.2 <$> (f.descend leg >>= fun g => g.along r.1) = _
  rw [h]
  rfl

/-- The poses of a group, given what is known of its components. -/
private theorem leaves_poses {f : Frame α} {unit : Option Amount} {components : List (Cut α)}
    (ih : ∀ g : Frame α, (∀ e, .refusal e ∉ Cut.flattenAll g components) →
      ((Cut.flattenAll g components).filterMap Entry.leaf?).map .ok =
        g.ends (Cut.routesAll components))
    {poses : List (Pose α)}
    (h : ∀ e, .refusal e ∉ poses.flatMap fun pose =>
      match f.descend ⟨unit, pose⟩ with
      | .error e => [.refusal e]
      | .ok child => Cut.flattenAll child components) :
    ((poses.flatMap fun pose =>
      match f.descend ⟨unit, pose⟩ with
      | .error e => [.refusal e]
      | .ok child => Cut.flattenAll child components).filterMap Entry.leaf?).map .ok =
      f.ends (poses.flatMap fun pose =>
        (Cut.routesAll components).map fun r => (⟨unit, pose⟩ :: r.1, r.2)) := by
  induction poses with
  | nil => rfl
  | cons pose rest hrest =>
    simp only [List.flatMap_cons] at h ⊢
    rw [List.filterMap_append, List.map_append,
      hrest fun e he => h e (List.mem_append_right _ he), Frame.ends_append]
    congr 1
    have hpose := fun e he => h e (List.mem_append_left _ he)
    cases hd : f.descend ⟨unit, pose⟩ with
    | error e => simp [hd] at hpose
    | ok child =>
      simp only [hd] at hpose
      rw [Frame.ends_leg hd, ← ih child hpose]

mutual
/-- Where nothing is refused, each leaf is called once for each of its routes, in its frame
there. -/
theorem Cut.leaves_flatten {f : Frame α} {cut : Cut α} (h : ∀ e, .refusal e ∉ cut.flatten f) :
    ((cut.flatten f).filterMap Entry.leaf?).map .ok = f.ends cut.routes := by
  rw [Cut.flatten.eq_def] at h ⊢
  rw [List.filterMap_append, Entry.filterMap_leaf?_remark, List.nil_append]
  have hnode := fun e he => h e (List.mem_append_right _ he)
  match cut with
  | .group poses components unit _ =>
    have hall := fun g => @Cut.leaves_flattenAll g components
    rw [Cut.routes]
    dsimp only at hnode ⊢
    cases hu : f.inUnit unit with
    | error e => simp [hu] at hnode
    | ok base =>
      simp only [hu] at hnode
      exact leaves_poses hall hnode
  | .trace path depth _ _ =>
    dsimp only at hnode ⊢
    cases hp : path.check with
    | error e => simp [hp] at hnode
    | ok _ => rfl
  | .hole diameter depth _ => rfl
  | .pocket p _ => rfl
  | .pause _ => rfl
termination_by structural cut

theorem Cut.leaves_flattenAll {f : Frame α} {cuts : List (Cut α)}
    (h : ∀ e, .refusal e ∉ Cut.flattenAll f cuts) :
    ((Cut.flattenAll f cuts).filterMap Entry.leaf?).map .ok = f.ends (Cut.routesAll cuts) := by
  match cuts with
  | [] => rfl
  | cut :: rest =>
    rw [Cut.flattenAll] at h ⊢
    rw [List.filterMap_append, List.map_append,
      Cut.leaves_flatten fun e he => h e (List.mem_append_left _ he),
      Cut.leaves_flattenAll fun e he => h e (List.mem_append_right _ he), Cut.routesAll,
      Frame.ends_append]
termination_by structural cuts
end

end
end Toolpath
