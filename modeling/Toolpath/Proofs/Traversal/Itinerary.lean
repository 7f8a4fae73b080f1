import Toolpath.Traversal.Basic

/-! The calls that a traversal makes, listed before any of them is made. A traversal by any backend
makes the calls of the list one by one. -/
namespace Toolpath

/-- What a backend is handed at a node, with the frame that the node stands in. -/
inductive Call (α : Type) where
  | comment (f : Frame α) (text : String)
  | trace (f : Frame α) (p : Path α)
  | hole (f : Frame α) (diameter : α)
  | pocket (f : Frame α) (p : Pocket α)
  | pause (f : Frame α)

namespace Call
variable {α : Type}

def frame : Call α → Frame α
  | comment f _ => f
  | trace f _ => f
  | hole f _ => f
  | pocket f _ => f
  | pause f => f

def isComment : Call α → Bool
  | comment _ _ => true
  | _ => false

end Call

/-- Calls in order, and the error that the traversal itself ends with after them, if any. -/
structure Itinerary (α : Type) where
  calls : List (Call α) := []
  stop : Option (CarveError α) := none

namespace Itinerary
variable {α : Type}

def stopped (e : CarveError α) : Itinerary α := { stop := some e }

def single (c : Call α) : Itinerary α := { calls := [c] }

def remark (f : Frame α) : Option String → Itinerary α
  | some text => single (.comment f text)
  | none => {}

/-- The second itinerary follows unless the first one is stopped. -/
def append (a b : Itinerary α) : Itinerary α :=
  match a.stop with
  | none => ⟨a.calls ++ b.calls, b.stop⟩
  | some _ => a

/-- One itinerary after another. -/
def join : List (Itinerary α) → Itinerary α
  | [] => {}
  | a :: rest => a.append (join rest)

theorem append_of_none {a : Itinerary α} (h : a.stop = none) (b : Itinerary α) :
    a.append b = ⟨a.calls ++ b.calls, b.stop⟩ := by
  simp only [append, h]

theorem append_of_some {a : Itinerary α} {e : CarveError α} (h : a.stop = some e)
    (b : Itinerary α) : a.append b = a := by
  simp only [append, h]

theorem stop_append_eq_none {a b : Itinerary α} :
    (a.append b).stop = none ↔ a.stop = none ∧ b.stop = none := by
  cases hs : a.stop with
  | none => simp [append_of_none hs]
  | some e => simp [append_of_some hs, hs]

theorem mem_calls_append {a b : Itinerary α} {c : Call α} (h : c ∈ (a.append b).calls) :
    c ∈ a.calls ∨ c ∈ b.calls := by
  cases hs : a.stop with
  | none =>
    rw [append_of_none hs] at h
    exact List.mem_append.mp h
  | some e =>
    rw [append_of_some hs] at h
    exact Or.inl h

theorem mem_calls_join {l : List (Itinerary α)} {c : Call α} (h : c ∈ (join l).calls) :
    ∃ a ∈ l, c ∈ a.calls := by
  induction l with
  | nil => simp [join] at h
  | cons a rest ih =>
    rcases mem_calls_append h with h | h
    · exact ⟨a, by simp, h⟩
    · obtain ⟨b, hb, hc⟩ := ih h
      exact ⟨b, by simp [hb], hc⟩

end Itinerary

section
variable {α : Type} [Scalar α]

mutual
/-- The calls at a node and all below it: its comment, then the leaf, or the components of a group
once for each of its poses. -/
def Cut.itinerary (f : Frame α) (cut : Cut α) : Itinerary α :=
  (Itinerary.remark f cut.comment).append <|
    match cut with
    | .group poses components unit _ =>
      match f.inUnit unit with
      | .error e => .stopped (.measure e)
      | .ok base => .join <| poses.map fun pose =>
        match base.enter pose.toPlacement with
        | .error e => .stopped e
        | .ok child => Cut.itineraryAll child components
    | .trace path depth _ _ =>
      match path.check with
      | .error e => .stopped e
      | .ok _ => .single (.trace (f.sink depth) path)
    | .hole diameter depth _ => .single (.hole (f.sink depth) diameter)
    | .pocket p _ => .single (.pocket f p)
    | .pause _ => .single (.pause f)
termination_by structural cut

/-- The calls of nodes in order, all in one frame. -/
def Cut.itineraryAll (f : Frame α) (cuts : List (Cut α)) : Itinerary α :=
  match cuts with
  | [] => {}
  | cut :: rest => (cut.itinerary f).append (Cut.itineraryAll f rest)
termination_by structural cuts
end

/-- The calls of the cuts of a job. -/
def Job.itinerary (job : Job α) (cuts : List (Cut α)) : Itinerary α :=
  Cut.itineraryAll (.root job) cuts

end

section
variable {σ ε β γ : Type}

theorem action_ext {x y : Action σ ε β} (h : ∀ s, x.run.run s = y.run.run s) :
    x = y := by
  funext s
  exact h s

theorem run_bind_of_ok {x : Action σ ε β} {s s' : σ} {a : β}
    (h : x.run.run s = (.ok a, s')) (k : β → Action σ ε γ) :
    (x >>= k).run.run s = (k a).run.run s' := by
  rw [ExceptT.run_bind, StateT.run_bind, h]
  rfl

theorem run_bind_of_error {x : Action σ ε β} {s s' : σ} {e : ε}
    (h : x.run.run s = (.error e, s')) (k : β → Action σ ε γ) :
    (x >>= k).run.run s = (.error e, s') := by
  rw [ExceptT.run_bind, StateT.run_bind, h]
  rfl

end

namespace Backend
variable {α σ ε : Type}

/-- Makes one call. -/
def make (b : Backend α σ ε) : Call α → Action σ ε Unit
  | .comment f text => b.comment f text
  | .trace f p => b.trace f p
  | .hole f diameter => b.hole f diameter
  | .pocket f p => b.pocket f p
  | .pause f => b.pause f

/-- Makes the calls of an itinerary up to the first that fails, then reports its own error. -/
def follow (b : Backend α σ ε) (it : Itinerary α) : Action σ ε Unit := do
  it.calls.forM b.make
  match it.stop with
  | none => pure ()
  | some e => throw (b.refuse e)

@[simp] theorem lift_ok {β : Type} (b : Backend α σ ε) (x : β) : b.lift (.ok x) = pure x := rfl

@[simp] theorem lift_error {β : Type} (b : Backend α σ ε) (e : CarveError α) :
    (b.lift (.error e) : Action σ ε β) = throw (b.refuse e) := rfl

@[simp] theorem follow_empty (b : Backend α σ ε) : b.follow {} = pure () := by
  simp [follow]

@[simp] theorem follow_single (b : Backend α σ ε) (c : Call α) :
    b.follow (.single c) = b.make c := by
  simp [follow, Itinerary.single]

@[simp] theorem follow_stopped (b : Backend α σ ε) (e : CarveError α) :
    b.follow (.stopped e) = throw (b.refuse e) := by
  simp [follow, Itinerary.stopped]

/-- Nothing but the calls is left of an itinerary that is not stopped. -/
theorem follow_of_stop_eq_none (b : Backend α σ ε) {it : Itinerary α} (h : it.stop = none) :
    b.follow it = it.calls.forM b.make := by
  rw [follow, h, bind_pure_unit]

@[simp] theorem throw_bind {β γ : Type} (e : ε) (k : β → Action σ ε γ) :
    (throw e >>= k) = throw e := rfl

theorem follow_append (b : Backend α σ ε) (x y : Itinerary α) :
    b.follow (x.append y) = (b.follow x >>= fun _ => b.follow y) := by
  cases hs : x.stop with
  | none => simp [follow, Itinerary.append_of_none hs, hs]
  | some e => simp [follow, Itinerary.append_of_some hs, hs]

theorem follow_join (b : Backend α σ ε) (l : List (Itinerary α)) :
    b.follow (.join l) = l.forM b.follow := by
  induction l with
  | nil => simp [Itinerary.join]
  | cons x rest ih => simp [Itinerary.join, follow_append, ih]

theorem follow_remark_append (b : Backend α σ ε) (f : Frame α) (comment : Option String)
    (it : Itinerary α) :
    b.follow ((Itinerary.remark f comment).append it) =
      match comment with
      | some text => b.comment f text >>= fun _ => b.follow it
      | none => b.follow it := by
  cases comment with
  | none => rfl
  | some text => rw [Itinerary.remark, follow_append, follow_single]; rfl

variable [Scalar α]

/-- The part of a group below its comment, given that the traversal of its components is known. -/
private theorem group_eq_follow (b : Backend α σ ε) (f : Frame α) (poses : List (Pose α))
    (components : List (Cut α)) (unit : Option Amount)
    (ih : ∀ g, b.visitAll g components = b.follow (Cut.itineraryAll g components)) :
    (do
      let base ← b.lift (CarveError.ofMeasure (f.inUnit unit))
      poses.forM fun pose => do
        b.visitAll (← b.lift (base.enter pose.toPlacement)) components) =
      b.follow (match f.inUnit unit with
        | .error e => .stopped (.measure e)
        | .ok base => .join <| poses.map fun pose =>
          match base.enter pose.toPlacement with
          | .error e => .stopped e
          | .ok child => Cut.itineraryAll child components) := by
  cases f.inUnit unit with
  | error e => simp [CarveError.ofMeasure]
  | ok base =>
    have hpose : ∀ pose : Pose α,
        (do b.visitAll (← b.lift (base.enter pose.toPlacement)) components) =
          b.follow (match base.enter pose.toPlacement with
            | .error e => .stopped e
            | .ok child => Cut.itineraryAll child components) := by
      intro pose
      cases base.enter pose.toPlacement with
      | error e => simp
      | ok child => simp [ih]
    simp only [CarveError.ofMeasure, lift_ok, pure_bind, follow_join, List.forM_eq_forM,
      List.forM_map, hpose]

mutual
/-- A backend visits a node by making the calls of its itinerary. -/
theorem visit_eq_follow (b : Backend α σ ε) (f : Frame α) (cut : Cut α) :
    b.visit f cut = b.follow (cut.itinerary f) := by
  match cut with
  | .group poses components unit comment =>
    have hgroup := group_eq_follow b f poses components unit
      fun g => visitAll_eq_follow b g components
    rw [visit.eq_def, Cut.itinerary.eq_def, follow_remark_append]
    cases comment with
    | none => exact hgroup
    | some text => exact congrArg (fun rest => b.comment f text >>= fun _ => rest) hgroup
  | .trace path depth _ comment =>
    rw [visit.eq_def, Cut.itinerary.eq_def, follow_remark_append]
    cases hc : path.check <;> cases comment <;> simp [Cut.comment, hc, make]
  | .hole diameter depth comment =>
    rw [visit.eq_def, Cut.itinerary.eq_def, follow_remark_append]
    cases comment <;> simp [Cut.comment, make]
  | .pocket p comment =>
    rw [visit.eq_def, Cut.itinerary.eq_def, follow_remark_append]
    cases comment <;> simp [Cut.comment, make]
  | .pause comment =>
    rw [visit.eq_def, Cut.itinerary.eq_def, follow_remark_append]
    cases comment <;> simp [Cut.comment, make]
termination_by structural cut

theorem visitAll_eq_follow (b : Backend α σ ε) (f : Frame α) (cuts : List (Cut α)) :
    b.visitAll f cuts = b.follow (Cut.itineraryAll f cuts) := by
  match cuts with
  | [] => simp [visitAll, Cut.itineraryAll]
  | cut :: rest =>
    rw [visitAll, Cut.itineraryAll, follow_append, visit_eq_follow b f cut,
      visitAll_eq_follow b f rest]
termination_by structural cuts
end

theorem visitAll_congr (b : Backend α σ ε) {f : Frame α} {x y : Cut α}
    (h : b.visit f x = b.visit f y) (before after : List (Cut α)) :
    b.visitAll f (before ++ x :: after) = b.visitAll f (before ++ y :: after) := by
  induction before with
  | nil => rw [List.nil_append, List.nil_append, visitAll, visitAll, h]
  | cons cut rest ih => rw [List.cons_append, List.cons_append, visitAll, visitAll, ih]

end Backend
end Toolpath
