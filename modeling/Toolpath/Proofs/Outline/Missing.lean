import Toolpath.Proofs.Outline.Reference

/-! The check of a path finds the first look-up of a vertex that is missing, the segments in order
and in each of them the ends before the center. -/
namespace Toolpath

/-- A vertex that a segment needs, for one of its ends or for the center of an arc. -/
structure Lookup where
  segment : Nat
  vertex : Nat
  isCenter : Bool
  deriving Repr, DecidableEq

/-- What is reported if the vertex is missing. -/
def Lookup.error {α : Type} (r : Lookup) : CarveError α :=
  if r.isCenter then .missingCenter r.segment r.vertex else .missingVertex r.segment r.vertex

/-- The vertices that the segment with an index needs. -/
def Segment.lookups (index : Nat) : Segment → List Lookup
  | .straight start finish => [⟨index, start, false⟩, ⟨index, finish, false⟩]
  | .arc start finish center _ =>
    [⟨index, start, false⟩, ⟨index, finish, false⟩, ⟨index, center, true⟩]

/-- The first look-up that is of none of so many vertices. -/
def firstMissing? (count : Nat) (l : List Lookup) : Option Lookup :=
  l.find? fun r => count ≤ r.vertex

theorem firstMissing?_cons (count : Nat) (r : Lookup) (l : List Lookup) :
    firstMissing? count (r :: l) =
      if count ≤ r.vertex then some r else firstMissing? count l := by
  by_cases h : count ≤ r.vertex
  · rw [if_pos h]
    exact List.find?_cons_of_pos (decide_eq_true h)
  · rw [if_neg h]
    exact List.find?_cons_of_neg (by simpa using h)

theorem firstMissing?_append (count : Nat) (a b : List Lookup) :
    firstMissing? count (a ++ b) = (firstMissing? count a).or (firstMissing? count b) :=
  List.find?_append

theorem firstMissing?_eq_some {count : Nat} {l : List Lookup} {r : Lookup} :
    firstMissing? count l = some r ↔ count ≤ r.vertex ∧ ∃ before after,
      l = before ++ r :: after ∧ ∀ q ∈ before, q.vertex < count := by
  simp [firstMissing?, List.find?_eq_some_iff_append]

namespace Path
variable {α : Type}

def lookups (p : Path α) : List Lookup :=
  p.segments.zipIdx.flatMap fun x => x.1.lookups x.2

/-- All segments refer to vertices of the path. -/
def Refers (p : Path α) : Prop := ∀ s ∈ p.segments, s.Refers p.vertices.length

instance (p : Path α) : Decidable p.Refers :=
  inferInstanceAs (Decidable (∀ s ∈ p.segments, s.Refers p.vertices.length))

/-- The result of a check that finds a missing vertex or none. -/
def report (missing : Option Lookup) : Except (CarveError α) Unit :=
  match missing with
  | none => .ok ()
  | some r => .error r.error

theorem report_or (a b : Option Lookup) :
    (report (a.or b) : Except (CarveError α) Unit) = (report a >>= fun _ => report b) := by
  cases a <;> rfl

theorem checkSegment_eq_report (count index : Nat) (s : Segment) :
    checkSegment count index s =
      (report (firstMissing? count (s.lookups index)) : Except (CarveError α) Unit) := by
  cases s with
  | straight start finish =>
    simp only [Segment.lookups, firstMissing?_cons, apply_ite report]
    rfl
  | arc start finish center sense =>
    simp only [Segment.lookups, firstMissing?_cons, apply_ite report]
    rfl

theorem checkSegments_eq_report (count index : Nat) (l : List Segment) :
    checkSegments count index l = (report (firstMissing? count
      ((l.zipIdx index).flatMap fun x => x.1.lookups x.2)) : Except (CarveError α) Unit) := by
  induction l generalizing index with
  | nil => rfl
  | cons s rest ih =>
    rw [checkSegments, ih, checkSegment_eq_report, ← report_or, ← firstMissing?_append]
    rfl

theorem check_eq_report (p : Path α) :
    p.check = report (firstMissing? p.vertices.length p.lookups) :=
  checkSegments_eq_report _ _ _

/-- A look-up is of a vertex that is missing, and those before it are not. -/
structure FirstMissing (p : Path α) (r : Lookup) : Prop where
  missing : p.vertices.length ≤ r.vertex
  first : ∃ before after, p.lookups = before ++ r :: after ∧
    ∀ q ∈ before, q.vertex < p.vertices.length

/-- A path that does not pass its check is told its first missing vertex. -/
theorem check_eq_error {p : Path α} {e : CarveError α} :
    p.check = .error e ↔ ∃ r, p.FirstMissing r ∧ r.error = e := by
  rw [check_eq_report]
  cases h : firstMissing? p.vertices.length p.lookups with
  | none =>
    refine ⟨nofun, fun ⟨r, hr, _⟩ => ?_⟩
    cases h.symm.trans (firstMissing?_eq_some.mpr ⟨hr.missing, hr.first⟩)
  | some r =>
    obtain ⟨hmissing, hfirst⟩ := firstMissing?_eq_some.mp h
    constructor
    · intro he
      exact ⟨r, ⟨hmissing, hfirst⟩, Except.error.inj he⟩
    · rintro ⟨q, hq, rfl⟩
      obtain rfl := Option.some.inj
        (h.symm.trans (firstMissing?_eq_some.mpr ⟨hq.missing, hq.first⟩))
      rfl

end Path
end Toolpath
