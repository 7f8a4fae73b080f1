import Toolpath.Proofs.Cut.Nested
import Toolpath.Proofs.Form.Cut

/-!
How deep the values of cut files are nested. A group costs two levels, an object and the array of its
components.
-/
namespace Toolpath

namespace Value

theorem depthMembers_append (l r : List (String × Value)) :
    depthMembers (l ++ r) = max (depthMembers l) (depthMembers r) := by
  induction l with
  | nil => simp [depthMembers]
  | cons e l ih => simp [depthMembers, ih, max_assoc]

theorem depthElements_map {ι : Type} {l : List ι} {enc : ι → Value} {n : Nat}
    (h : ∀ a ∈ l, (enc a).depth = n) :
    depthElements (l.map enc) = if l.isEmpty then 0 else n := by
  induction l with
  | nil => rfl
  | cons a l ih =>
    obtain ⟨ha, hl⟩ := List.forall_mem_cons.mp h
    rw [List.map_cons, depthElements, ha, ih hl]
    cases l <;> simp

end Value

namespace Cut

section
variable {α : Type}

mutual
/-- The most arrays and objects in each other that a cut is written with. -/
def levels : Cut α → Nat
  | .group poses components _ _ => max (if poses.isEmpty then 0 else 1) (levelsAll components) + 2
  | .trace path _ _ _ => if path.vertices.isEmpty && path.segments.isEmpty then 3 else 4
  | _ => 1

def levelsAll : List (Cut α) → Nat
  | [] => 0
  | c :: r => max c.levels (levelsAll r)
end

mutual
/-- Each group costs two levels, and what is in the innermost one at most four. -/
theorem nesting_le_levels (c : Cut α) :
    2 * c.nesting ≤ c.levels ∧ c.levels ≤ 2 * c.nesting + 4 := by
  match c with
  | .group poses components unit comment =>
    have hall := nestingAll_le_levelsAll components
    rw [nesting, levels]
    split_ifs <;> omega
  | .trace path depth side comment =>
    have hzero : (trace path depth side comment).nesting = 0 := rfl
    rw [hzero, levels]
    split_ifs <;> omega
  | .hole .. => exact ⟨Nat.zero_le _, Nat.le_add_left 1 3⟩
  | .pocket .. => exact ⟨Nat.zero_le _, Nat.le_add_left 1 3⟩
  | .pause _ => exact ⟨Nat.zero_le _, Nat.le_add_left 1 3⟩

theorem nestingAll_le_levelsAll (cuts : List (Cut α)) :
    2 * nestingAll cuts ≤ levelsAll cuts ∧ levelsAll cuts ≤ 2 * nestingAll cuts + 4 := by
  match cuts with
  | [] => exact ⟨Nat.le_refl _, Nat.zero_le _⟩
  | c :: rest =>
    have hc := nesting_le_levels c
    have hrest := nestingAll_le_levelsAll rest
    rw [nestingAll, levelsAll]
    omega
end

theorem exists_mem_lt_levels {n : Nat} {cuts : List (Cut α)} (h : n < levelsAll cuts) :
    ∃ c ∈ cuts, n < c.levels := by
  induction cuts with
  | nil => cases h
  | cons d rest ih =>
    rw [levelsAll] at h
    by_cases hd : n < d.levels
    · exact ⟨d, List.mem_cons_self, hd⟩
    · obtain ⟨c, hc, hlt⟩ := ih (by omega)
      exact ⟨c, List.mem_cons_of_mem _ hc, hlt⟩

end
end Cut

namespace Form
open Value

theorem depthMembers_member {ι : Type} (key : String) (o : Option ι) {enc : ι → Value}
    (h : ∀ a, (enc a).depth = 0) : depthMembers (member key (o.map enc)) = 0 := by
  cases o with
  | none => rfl
  | some a => simp [member, depthMembers, h]

theorem depth_ofVec (v : Vec Float) : (ofVec v).depth = 1 := rfl

theorem depth_ofPose (pose : Pose Float) : (ofPose pose).depth = 1 := by
  have hfloat (x : Float) : (Value.float x).depth = 0 := rfl
  cases pose with
  | rows x x1 y y1 z z1 => rfl
  | position p =>
    simp [ofPose, Value.depth, depthMembers, depthMembers_append, depthMembers_member _ _ hfloat]

theorem depth_ofSegment (s : Segment) : (ofSegment s).depth = 1 := by
  cases s with
  | straight start finish => rfl
  | arc start finish center sense => cases sense <;> rfl

theorem depth_ofDepth (d : Depth Float) : (ofDepth d).depth = 0 := by cases d <;> rfl

theorem depth_ofSide (side : Side) : (ofSide side).depth = 0 := by cases side <;> rfl

theorem depth_ofPath (p : Path Float) :
    (ofPath p).depth = if p.vertices.isEmpty && p.segments.isEmpty then 2 else 3 := by
  have hvertices := depthElements_map fun v (_ : v ∈ p.vertices) => depth_ofVec v
  have hsegments := depthElements_map fun s (_ : s ∈ p.segments) => depth_ofSegment s
  rw [ofPath]
  simp only [Value.depth, depthMembers, hvertices, hsegments]
  cases p.vertices.isEmpty <;> cases p.segments.isEmpty <;> rfl

theorem depthMembers_ofComment (comment : Option String) :
    depthMembers (ofComment comment) = 0 := depthMembers_member _ comment fun _ => rfl

mutual
theorem depth_ofCut (c : Cut Float) : (ofCut c).depth = c.levels := by
  match c with
  | .group poses components unit comment =>
    have hposes := depthElements_map fun p (_ : p ∈ poses) => depth_ofPose p
    have hcomponents := depthElements_ofCuts components
    have hunit : depthMembers (member "unit" (unit.map fun a => .str a.toString)) = 0 :=
      depthMembers_member _ unit fun _ => rfl
    simp only [ofCut, Value.depth, depthMembers_append, depthMembers, hposes, hcomponents, hunit,
      depthMembers_ofComment, Cut.levels]
    split_ifs <;> omega
  | .trace path depth side comment =>
    simp only [ofCut, Value.depth, depthMembers_append, depthMembers, depth_ofPath, depth_ofDepth,
      depth_ofSide, depthMembers_ofComment, Cut.levels]
    split_ifs <;> rfl
  | .hole diameter depth comment =>
    simp only [ofCut, Value.depth, depthMembers_append, depthMembers, depth_ofDepth,
      depthMembers_ofComment, Cut.levels]
    rfl
  | .pocket p comment =>
    simp only [ofCut, Value.depth, depthMembers_append, depthMembers, depth_ofDepth,
      depthMembers_ofComment, Cut.levels]
    rfl
  | .pause comment =>
    simp only [ofCut, Value.depth, depthMembers_append, depthMembers, depthMembers_ofComment,
      Cut.levels]
    rfl

theorem depthElements_ofCuts (cuts : List (Cut Float)) :
    depthElements (ofCuts cuts) = Cut.levelsAll cuts := by
  match cuts with
  | [] => rfl
  | c :: rest => rw [ofCuts, depthElements, Cut.levelsAll, depth_ofCut c, depthElements_ofCuts rest]
end

end Form

/-- A file adds its own object and the array of its cuts. -/
theorem CutFile.depth_toValue (f : CutFile) : f.toValue.depth = Cut.levelsAll f.cuts + 2 := by
  have hname : Value.depthMembers (Form.member "name" (f.name.map .str)) = 0 :=
    Form.depthMembers_member _ f.name fun _ => rfl
  simp [toValue, Value.depth, Value.depthMembers_append, Value.depthMembers, hname,
    Form.depthElements_ofCuts]

end Toolpath
