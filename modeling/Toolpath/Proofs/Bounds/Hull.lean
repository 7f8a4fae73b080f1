import Toolpath.Bounds
import Toolpath.Proofs.Geometry.Alike
import Toolpath.Proofs.Scalar.Ordered

/-! The smallest box around some points. It does not depend on the order in which they are taken in,
and the box around more points is the union of the boxes around them. -/
namespace Toolpath
open Scalar
variable {α : Type} [Scalar α]

namespace Vec
variable {l : List (Vec α)} {p : Vec α}

theorem isNaN_eq_false :
    p.isNaN = false ↔ isNaN p.x = false ∧ isNaN p.y = false ∧ isNaN p.z = false := by
  simp [Vec.isNaN, and_assoc]

theorem numbers_map (h : ∀ p ∈ l, p.isNaN = false) :
    (∀ a ∈ l.map Vec.x, isNaN a = false) ∧ (∀ a ∈ l.map Vec.y, isNaN a = false) ∧
      ∀ a ∈ l.map Vec.z, isNaN a = false := by
  simp only [List.forall_mem_map]
  exact ⟨fun p hp => (isNaN_eq_false.mp (h p hp)).1, fun p hp => (isNaN_eq_false.mp (h p hp)).2.1,
    fun p hp => (isNaN_eq_false.mp (h p hp)).2.2⟩

end Vec

/-- The first of some numbers in an order, if there are any. -/
inductive IsFirst (before : α → α → Prop) (l : List α) : Option α → Prop
  | none (empty : l = []) : IsFirst before l none
  | some {a : α} (mem : a ∈ l) (first : ∀ v ∈ l, before a v) : IsFirst before l (some a)

section
variable {choose : α → α → α} {before : α → α → Prop} {l m : List α} {o p : Option α} {v : α}

theorem Span.widen_eq_merge (hv : isNaN v = false) (o : Option α) :
    Span.widen choose v o = o.merge choose (some v) := by
  cases o with
  | none => simp [widen, hv]
  | some a => rfl

theorem Chooses.merge_assoc (h : Chooses choose before) (ho : ∀ a ∈ o, isNaN a = false)
    (hp : ∀ a ∈ p, isNaN a = false) (hv : isNaN v = false) :
    (o.merge choose p).merge choose (some v) = o.merge choose (p.merge choose (some v)) := by
  cases o with
  | none => simp
  | some a =>
    cases p with
    | none => simp
    | some b => exact congrArg some (h.assoc (ho a rfl) (hp b rfl) hv)

namespace IsFirst

omit [Scalar α] in
protected theorem mem (h : IsFirst before l o) {a : α} (ha : a ∈ o) : a ∈ l := by
  cases h with
  | none => cases ha
  | some mem first => exact Option.some.inj ha ▸ mem

omit [Scalar α] in
protected theorem first (h : IsFirst before l o) {a : α} (ha : a ∈ o) (hv : v ∈ l) :
    before a v := by
  cases h with
  | none => cases ha
  | some mem first => exact Option.some.inj ha ▸ first v hv

theorem number (h : IsFirst before l o) (hl : ∀ a ∈ l, isNaN a = false) :
    ∀ a ∈ o, isNaN a = false := fun a ha => hl a (h.mem ha)

/-- What comes before the first one comes before them all. -/
theorem forall_mem_iff (h : IsFirst before l o) (hchoose : Chooses choose before) {u : α} :
    (∀ a ∈ o, before u a) ↔ ∀ v ∈ l, before u v := by
  cases h with
  | none empty => simp [empty]
  | @some a mem first =>
    constructor
    · exact fun hu v hv => hchoose.trans (hu a rfl) (first v hv)
    · rintro hu _ ⟨⟩
      exact hu a mem

/-- The number chosen from the first ones of two lists is the first one of both. -/
theorem merge (hchoose : Chooses choose before) (hl : ∀ a ∈ l, isNaN a = false)
    (hm : ∀ a ∈ m, isNaN a = false) (ho : IsFirst before l o) (hp : IsFirst before m p) :
    IsFirst before (l ++ m) (o.merge choose p) := by
  cases ho with
  | none empty =>
    rw [empty, List.nil_append, Option.merge_none_left]
    exact hp
  | @some a mem first =>
    cases hp with
    | none empty =>
      rw [empty, List.append_nil, Option.merge_none_right]
      exact .some mem first
    | @some b mem' first' =>
      rw [Option.merge_some_some]
      rcases hchoose.cases (hl a mem) (hm b mem') with ⟨heq, hab⟩ | ⟨heq, hba⟩
      · rw [heq]
        refine .some (List.mem_append_left _ mem) (List.forall_mem_append.mpr ⟨first, ?_⟩)
        exact fun v hv => hchoose.trans hab (first' v hv)
      · rw [heq]
        refine .some (List.mem_append_right _ mem') (List.forall_mem_append.mpr ⟨?_, first'⟩)
        exact fun v hv => hchoose.trans hba (first v hv)

/-- The first ones of lists with the same members stand at one place. -/
theorem beq (ho : IsFirst before l o) (hp : IsFirst before m p) (hlm : ∀ v, v ∈ l ↔ v ∈ m)
    (hplace : ∀ a b : α, before a b → before b a → (a == b) = true) : (o == p) = true := by
  cases ho with
  | none empty =>
    cases hp with
    | none => rfl
    | some mem' => exact absurd (empty ▸ (hlm _).mpr mem') List.not_mem_nil
  | @some a mem first =>
    cases hp with
    | none empty' => exact absurd (empty' ▸ (hlm a).mp mem) List.not_mem_nil
    | @some b mem' first' =>
      exact hplace a b (first b ((hlm b).mpr mem')) (first' a ((hlm a).mp mem))

end IsFirst
end

namespace Span

/-- The ends of a span are the least and the greatest of some numbers. -/
structure IsHull (s : Span α) (l : List α) : Prop where
  low : IsFirst (· ≤ ·) l s.low
  high : IsFirst (fun a b => b ≤ a) l s.high

def union (s t : Span α) : Span α :=
  ⟨s.low.merge lesser t.low, s.high.merge greater t.high⟩

/-- Whether two spans have the same ends, the two zeros being one number. -/
def same (s t : Span α) : Bool := s.low == t.low && s.high == t.high

variable {s t : Span α} {l m : List α} {v : α}

theorem cover_eq (hv : isNaN v = false) (s : Span α) : s.cover v = s.union ⟨some v, some v⟩ := by
  rw [cover, widen_eq_merge hv, widen_eq_merge hv]
  rfl

theorem isHull_nil : IsHull ({} : Span α) [] := ⟨.none rfl, .none rfl⟩

theorem IsHull.isNonempty (hs : s.IsHull l) : s.isNonempty = true ↔ l ≠ [] := by
  obtain ⟨low, high⟩ := s
  obtain ⟨hlow, hhigh⟩ := hs
  cases hlow with
  | none empty => simp [Span.isNonempty, empty]
  | some mem first =>
    cases hhigh with
    | none empty => simp [Span.isNonempty, empty]
    | some mem' first' => simp [Span.isNonempty, first _ mem', List.ne_nil_of_mem mem]

variable [Ordered α]

theorem IsHull.union (hl : ∀ a ∈ l, isNaN a = false) (hm : ∀ a ∈ m, isNaN a = false)
    (hs : s.IsHull l) (ht : t.IsHull m) : (s.union t).IsHull (l ++ m) :=
  ⟨hs.low.merge .lesser hl hm ht.low, hs.high.merge .greater hl hm ht.high⟩

theorem isHull_singleton (hv : isNaN v = false) : IsHull ⟨some v, some v⟩ [v] := by
  have hself : v ≤ v := Chooses.lesser.refl hv
  constructor <;> exact .some List.mem_cons_self (by simpa using hself)

theorem IsHull.cover (hl : ∀ a ∈ l, isNaN a = false) (hv : isNaN v = false) (hs : s.IsHull l) :
    (s.cover v).IsHull (l ++ [v]) := by
  rw [cover_eq hv]
  exact hs.union hl (List.forall_mem_singleton.mpr hv) (isHull_singleton hv)

/-- A number is taken into the second of two spans or into their union. -/
theorem IsHull.union_cover (hl : ∀ a ∈ l, isNaN a = false) (hm : ∀ a ∈ m, isNaN a = false)
    (hs : s.IsHull l) (ht : t.IsHull m) (hv : isNaN v = false) :
    (s.union t).cover v = s.union (t.cover v) := by
  rw [cover_eq hv, cover_eq hv, Span.union, Span.union]
  exact congrArg₂ Span.mk (Chooses.lesser.merge_assoc (hs.low.number hl) (ht.low.number hm) hv)
    (Chooses.greater.merge_assoc (hs.high.number hl) (ht.high.number hm) hv)

theorem IsHull.same (hs : s.IsHull l) (ht : t.IsHull m) (hlm : ∀ v, v ∈ l ↔ v ∈ m) :
    s.same t = true :=
  Bool.and_eq_true_iff.mpr
    ⟨hs.low.beq ht.low hlm fun _ _ hab hba => Ordered.beq_iff.mpr ⟨hab, hba⟩,
      hs.high.beq ht.high hlm fun _ _ hab hba => Ordered.beq_iff.mpr ⟨hba, hab⟩⟩

end Span

namespace Bounds

/-- A box is the smallest one around some points. -/
structure IsHull (b : Bounds α) (points : List (Vec α)) : Prop where
  x : b.x.IsHull (points.map Vec.x)
  y : b.y.IsHull (points.map Vec.y)
  z : b.z.IsHull (points.map Vec.z)

def union (a b : Bounds α) : Bounds α := ⟨a.x.union b.x, a.y.union b.y, a.z.union b.z⟩

/-- Whether two boxes have the same sides. -/
def same (a b : Bounds α) : Bool := a.x.same b.x && a.y.same b.y && a.z.same b.z

variable {a b : Bounds α} {l m : List (Vec α)} {p : Vec α}

theorem isHull_nil : IsHull ({} : Bounds α) [] :=
  ⟨Span.isHull_nil, Span.isHull_nil, Span.isHull_nil⟩

theorem union_empty (b : Bounds α) : b.union {} = b := by
  simp [union, Span.union]

theorem IsHull.isNonempty (h : b.IsHull l) : b.isNonempty = true ↔ l ≠ [] := by
  simp [Bounds.isNonempty, h.x.isNonempty, h.y.isNonempty, h.z.isNonempty]

variable [Ordered α]

theorem IsHull.cover (hl : ∀ p ∈ l, p.isNaN = false) (hp : p.isNaN = false) (hb : b.IsHull l) :
    (b.cover p).IsHull (l ++ [p]) := by
  obtain ⟨hlx, hly, hlz⟩ := Vec.numbers_map hl
  obtain ⟨hx, hy, hz⟩ := Vec.isNaN_eq_false.mp hp
  constructor <;> rw [List.map_append]
  · exact hb.x.cover hlx hx
  · exact hb.y.cover hly hy
  · exact hb.z.cover hlz hz

/-- Taking in points one after another gives the smallest box around them. -/
theorem isHull_foldl_cover (hl : ∀ p ∈ l, p.isNaN = false) : (l.foldl cover {}).IsHull l := by
  induction l using List.reverseRecOn with
  | nil => exact isHull_nil
  | append_singleton l p ih =>
    obtain ⟨hl, hp⟩ := List.forall_mem_append.mp hl
    rw [List.foldl_append]
    exact (ih hl).cover hl (hp p List.mem_cons_self)

theorem IsHull.same (ha : a.IsHull l) (hb : b.IsHull m) (hlm : ∀ p, p ∈ l ↔ p ∈ m) :
    a.same b = true := by
  have hmap (f : Vec α → α) (v : α) : v ∈ l.map f ↔ v ∈ m.map f := by
    simp only [List.mem_map, hlm]
  rw [Bounds.same, ha.x.same hb.x (hmap _), ha.y.same hb.y (hmap _), ha.z.same hb.z (hmap _)]
  rfl

/-- More points are taken into a box as into a box of their own, and the two are united. -/
theorem foldl_cover_append (hl : ∀ p ∈ l, p.isNaN = false) (hm : ∀ p ∈ m, p.isNaN = false) :
    (l ++ m).foldl cover {} = (l.foldl cover {}).union (m.foldl cover {}) := by
  obtain ⟨hlx, hly, hlz⟩ := Vec.numbers_map hl
  have hbox := isHull_foldl_cover hl
  induction m using List.reverseRecOn with
  | nil => rw [List.append_nil, List.foldl_nil, union_empty]
  | append_singleton m p ih =>
    obtain ⟨hm, hp⟩ := List.forall_mem_append.mp hm
    obtain ⟨hmx, hmy, hmz⟩ := Vec.numbers_map hm
    obtain ⟨hx, hy, hz⟩ := Vec.isNaN_eq_false.mp (hp p List.mem_cons_self)
    have hrest := isHull_foldl_cover hm
    rw [← List.append_assoc, List.foldl_append, ih hm, List.foldl_append]
    exact congr (congrArg₂ Bounds.mk (hbox.x.union_cover hlx hmx hrest.x hx)
      (hbox.y.union_cover hly hmy hrest.y hy)) (hbox.z.union_cover hlz hmz hrest.z hz)

end Bounds
end Toolpath
