/-! Splitting a text at a mark. -/
namespace Toolpath.Text

/-- What stands before and after the first `mark`. -/
def splitFirst (mark : Char) : List Char → Option (List Char × List Char)
  | [] => none
  | c :: r => if c = mark then some ([], r) else (splitFirst mark r).map fun (a, b) => (c :: a, b)

/-- What stands before and after the last `mark`. -/
def splitLast (mark : Char) : List Char → Option (List Char × List Char)
  | [] => none
  | c :: r => match splitLast mark r with
    | some (a, b) => some (c :: a, b)
    | none => if c = mark then some ([], r) else none

/-- The pieces between the marks, one more than there are marks. -/
def splitAll (mark : Char) : List Char → List (List Char)
  | [] => [[]]
  | c :: r => match splitAll mark r with
    | [] => [[c]]
    | p :: ps => if c = mark then [] :: p :: ps else (c :: p) :: ps

theorem eq_of_splitFirst {mark : Char} {s a b : List Char} (h : splitFirst mark s = some (a, b)) :
    s = a ++ mark :: b ∧ mark ∉ a := by
  induction s generalizing a b with
  | nil => simp [splitFirst] at h
  | cons c r ih =>
    unfold splitFirst at h
    split at h
    · next hc => simp_all
    · next hc =>
      obtain ⟨⟨x, y⟩, hr, hxy⟩ := Option.map_eq_some_iff.1 h
      obtain ⟨rfl, rfl⟩ := Prod.mk.inj hxy
      obtain ⟨rfl, hm⟩ := ih hr
      exact ⟨rfl, by simp [hm, Ne.symm hc]⟩

theorem splitFirst_eq_none {mark : Char} {s : List Char} :
    splitFirst mark s = none ↔ mark ∉ s := by
  induction s with
  | nil => simp [splitFirst]
  | cons c r ih =>
    unfold splitFirst
    split
    · next hc => simp [hc]
    · next hc => simp [ih, Ne.symm hc]

theorem splitLast_eq_none {mark : Char} {s : List Char} :
    splitLast mark s = none ↔ mark ∉ s := by
  induction s with
  | nil => simp [splitLast]
  | cons c r ih =>
    unfold splitLast
    cases hr : splitLast mark r with
    | none =>
      have := ih.1 hr
      by_cases hc : c = mark
      · simp [hc]
      · simp [hc, this, Ne.symm hc]
    | some p =>
      have : ¬ mark ∉ r := fun h => by simp [ih.2 h] at hr
      simp_all

theorem eq_of_splitLast {mark : Char} {s a b : List Char} (h : splitLast mark s = some (a, b)) :
    s = a ++ mark :: b ∧ mark ∉ b := by
  induction s generalizing a b with
  | nil => simp [splitLast] at h
  | cons c r ih =>
    unfold splitLast at h
    cases hr : splitLast mark r with
    | none =>
      have hm := splitLast_eq_none.1 hr
      by_cases hc : c = mark
      · simp only [hr, hc, if_true, Option.some.injEq, Prod.mk.injEq] at h
        obtain ⟨rfl, rfl⟩ := h
        exact ⟨by simp [hc], hm⟩
      · simp [hr, hc] at h
    | some p =>
      obtain ⟨x, y⟩ := p
      simp only [hr, Option.some.injEq, Prod.mk.injEq] at h
      obtain ⟨rfl, rfl⟩ := h
      obtain ⟨rfl, hm⟩ := ih hr
      exact ⟨rfl, hm⟩

end Toolpath.Text
