import Mathlib.Data.List.Basic
import Toolpath.Text.Blank
import Toolpath.Text.Split

/-! Texts put together from pieces come apart into the same pieces. -/
namespace Toolpath.Text
variable {mark : Char}

/-- A text without white space at its ends stays as it is. -/
theorem trim_eq_self {s : List Char} (hfirst : ∀ c ∈ s.head?, isBlank c = false)
    (hlast : ∀ c ∈ s.getLast?, isBlank c = false) : trim s = s := by
  have hdrop : ∀ t : List Char, (∀ c ∈ t.head?, isBlank c = false) → t.dropWhile isBlank = t := by
    intro t ht
    cases t with
    | nil => rfl
    | cons c r => exact List.dropWhile_cons_of_neg (by simp [ht c rfl])
  have hend : (s.reverse.dropWhile isBlank).reverse = s := by
    rw [hdrop s.reverse (by simpa using hlast), List.reverse_reverse]
  rw [trim, trimStart, trimEnd, hdrop s hfirst, hend]

theorem trim_of_forall {s : List Char} (h : ∀ c ∈ s, isBlank c = false) : trim s = s :=
  trim_eq_self (fun c hc => h c (List.mem_of_mem_head? hc))
    (fun c hc => h c (List.mem_of_mem_getLast? hc))

theorem splitFirst_append {a b : List Char} (h : mark ∉ a) :
    splitFirst mark (a ++ mark :: b) = some (a, b) := by
  induction a with
  | nil => rw [List.nil_append, splitFirst, if_pos rfl]
  | cons c r ih =>
    obtain ⟨hc, hr⟩ := not_or.mp fun h' => h (List.mem_cons.mpr h')
    rw [List.cons_append, splitFirst, if_neg (Ne.symm hc), ih hr, Option.map_some]

theorem splitLast_append {a b : List Char} (h : mark ∉ b) :
    splitLast mark (a ++ mark :: b) = some (a, b) := by
  induction a with
  | nil => rw [List.nil_append, splitLast, splitLast_eq_none.mpr h, if_pos rfl]
  | cons c r ih => rw [List.cons_append, splitLast, ih]

theorem splitAll_ne_nil (s : List Char) : splitAll mark s ≠ [] := by
  cases s with
  | nil => exact List.cons_ne_nil _ _
  | cons c r =>
    rw [splitAll]
    cases splitAll mark r with
    | nil => exact List.cons_ne_nil _ _
    | cons p ps => dsimp only; split <;> exact List.cons_ne_nil _ _

theorem exists_splitAll_eq_cons (mark : Char) (s : List Char) :
    ∃ p ps, splitAll mark s = p :: ps :=
  List.exists_cons_of_ne_nil (splitAll_ne_nil s)

theorem splitAll_of_not_mem {s : List Char} (h : mark ∉ s) : splitAll mark s = [s] := by
  induction s with
  | nil => rfl
  | cons c r ih =>
    obtain ⟨hc, hr⟩ := not_or.mp fun h' => h (List.mem_cons.mpr h')
    simp only [splitAll, ih hr, if_neg (Ne.symm hc)]

theorem splitAll_append {s r : List Char} (h : mark ∉ s) :
    splitAll mark (s ++ mark :: r) = s :: splitAll mark r := by
  induction s with
  | nil =>
    obtain ⟨p, ps, hr⟩ := exists_splitAll_eq_cons mark r
    simp only [List.nil_append, splitAll, hr, if_true]
  | cons c s ih =>
    obtain ⟨hc, hs⟩ := not_or.mp fun h' => h (List.mem_cons.mpr h')
    simp only [List.cons_append, splitAll, ih hs, if_neg (Ne.symm hc)]

theorem splitAll_append_splitAll (s r : List Char) :
    splitAll mark (s ++ mark :: r) = splitAll mark s ++ splitAll mark r := by
  induction s with
  | nil => exact splitAll_append List.not_mem_nil
  | cons c s ih =>
    obtain ⟨p, ps, hs⟩ := exists_splitAll_eq_cons mark s
    rw [List.cons_append, splitAll, splitAll, ih, hs, List.cons_append]
    dsimp only
    split <;> rfl

/-- A piece holds no mark and nothing that the text does not hold. -/
theorem of_mem_splitAll {s p : List Char} (h : p ∈ splitAll mark s) : mark ∉ p ∧ p ⊆ s := by
  induction s generalizing p with
  | nil =>
    obtain rfl := List.mem_singleton.mp h
    exact ⟨List.not_mem_nil, List.nil_subset _⟩
  | cons c s ih =>
    obtain ⟨q, qs, hs⟩ := exists_splitAll_eq_cons mark s
    obtain ⟨hq, hqs⟩ := List.forall_mem_cons.mp fun p hp => ih (p := p) (hs ▸ hp)
    have hskip : ∀ p ∈ q :: qs, mark ∉ p ∧ p ⊆ c :: s := fun p hp =>
      (ih (hs ▸ hp)).imp_right (List.subset_cons_of_subset c)
    rw [splitAll, hs] at h
    dsimp only at h
    split at h
    · rcases List.mem_cons.mp h with rfl | h
      · exact ⟨List.not_mem_nil, List.nil_subset _⟩
      · exact hskip p h
    · next hc =>
      rcases List.mem_cons.mp h with rfl | h
      · refine ⟨fun hmem => ?_, List.cons_subset_cons c hq.2⟩
        exact (List.mem_cons.mp hmem).elim (Ne.symm hc) hq.1
      · exact hskip p (List.mem_cons_of_mem q h)

/-- A text without marks behind another belongs to its last piece. -/
theorem exists_splitAll_append {r : List Char} (hr : mark ∉ r) (s : List Char) :
    ∃ front p, splitAll mark s = front ++ [p] ∧ splitAll mark (s ++ r) = front ++ [p ++ r] := by
  induction s with
  | nil => exact ⟨[], [], rfl, splitAll_of_not_mem hr⟩
  | cons c s ih =>
    obtain ⟨front, p, hs, hsr⟩ := ih
    rw [List.cons_append, splitAll, splitAll, hs, hsr]
    by_cases hc : c = mark
    · refine ⟨[] :: front, p, ?_, ?_⟩ <;> cases front <;> simp [hc]
    · cases front with
      | nil => exact ⟨[], c :: p, by simp [hc], by simp [hc]⟩
      | cons q front => exact ⟨(c :: q) :: front, p, by simp [hc], by simp [hc]⟩

theorem head?_splitAll_cons {c : Char} (hc : c ≠ mark) (s : List Char) :
    (splitAll mark (c :: s)).head? ≠ some [] := by
  obtain ⟨p, ps, hs⟩ := exists_splitAll_eq_cons mark s
  simp [splitAll, hs, hc]

theorem intercalate_splitAll (s : List Char) : [mark].intercalate (splitAll mark s) = s := by
  induction s with
  | nil => rfl
  | cons c s ih =>
    obtain ⟨q, qs, hs⟩ := exists_splitAll_eq_cons mark s
    rw [hs] at ih
    rw [splitAll, hs]
    dsimp only
    split
    · next hc =>
      rw [List.intercalate_cons_cons, ih, hc]
      rfl
    · cases qs with
      | nil =>
        rw [List.intercalate_singleton] at ih ⊢
        rw [ih]
      | cons q' qs =>
        rw [List.intercalate_cons_cons] at ih ⊢
        rw [← ih, List.cons_append, List.cons_append]

theorem intercalate_concat {front : List (List Char)} (hfront : front ≠ []) (p : List Char) :
    [mark].intercalate (front ++ [p]) = [mark].intercalate front ++ mark :: p := by
  induction front with
  | nil => exact absurd rfl hfront
  | cons q front ih =>
    cases front with
    | nil => simp [List.intercalate_cons_cons, List.intercalate_singleton]
    | cons q' front =>
      have h := ih (List.cons_ne_nil q' front)
      simp only [List.cons_append] at h ⊢
      rw [List.intercalate_cons_cons, List.intercalate_cons_cons, h]
      simp

/-- The last piece is the whole text, or what stands behind a mark. -/
theorem eq_or_exists_of_getLast?_splitAll {s p : List Char}
    (h : (splitAll mark s).getLast? = some p) : s = p ∨ ∃ a, s = a ++ mark :: p := by
  obtain ⟨front, hfront⟩ := List.getLast?_eq_some_iff.mp h
  have hs : [mark].intercalate (splitAll mark s) = s := intercalate_splitAll s
  by_cases hnil : front = []
  · rw [hfront, hnil, List.nil_append, List.intercalate_singleton] at hs
    exact .inl hs.symm
  · rw [hfront, intercalate_concat hnil] at hs
    exact .inr ⟨_, hs.symm⟩

theorem splitAll_intercalate {pieces : List (List Char)} (hne : pieces ≠ [])
    (h : ∀ p ∈ pieces, mark ∉ p) : splitAll mark ([mark].intercalate pieces) = pieces := by
  induction pieces with
  | nil => exact absurd rfl hne
  | cons p rest ih =>
    obtain ⟨hp, hrest⟩ := List.forall_mem_cons.mp h
    cases rest with
    | nil => rw [List.intercalate_singleton, splitAll_of_not_mem hp]
    | cons q rest =>
      rw [List.intercalate_cons_cons, List.append_assoc, List.singleton_append,
        splitAll_append hp, ih (List.cons_ne_nil _ _) hrest]

theorem mem_intercalate {pieces : List (List Char)} {c : Char}
    (h : c ∈ [mark].intercalate pieces) : c = mark ∨ ∃ p ∈ pieces, c ∈ p := by
  induction pieces with
  | nil => cases h
  | cons p rest ih =>
    cases rest with
    | nil =>
      rw [List.intercalate_singleton] at h
      exact .inr ⟨p, List.mem_cons_self, h⟩
    | cons q rest =>
      rw [List.intercalate_cons_cons, List.append_assoc, List.singleton_append] at h
      rcases List.mem_append.mp h with h | h
      · exact .inr ⟨p, List.mem_cons_self, h⟩
      · rcases List.mem_cons.mp h with h | h
        · exact .inl h
        · exact (ih h).imp_right fun ⟨p', hp', hc⟩ => ⟨p', List.mem_cons_of_mem _ hp', hc⟩

end Toolpath.Text
