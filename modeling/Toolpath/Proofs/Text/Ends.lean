import Mathlib.Data.List.Basic
import Toolpath.Text.Blank

/-!
White space at the ends of a text. Trimming takes off all of it and nothing else, and a mark inside
the text keeps its two ends apart.
-/
namespace Toolpath.Text
variable {mark : Char} {p s : List Char}

theorem trimStart_append (hp : ∀ c ∈ p, isBlank c) (s : List Char) :
    trimStart (p ++ s) = trimStart s :=
  List.dropWhile_append_of_pos hp

theorem trimEnd_append (hp : ∀ c ∈ p, isBlank c) (s : List Char) :
    trimEnd (s ++ p) = trimEnd s := by
  have hrev : ∀ c ∈ p.reverse, isBlank c := fun c hc => hp c (List.mem_reverse.mp hc)
  rw [trimEnd, trimEnd, List.reverse_append, List.dropWhile_append_of_pos hrev]

theorem trimStart_cons_of_not_isBlank (hm : isBlank mark = false) (s : List Char) :
    trimStart (mark :: s) = mark :: s :=
  List.dropWhile_cons_of_neg (by simp [hm])

theorem trim_append_left (hp : ∀ c ∈ p, isBlank c) (s : List Char) : trim (p ++ s) = trim s := by
  rw [trim, trim, trimStart_append hp]

theorem trim_append_right (hp : ∀ c ∈ p, isBlank c) (s : List Char) : trim (s ++ p) = trim s := by
  induction s with
  | nil =>
    have hnil := trimStart_append hp []
    rw [List.append_nil] at hnil
    rw [List.nil_append, trim, hnil]
    rfl
  | cons c r ih =>
    by_cases hc : isBlank c
    · have hblank : ∀ c' ∈ [c], isBlank c' := by simpa using hc
      calc trim (c :: r ++ p) = trim (r ++ p) := trim_append_left hblank (r ++ p)
        _ = trim r := ih
        _ = trim (c :: r) := (trim_append_left hblank r).symm
    · have hc : isBlank c = false := by simpa using hc
      rw [trim, List.cons_append, trimStart_cons_of_not_isBlank hc, ← List.cons_append,
        trimEnd_append hp, trim, trimStart_cons_of_not_isBlank hc]

theorem exists_trimStart (s : List Char) : ∃ p, (∀ c ∈ p, isBlank c) ∧ s = p ++ trimStart s :=
  ⟨s.takeWhile isBlank, List.all_eq_true.mp List.all_takeWhile,
    List.takeWhile_append_dropWhile.symm⟩

theorem exists_trimEnd (s : List Char) : ∃ p, (∀ c ∈ p, isBlank c) ∧ s = trimEnd s ++ p := by
  obtain ⟨p, hp, hs⟩ := exists_trimStart s.reverse
  refine ⟨p.reverse, fun c hc => hp c (List.mem_reverse.mp hc), ?_⟩
  rw [trimEnd, ← List.reverse_append]
  exact List.reverse_eq_iff.mp hs

theorem exists_trim (s : List Char) : ∃ p q, (∀ c ∈ p, isBlank c) ∧ (∀ c ∈ q, isBlank c) ∧
    s = p ++ trim s ++ q := by
  obtain ⟨p, hp, hs⟩ := exists_trimStart s
  obtain ⟨q, hq, ht⟩ := exists_trimEnd (trimStart s)
  refine ⟨p, q, hp, hq, ?_⟩
  rw [List.append_assoc, trim, ← ht]
  exact hs

theorem trim_trimStart (s : List Char) : trim (trimStart s) = trim s := by
  obtain ⟨p, hp, hs⟩ := exists_trimStart s
  rw [← trim_append_left hp, ← hs]

theorem trim_trimEnd (s : List Char) : trim (trimEnd s) = trim s := by
  obtain ⟨p, hp, hs⟩ := exists_trimEnd s
  rw [← trim_append_right hp, ← hs]

theorem trimEnd_trim (s : List Char) : trimEnd (trim s) = trim s := by
  obtain ⟨p, hp, hs⟩ := exists_trimEnd (trimStart s)
  rw [trim, ← trimEnd_append hp, ← hs]

theorem trim_trim (s : List Char) : trim (trim s) = trim s :=
  (trim_trimEnd (trimStart s)).trans (trim_trimStart s)

theorem mem_of_mem_trim {c : Char} (h : c ∈ trim s) : c ∈ s := by
  obtain ⟨p, q, -, -, hs⟩ := exists_trim s
  rw [hs]
  exact List.mem_append_left q (List.mem_append_right p h)

theorem mem_trim {c : Char} (h : c ∈ s) (hc : isBlank c = false) : c ∈ trim s := by
  obtain ⟨p, q, hp, hq, hs⟩ := exists_trim s
  have hnot : ∀ {t : List Char}, (∀ c ∈ t, isBlank c) → c ∉ t := fun ht hmem => by
    simp [ht c hmem] at hc
  rw [hs, List.mem_append, List.mem_append] at h
  rcases h with (h | h) | h
  · exact absurd h (hnot hp)
  · exact h
  · exact absurd h (hnot hq)

theorem trimStart_append_cons (hm : isBlank mark = false) (a b : List Char) :
    trimStart (a ++ mark :: b) = trimStart a ++ mark :: b := by
  have hb := trimStart_cons_of_not_isBlank hm b
  rw [trimStart] at hb
  rw [trimStart, trimStart, List.dropWhile_append, hb]
  cases List.dropWhile isBlank a <;> rfl

theorem trimEnd_append_cons (hm : isBlank mark = false) (a b : List Char) :
    trimEnd (a ++ mark :: b) = a ++ mark :: trimEnd b := by
  have h := trimStart_append_cons hm b.reverse a.reverse
  rw [trimStart, trimStart] at h
  simp [trimEnd, h]

/-- A mark that is no white space keeps the two ends of a text apart. -/
theorem trim_append_cons (hm : isBlank mark = false) (a b : List Char) :
    trim (a ++ mark :: b) = trimStart a ++ mark :: trimEnd b := by
  rw [trim, trimStart_append_cons hm, trimEnd_append_cons hm]

/-- Where the trimmed text has a mark, so has the text, with the same pieces but for white space. -/
theorem exists_split_of_trim_eq (hm : isBlank mark = false) {t a b : List Char}
    (h : trim t = trim (a ++ mark :: b)) :
    ∃ a' b', t = a' ++ mark :: b' ∧ trim a' = trim a ∧ trim b' = trim b := by
  obtain ⟨p, q, hp, hq, ht⟩ := exists_trim t
  rw [h, trim_append_cons hm] at ht
  refine ⟨p ++ trimStart a, trimEnd b ++ q, by simpa using ht, ?_, ?_⟩
  · rw [trim_append_left hp, trim_trimStart]
  · rw [trim_append_right hq, trim_trimEnd]

end Toolpath.Text
