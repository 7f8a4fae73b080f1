import Toolpath.Program.Machine
import Mathlib.Tactic.SplitIfs

/-! The lines of program texts, as a reader with its own line ends finds them. -/
namespace Toolpath

/-- What a reader may take for the end of a line: a line feed does end one, and printable ASCII does
not. -/
structure LineEnds (ends : Char → Bool) : Prop where
  lineFeed : ends '\n' = true
  printable : ∀ c : Char, 32 ≤ c.toNat → c.toNat < 127 → ends c = false

theorem LineEnds.marks {ends : Char → Bool} (he : LineEnds ends) :
    ends '(' = false ∧ ends ')' = false ∧ ends ';' = false ∧ ends ' ' = false :=
  ⟨he.printable _ (by decide) (by decide), he.printable _ (by decide) (by decide),
    he.printable _ (by decide) (by decide), he.printable _ (by decide) (by decide)⟩

/-- Whether a line starts with the mark of a comment. -/
def isCommentLine (line : List Char) : Bool := line.head? == some '(' || line.head? == some ';'

/-- The lines of a text that are no comments. -/
def codeLines (ends : Char → Bool) (text : List Char) : List (List Char) :=
  (text.splitOnP ends).filter (!isCommentLine ·)

/-- Whether every line end is directly followed by the mark of a comment. -/
def breaksIntoComments (ends : Char → Bool) : List Char → Bool
  | [] => true
  | c :: rest => (!ends c || isCommentLine rest) && breaksIntoComments ends rest

variable {ends : Char → Bool}

theorem codeLines_append (he : LineEnds ends) (a b : List Char) :
    codeLines ends (a ++ '\n' :: b) = codeLines ends a ++ codeLines ends b := by
  unfold codeLines
  rw [List.splitOnP_append_cons a b he.lineFeed, List.filter_append]

theorem codeLines_linesText (he : LineEnds ends) (l : List String) :
    codeLines ends (linesText l).toList = l.flatMap (codeLines ends ·.toList) ++ [[]] := by
  induction l with
  | nil => rfl
  | cons line rest ih =>
    have hcons : (linesText (line :: rest)).toList =
        line.toList ++ '\n' :: (linesText rest).toList := by
      simp [linesText]
    rw [hcons, codeLines_append he, ih, List.flatMap_cons, List.append_assoc]

theorem isCommentLine_of_ends (he : LineEnds ends) {c : Char} (hc : ends c = true)
    (rest : List Char) : isCommentLine (c :: rest) = false := by
  obtain ⟨ho, -, hs, -⟩ := he.marks
  have hopen : c ≠ '(' := by
    rintro rfl
    exact Bool.false_ne_true (ho.symm.trans hc)
  have hsemicolon : c ≠ ';' := by
    rintro rfl
    exact Bool.false_ne_true (hs.symm.trans hc)
  simp [isCommentLine, hopen, hsemicolon]

theorem breaksIntoComments_cons_of_not_ends {c : Char} (hc : ends c = false) (rest : List Char) :
    breaksIntoComments ends (c :: rest) = breaksIntoComments ends rest := by
  rw [breaksIntoComments, hc, Bool.not_false, Bool.true_or, Bool.true_and]

theorem exists_splitOnP (he : LineEnds ends) (text : List Char) :
    ∃ first others, text.splitOnP ends = first :: others ∧
      isCommentLine first = isCommentLine text := by
  cases text with
  | nil => exact ⟨[], [], rfl, rfl⟩
  | cons c rest =>
    rw [List.splitOnP_cons_eq_if_modifyHead]
    by_cases hc : ends c = true
    · rw [if_pos hc]
      exact ⟨[], rest.splitOnP ends, rfl, (isCommentLine_of_ends he hc rest).symm⟩
    · obtain ⟨first, others, h⟩ := List.exists_cons_of_ne_nil (List.splitOnP_ne_nil ends rest)
      rw [if_neg hc, h]
      exact ⟨c :: first, others, rfl, rfl⟩

theorem all_tail_splitOnP (he : LineEnds ends) (text : List Char) :
    (text.splitOnP ends).tail.all isCommentLine = breaksIntoComments ends text := by
  induction text with
  | nil => rfl
  | cons c rest ih =>
    obtain ⟨first, others, h, hfirst⟩ := exists_splitOnP he rest
    rw [h, List.tail_cons] at ih
    rw [List.splitOnP_cons_eq_if_modifyHead, h]
    by_cases hc : ends c = true
    · rw [if_pos hc, List.tail_cons, List.all_cons, hfirst, ih, breaksIntoComments, hc,
        Bool.not_true, Bool.false_or]
    · rw [if_neg hc, List.modifyHead_cons, List.tail_cons, ih,
        breaksIntoComments_cons_of_not_ends ((Bool.not_eq_true _).mp hc)]

/-- A text has no line of code exactly when it starts as a comment and so does what follows any of
its line ends. -/
theorem codeLines_eq_nil (he : LineEnds ends) {text : List Char} :
    codeLines ends text = [] ↔ isCommentLine text ∧ breaksIntoComments ends text := by
  obtain ⟨first, others, h, hfirst⟩ := exists_splitOnP he text
  rw [← all_tail_splitOnP he, ← hfirst, codeLines, h, List.tail_cons, List.all_eq_true]
  simp

theorem length_splitOnP_eq_one {text : List Char} :
    (text.splitOnP ends).length = 1 ↔ ∀ c ∈ text, ends c = false := by
  constructor
  · intro h c hc
    cases hends : ends c with
    | false => rfl
    | true =>
      obtain ⟨before, after, rfl⟩ := List.append_of_mem hc
      have hbefore := List.length_pos_iff.mpr (List.splitOnP_ne_nil ends before)
      have hafter := List.length_pos_iff.mpr (List.splitOnP_ne_nil ends after)
      rw [List.splitOnP_append_cons before after hends, List.length_append] at h
      omega
  · intro h
    rw [List.splitOnP_eq_singleton h]
    rfl

/-- Whether every line end in a comment is directly followed by a semicolon. -/
def breaksQuietly (ends : Char → Bool) : List Char → Bool
  | [] => true
  | c :: rest => (!ends c || rest.head? == some ';') && breaksQuietly ends rest

theorem breaksQuietly_of_forall {text : List Char} (h : ∀ c ∈ text, ends c = false) :
    breaksQuietly ends text = true := by
  induction text with
  | nil => rfl
  | cons c rest ih =>
    rw [breaksQuietly, h c List.mem_cons_self, ih fun d hd => h d (List.mem_cons_of_mem c hd)]
    rfl

namespace Style

/-- The bracket that takes the place of a parenthesis. -/
def bracket (c : Char) : Char := if c = '(' then '[' else if c = ')' then ']' else c

theorem toList_bracketed (t : String) : (bracketed t).toList = t.toList.map bracket :=
  String.toList_ofList

theorem toList_parenthesized (t : String) :
    ("(" ++ bracketed t ++ ")").toList = '(' :: (t.toList.map bracket ++ [')']) := by
  simp [toList_bracketed]

theorem toList_semicolon (t : String) :
    ("; " ++ bracketed t).toList = ';' :: ' ' :: (t.toList.map bracket ++ []) := by
  simp [toList_bracketed]

theorem ends_bracket (he : LineEnds ends) (c : Char) : ends (bracket c) = ends c := by
  unfold bracket
  split_ifs with hopen hclose
  · rw [hopen, he.printable '(' (by decide) (by decide), he.printable '[' (by decide) (by decide)]
  · rw [hclose, he.printable ')' (by decide) (by decide), he.printable ']' (by decide) (by decide)]
  · rfl

theorem isCommentLine_bracket (c : Char) (rest : List Char) :
    isCommentLine (bracket c :: rest) = (c == ';') := by
  unfold bracket
  split_ifs with hopen hclose
  · rw [hopen]
    rfl
  · rw [hclose]
    rfl
  · simp [isCommentLine, hopen]

theorem breaksIntoComments_bracketed (he : LineEnds ends) {suffix : List Char}
    (hmark : isCommentLine suffix = false) (hbreaks : breaksIntoComments ends suffix = true)
    (text : List Char) :
    breaksIntoComments ends (text.map bracket ++ suffix) = breaksQuietly ends text := by
  induction text with
  | nil => exact hbreaks
  | cons c rest ih =>
    have hhead : isCommentLine (rest.map bracket ++ suffix) = (rest.head? == some ';') := by
      cases rest with
      | nil => exact hmark
      | cons d rest => exact isCommentLine_bracket d _
    rw [List.map_cons, List.cons_append, breaksIntoComments, ends_bracket he, hhead, ih]
    rfl

variable {α : Type} {s : Style α}

/-- A comment adds no line of code exactly when it is not written at all or breaks quietly. -/
theorem codeLines_commentLines (he : LineEnds ends) (t : String) :
    (s.commentLines t).flatMap (codeLines ends ·.toList) = [] ↔
      s.comments = .none ∨ breaksQuietly ends t.toList := by
  obtain ⟨hopen, hclose, hsemicolon, hblank⟩ := he.marks
  have hclosed : breaksIntoComments ends [')'] = true :=
    breaksIntoComments_cons_of_not_ends hclose []
  unfold commentLines
  cases s.comments with
  | none => simp
  | parentheses =>
    rw [List.flatMap_singleton, toList_parenthesized, codeLines_eq_nil he,
      breaksIntoComments_cons_of_not_ends hopen, breaksIntoComments_bracketed he rfl hclosed]
    simp [isCommentLine]
  | semicolon =>
    rw [List.flatMap_singleton, toList_semicolon, codeLines_eq_nil he,
      breaksIntoComments_cons_of_not_ends hsemicolon, breaksIntoComments_cons_of_not_ends hblank,
      breaksIntoComments_bracketed he rfl rfl]
    simp [isCommentLine]

end Style

/-- What is left of a line without its comments, which reach from a parenthesis to the one that
closes it, or from a semicolon to the end. There is nothing if a parenthesis stays open. -/
def withoutComments : (inside : Bool) → List Char → Option (List Char)
  | false, [] => some []
  | true, [] => none
  | false, c :: rest =>
    if c = '(' then withoutComments true rest
    else if c = ';' then some []
    else (withoutComments false rest).map (c :: ·)
  | true, c :: rest => if c = ')' then withoutComments false rest else withoutComments true rest

namespace Style
variable {α : Type}

theorem withoutComments_bracketed (text : List Char) :
    withoutComments true (text.map bracket ++ [')']) = some [] := by
  induction text with
  | nil => rfl
  | cons c rest ih =>
    have hc : bracket c ≠ ')' := by
      unfold bracket
      split_ifs <;> simp_all
    rw [List.map_cons, List.cons_append, withoutComments, if_neg hc, ih]

/-- A comment is written as nothing, or as one string that is all comment to its end and that is one
line exactly when no line ends in the comment. -/
theorem commentLines_spec (he : LineEnds ends) (s : Style α) (t : String) :
    s.commentLines t = [] ∨ ∃ line, s.commentLines t = [line] ∧
      withoutComments false line.toList = some [] ∧
      ((line.toList.splitOnP ends).length = 1 ↔ ∀ c ∈ t.toList, ends c = false) := by
  have hends : (∀ c ∈ t.toList.map bracket, ends c = false) ↔ ∀ c ∈ t.toList, ends c = false := by
    simp [ends_bracket he]
  obtain ⟨hopen, hclose, hsemicolon, hblank⟩ := he.marks
  unfold commentLines
  cases s.comments with
  | none => exact Or.inl rfl
  | parentheses =>
    refine Or.inr ⟨_, rfl, ?_, ?_⟩
    · rw [toList_parenthesized]
      exact withoutComments_bracketed t.toList
    · rw [length_splitOnP_eq_one, toList_parenthesized, List.forall_mem_cons,
        List.forall_mem_append, hends]
      simp [hopen, hclose]
  | semicolon =>
    refine Or.inr ⟨_, rfl, ?_, ?_⟩
    · rw [toList_semicolon]
      rfl
    · rw [length_splitOnP_eq_one, toList_semicolon, List.forall_mem_cons, List.forall_mem_cons,
        List.append_nil, hends]
      simp [hsemicolon, hblank]

end Style

end Toolpath
