import Toolpath.Program.Basic
import Toolpath.Proofs.Decimal.Numeral
import Toolpath.Proofs.Program.Lines
import Toolpath.Proofs.Program.Remark

/-! What comments add to the lines of a program. -/
namespace Toolpath

namespace Machine
variable {α : Type} [Scalar α] (ends : Char → Bool) (s : Style α)

/-- The lines of code that a remark adds. -/
def spill : Command α → List (List Char)
  | .remark r => (s.commentLines (s.remarkText r)).flatMap (codeLines ends ·.toList)
  | _ => []

/-- The lines of code that commands write. -/
def code (m : Machine α) (l : List (Command α)) : List (List Char) :=
  (m.run s l).2.flatMap (codeLines ends ·.toList)

variable {ends s}

theorem code_cons (m : Machine α) (c : Command α) (rest : List (Command α)) :
    m.code ends s (c :: rest) = (m.step s c).2.flatMap (codeLines ends ·.toList) ++
      (m.step s c).1.code ends s rest := by
  unfold code
  rw [run_cons, List.flatMap_append]

theorem code_cons_of_isRemark (m : Machine α) {c : Command α} (hc : c.isRemark)
    (rest : List (Command α)) :
    m.code ends s (c :: rest) = spill ends s c ++ m.code ends s rest := by
  rw [code_cons]
  cases c with
  | remark r => rfl
  | _ => cases hc

omit [Scalar α] in
theorem spill_of_not_isRemark {c : Command α} (hc : c.isRemark = false) : spill ends s c = [] := by
  cases c with
  | remark r => cases hc
  | _ => rfl

theorem code_filter (m : Machine α) {l : List (Command α)} (h : ∀ c ∈ l, spill ends s c = []) :
    m.code ends s l = m.code ends s (l.filter (!·.isRemark)) := by
  induction l generalizing m with
  | nil => rfl
  | cons c rest ih =>
    have hrest := fun m => ih m fun d hd => h d (List.mem_cons_of_mem c hd)
    cases hc : c.isRemark with
    | false => rw [List.filter_cons_of_pos (by simp [hc]), code_cons, code_cons, hrest]
    | true =>
      rw [List.filter_cons_of_neg (by simp [hc]), code_cons_of_isRemark m hc,
        h c List.mem_cons_self, List.nil_append, hrest]

/-- The lines of code that remarks add come on top of all others. -/
theorem length_code (ends : Char → Bool) (s : Style α) (m : Machine α) (l : List (Command α)) :
    (m.code ends s l).length =
      (m.code ends s (l.filter (!·.isRemark))).length + (l.flatMap (spill ends s)).length := by
  induction l generalizing m with
  | nil => rfl
  | cons c rest ih =>
    rw [List.flatMap_cons, List.length_append]
    cases hc : c.isRemark with
    | false =>
      rw [List.filter_cons_of_pos (by simp [hc]), code_cons, code_cons, List.length_append,
        List.length_append, ih, spill_of_not_isRemark hc, List.length_nil]
      omega
    | true =>
      rw [List.filter_cons_of_neg (by simp [hc]), code_cons_of_isRemark m hc, List.length_append,
        ih]
      omega

theorem code_eq_code_filter {m : Machine α} {l : List (Command α)} :
    m.code ends s l = m.code ends s (l.filter (!·.isRemark)) ↔ ∀ c ∈ l, spill ends s c = [] := by
  constructor
  · intro h
    have hlength := length_code ends s m l
    rw [h] at hlength
    have hnil : l.flatMap (spill ends s) = [] := List.eq_nil_of_length_eq_zero (by omega)
    exact List.flatMap_eq_nil_iff.mp hnil
  · exact code_filter m

theorem run_withComments (mode : CommentMode) (m : Machine α) {l : List (Command α)}
    (h : ∀ c ∈ l, c.isRemark = false) : m.run { s with comments := mode } l = m.run s l := by
  induction l generalizing m with
  | nil => rfl
  | cons c rest ih =>
    have hstep : m.step { s with comments := mode } c = m.step s c := by
      have hc := h c List.mem_cons_self
      cases c <;> first | rfl | cases hc
    rw [run_cons, run_cons, hstep, ih _ fun d hd => h d (List.mem_cons_of_mem c hd)]

end Machine

namespace Carve

/-- Whether no comment that the calls of a job make adds a line of code: none is written, or each
breaks quietly. -/
def QuietComments {α : Type} [Scalar α] (ends : Char → Bool) (job : Job α) (cuts : List (Cut α))
    (mode : CommentMode) : Prop :=
  mode = .none ∨ ∀ f t, .comment f t ∈ (job.itinerary cuts).calls → breaksQuietly ends t.toList

variable {ends : Char → Bool}

theorem breaksQuietly_remarkText (he : LineEnds ends) (o : Options Float) {r : Remark Float}
    (hr : ∀ t, r = .text t → t = "Job done!") :
    breaksQuietly ends (o.style.remarkText r).toList := by
  have hprintable : ∀ {t : String}, t.toList.all (fun c => 32 ≤ c.toNat && c.toNat < 127) →
      ∀ c ∈ t.toList, ends c = false := by
    intro t h c hc
    have hrange := List.all_eq_true.mp h c hc
    rw [Bool.and_eq_true, decide_eq_true_eq, decide_eq_true_eq] at hrange
    exact he.printable c hrange.1 hrange.2
  have hnumber : ∀ z, ∀ c ∈ (o.style.number z).toList, ends c = false := by
    intro z c hc
    obtain ⟨hlow, hhigh⟩ := toNat_of_isNumeral (numeral_fixedWord o.fractionDigits z c hc)
    exact he.printable c (Nat.le_of_lt hlow) hhigh
  have hunit : ∀ u : UnitName, ∀ c ∈ u.abbreviation.toList, ends c = false := fun u =>
    hprintable (by cases u <;> decide)
  apply breaksQuietly_of_forall
  cases r with
  | text t =>
    rw [hr t rfl]
    exact hprintable (t := "Job done!") (by decide)
  | stepDown z =>
    show ∀ c ∈ ("Step down to " ++ o.style.number z).toList, ends c = false
    rw [String.toList_append, List.forall_mem_append]
    exact ⟨hprintable (by decide), hnumber z⟩
  | pecked d unit =>
    show ∀ c ∈ (o.style.number d ++ unit.abbreviation ++ " hole will be pecked").toList, _
    rw [String.toList_append, String.toList_append, List.forall_mem_append, List.forall_mem_append]
    exact ⟨⟨hnumber d, hunit unit⟩, hprintable (by decide)⟩
  | circled d unit =>
    show ∀ c ∈ (o.style.number d ++ unit.abbreviation ++ " hole will be circles").toList, _
    rw [String.toList_append, String.toList_append, List.forall_mem_append, List.forall_mem_append]
    exact ⟨⟨hnumber d, hunit unit⟩, hprintable (by decide)⟩

/-- The remarks of a run that succeeds add no line of code exactly when its comments are quiet. -/
theorem spill_eq_nil_iff (he : LineEnds ends) (o : Options Float) {job : Job Float}
    {cuts : List (Cut Float)} (h : (program o job cuts).result = .ok ()) (mode : CommentMode) :
    (∀ c ∈ (program o job cuts).commands,
      Machine.spill ends { o.style with comments := mode } c = []) ↔
      QuietComments ends job cuts mode := by
  have hspill : ∀ r, Machine.spill ends { o.style with comments := mode } (.remark r) = [] ↔
      mode = .none ∨ breaksQuietly ends (o.style.remarkText r).toList := by
    intro r
    cases r <;> exact Style.codeLines_commentLines he _
  constructor
  · intro hall
    by_cases hmode : mode = .none
    · exact Or.inl hmode
    · refine Or.inr fun f t hc => ?_
      have hmem := (text_mem_program h t).mpr (Or.inr ⟨f, hc⟩)
      exact ((hspill _).mp (hall _ hmem)).resolve_left hmode
  · intro hquiet c hc
    cases c with
    | remark r =>
      rw [hspill]
      rcases hquiet with hmode | hquiet
      · exact Or.inl hmode
      · right
        by_cases hown : ∀ t, r = .text t → t = "Job done!"
        · exact breaksQuietly_remarkText he o hown
        · cases r with
          | text t =>
            rcases (text_mem_program h t).mp hc with hlast | ⟨f, hcall⟩
            · exact absurd (fun u hu => by cases hu; exact hlast) hown
            · exact hquiet f t hcall
          | _ => exact absurd (fun t ht => by cases ht) hown
    | _ => rfl

theorem programText_eq (job : Job Float) (o : Options Float) (cuts : List (Cut Float))
    (mode : CommentMode) : programText job { o with commentMode := mode } cuts =
      match o.check with
      | .error e => .error (.range e)
      | .ok _ =>
        match (program o job cuts).result with
        | .error e => .error e
        | .ok _ => .ok (linesText (Machine.initial.run { o.style with comments := mode }
          (program o job cuts).commands).2) := by
  have hrun : (generate { o with commentMode := mode } job cuts).run.run #[] =
      ((program o job cuts).result, #[] ++ (program o job cuts).commands.toArray) := by
    rw [generate_eq_perform, program_withMode, perform_run]
  have hcheck : ({ o with commentMode := mode } : Options Float).check = o.check := rfl
  unfold programText
  rw [hcheck, hrun]
  cases o.check with
  | error e => rfl
  | ok _ =>
    cases (program o job cuts).result with
    | error e => rfl
    | ok _ => simp only [List.toList_toArray, Array.empty_append]; rfl

theorem of_programText_eq_ok {job : Job Float} {o : Options Float} {cuts : List (Cut Float)}
    {mode : CommentMode} {text : String}
    (h : programText job { o with commentMode := mode } cuts = .ok text) :
    (program o job cuts).result = .ok () ∧
      text = linesText (Machine.initial.run { o.style with comments := mode }
        (program o job cuts).commands).2 := by
  rw [programText_eq] at h
  cases hc : o.check with
  | error e => rw [hc] at h; cases h
  | ok _ =>
    cases hr : (program o job cuts).result with
    | error e => rw [hc, hr] at h; cases h
    | ok _ =>
      rw [hc, hr] at h
      exact ⟨rfl, (Except.ok.inj h).symm⟩

/-- Take two lists of cuts that differ only in their comments, and any two comment modes. Both
programs fail, and with one error, or neither does. Their lines of code are then the same exactly when
the comments of the first are quiet, if those of the second are. A comment is written as nothing or
as one string that is all comment; it is one line exactly when the comment has no line end. -/
theorem codeLines_programText (he : LineEnds ends) (o : Options Float) (job : Job Float)
    {cuts₁ cuts₂ : List (Cut Float)} (h : Cut.bareAll cuts₁ = Cut.bareAll cuts₂)
    (a b : CommentMode) :
    (∀ e, programText job { o with commentMode := a } cuts₁ = .error e ↔
      programText job { o with commentMode := b } cuts₂ = .error e) ∧
    (∀ text₁ text₂, programText job { o with commentMode := a } cuts₁ = .ok text₁ →
      programText job { o with commentMode := b } cuts₂ = .ok text₂ →
      QuietComments ends job cuts₂ b →
      (codeLines ends text₁.toList = codeLines ends text₂.toList ↔
        QuietComments ends job cuts₁ a)) ∧
    ∀ t, { o.style with comments := a }.commentLines t = [] ∨
      ∃ line, { o.style with comments := a }.commentLines t = [line] ∧
        withoutComments false line.toList = some [] ∧
        ((line.toList.splitOnP ends).length = 1 ↔ ∀ c ∈ t.toList, ends c = false) := by
  have hbare : (program o job cuts₁).bare = (program o job cuts₂).bare := by
    rw [bare_program, h, ← bare_program]
  have hresult : (program o job cuts₁).result = (program o job cuts₂).result := by
    change (program o job cuts₁).bare.result = _
    rw [hbare]
    rfl
  have hcommands : (program o job cuts₁).commands.filter (!·.isRemark) =
      (program o job cuts₂).commands.filter (!·.isRemark) := by
    change (program o job cuts₁).bare.commands = _
    rw [hbare]
    rfl
  refine ⟨fun e => ?_, fun text₁ text₂ h₁ h₂ hquiet => ?_, Style.commentLines_spec he _⟩
  · rw [programText_eq, programText_eq, hresult]
    cases o.check with
    | error e' => rfl
    | ok _ =>
      cases (program o job cuts₂).result with
      | error e' => rfl
      | ok _ => simp
  · obtain ⟨hok₁, rfl⟩ := of_programText_eq_ok h₁
    obtain ⟨hok₂, rfl⟩ := of_programText_eq_ok h₂
    have hsame : ∀ mode, Machine.initial.code ends { o.style with comments := mode }
        ((program o job cuts₁).commands.filter (!·.isRemark)) =
          Machine.initial.code ends o.style
            ((program o job cuts₁).commands.filter (!·.isRemark)) := by
      intro mode
      unfold Machine.code
      rw [Machine.run_withComments]
      intro c hc
      simpa using (List.mem_filter.mp hc).2
    have hcode₂ := Machine.code_filter Machine.initial ((spill_eq_nil_iff he o hok₂ b).mpr hquiet)
    rw [← hcommands, hsame b, ← hsame a] at hcode₂
    rw [codeLines_linesText he, codeLines_linesText he, List.append_left_inj]
    show Machine.initial.code ends _ _ = Machine.initial.code ends _ _ ↔ _
    rw [hcode₂, Machine.code_eq_code_filter, spill_eq_nil_iff he o hok₁]

theorem lineEnds_lineFeed : LineEnds (· == '\n') where
  lineFeed := rfl
  printable c hlow _ := by
    refine beq_eq_false_iff_ne.mpr ?_
    rintro rfl
    exact absurd hlow (by decide)

/-- A line feed in the comment of a pause adds a line of code to the program. -/
theorem codeLines_programText_pause :
    Cut.bareAll [.pause (some "a\nG00 Z-1")] = Cut.bareAll [(.pause none : Cut Float)] ∧
    ∃ text₁ text₂,
      programText .quarterInch { Options.standard with commentMode := .parentheses }
        [.pause (some "a\nG00 Z-1")] = .ok text₁ ∧
      programText .quarterInch { Options.standard with commentMode := .parentheses }
        [.pause none] = .ok text₂ ∧
      codeLines (· == '\n') text₁.toList ≠ codeLines (· == '\n') text₂.toList := by
  have hbare : Cut.bareAll [.pause (some "a\nG00 Z-1")] = Cut.bareAll [(.pause none : Cut Float)] :=
    rfl
  obtain ⟨-, hlines, -⟩ := codeLines_programText lineEnds_lineFeed .standard .quarterInch hbare
    .parentheses .parentheses
  refine ⟨hbare, _, _, rfl, rfl, fun hsame => ?_⟩
  have hquiet : QuietComments (· == '\n') (.quarterInch : Job Float) [.pause none] .parentheses := by
    refine Or.inr fun f t hmem => ?_
    cases hmem with
    | tail _ hmem => cases hmem
  rcases (hlines _ _ rfl rfl hquiet).mp hsame with hmode | hall
  · cases hmode
  · have hbroken := hall (.root .quarterInch) "a\nG00 Z-1" List.mem_cons_self
    exact absurd hbroken (by decide)

end Carve
end Toolpath
