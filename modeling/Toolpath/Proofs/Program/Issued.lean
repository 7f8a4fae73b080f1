import Toolpath.Proofs.Traversal.CallRule
import Toolpath.Program.Generate

/-! Whole runs as one block of commands: setup, what each call issues, shutdown. Nothing is taken
back when a call fails. -/
namespace Toolpath

namespace Block
variable {α β γ : Type}

@[simp] theorem commands_pure (x : β) : (pure x : Block α β).commands = [] := rfl

@[simp] theorem result_pure (x : β) : (pure x : Block α β).result = .ok x := rfl

@[simp] theorem commands_issue (l : List (Command α)) : (issue l).commands = l := rfl

@[simp] theorem result_issue (l : List (Command α)) : (issue l).result = .ok () := rfl

@[simp] theorem commands_fail (e : CarveError α) : (fail e : Block α β).commands = [] := rfl

@[simp] theorem result_fail (e : CarveError α) : (fail e : Block α β).result = .error e := rfl

theorem bind_of_ok {b : Block α β} {x : β} (h : b.result = .ok x) (next : β → Block α γ) :
    (b >>= next) = ⟨b.commands ++ (next x).commands, (next x).result⟩ := by
  change b.andThen next = _
  unfold andThen
  rw [h]

theorem bind_of_error {b : Block α β} {e : CarveError α} (h : b.result = .error e)
    (next : β → Block α γ) : (b >>= next) = ⟨b.commands, .error e⟩ := by
  change b.andThen next = _
  unfold andThen
  rw [h]

@[simp] theorem issue_bind (l : List (Command α)) (next : Unit → Block α γ) :
    (issue l >>= next) = ⟨l ++ (next ()).commands, (next ()).result⟩ := bind_of_ok rfl next

theorem exists_of_bind_ok {b : Block α β} {next : β → Block α γ} {y : γ}
    (h : (b >>= next).result = .ok y) : ∃ x, b.result = .ok x ∧ (next x).result = .ok y := by
  cases hb : b.result with
  | error e => rw [bind_of_error hb] at h; cases h
  | ok x => rw [bind_of_ok hb] at h; exact ⟨x, rfl, h⟩

/-- What holds of every command of two blocks holds of the two in a row. -/
theorem forall_mem_bind {P : Command α → Prop} {b : Block α β} {next : β → Block α γ}
    (hb : ∀ c ∈ b.commands, P c) (hn : ∀ x, b.result = .ok x → ∀ c ∈ (next x).commands, P c) :
    ∀ c ∈ (b >>= next).commands, P c := by
  cases h : b.result with
  | error e => rw [bind_of_error h]; exact hb
  | ok x =>
    rw [bind_of_ok h]
    intro c hc
    rcases List.mem_append.mp hc with hc | hc
    · exact hb c hc
    · exact hn x h c hc

end Block

namespace Carve
variable {α β γ : Type}

theorem perform_run (b : Block α β) (log : Log α) :
    (perform b).run.run log = (b.result, log ++ b.commands.toArray) := by
  unfold perform
  cases b.result <;> simp <;> rfl

@[simp] theorem perform_pure (x : β) : perform (pure x : Block α β) = pure x := by
  apply action_ext
  intro log
  rw [perform_run, Block.commands_pure, Array.append_empty]
  rfl

@[simp] theorem perform_fail (e : CarveError α) :
    perform (.fail e : Block α β) = throw e := by
  apply action_ext
  intro log
  rw [perform_run, Block.commands_fail, Array.append_empty]
  rfl

theorem perform_bind (b : Block α β) (next : β → Block α γ) :
    perform (b >>= next) = (perform b >>= fun x => perform (next x)) := by
  apply action_ext
  intro log
  cases h : b.result with
  | error e =>
    have hb : (perform b).run.run log = (.error e, log ++ b.commands.toArray) := by
      rw [perform_run, h]
    rw [run_bind_of_error hb, perform_run, Block.bind_of_error h]
  | ok x =>
    have hb : (perform b).run.run log = (.ok x, log ++ b.commands.toArray) := by
      rw [perform_run, h]
    rw [run_bind_of_ok hb, perform_run, perform_run, Block.bind_of_ok h]
    simp

theorem perform_forM {ι : Type} (l : List ι) (g : ι → Block α Unit) :
    perform (l.forM g) = l.forM fun x => perform (g x) := by
  induction l with
  | nil => exact perform_pure ()
  | cons x rest ih =>
    change perform (g x >>= fun _ => rest.forM g) = (perform (g x) >>= fun _ => rest.forM _)
    rw [perform_bind, ih]

variable [Scalar α]

/-- What one call issues. A comment is a remark. -/
def block (o : Options α) : Call α → Block α Unit
  | .comment _ text => .issue [.remark (.text text)]
  | .trace f p => path o f p
  | .hole f diameter => hole o f diameter
  | .pocket f p => pocket o f p
  | .pause _ => .issue [.pause]

/-- The calls of an itinerary up to the first that fails, then its own error. -/
def carry (o : Options α) (it : Itinerary α) : Block α Unit := do
  it.calls.forM (block o)
  match it.stop with
  | none => pure ()
  | some e => .fail e

/-- A whole run as one block. -/
def program (o : Options α) (job : Job α) (cuts : List (Cut α)) : Block α Unit := do
  setup o job
  carry o (job.itinerary cuts)
  .issue (shutdown o)

theorem make_backend (o : Options α) (c : Call α) :
    (backend o).make c = perform (block o c) := by
  cases c <;> rfl

theorem follow_backend (o : Options α) (it : Itinerary α) :
    (backend o).follow it = perform (carry o it) := by
  unfold carry Backend.follow
  rw [perform_bind, perform_forM, funext (make_backend o)]
  cases it.stop with
  | none => simp
  | some e => simp [backend]

/-- A run performs its program. -/
theorem generate_eq_perform (o : Options α) (job : Job α) (cuts : List (Cut α)) :
    generate o job cuts = perform (program o job cuts) := by
  unfold generate program
  rw [perform_bind, Backend.visitAll_eq_follow, follow_backend]
  simp only [perform_bind]
  rfl

/-- The commands of a run, also of one that fails. -/
def issued (o : Options α) (job : Job α) (cuts : List (Cut α)) : List (Command α) :=
  ((generate o job cuts).run.run #[]).2.toList

theorem issued_eq (o : Options α) (job : Job α) (cuts : List (Cut α)) :
    issued o job cuts = (program o job cuts).commands := by
  rw [issued, generate_eq_perform, perform_run]
  simp

/-- The calls that are made, the last of them failing if one does. -/
def reached (o : Options α) : List (Call α) → List (Call α)
  | [] => []
  | c :: rest =>
    match (block o c).result with
    | .ok _ => c :: reached o rest
    | .error _ => [c]

/-- The calls that a run makes. None is made when setup fails. -/
def made (o : Options α) (job : Job α) (cuts : List (Cut α)) : List (Call α) :=
  match (setup o job).result with
  | .ok _ => reached o (job.itinerary cuts).calls
  | .error _ => []

/-- What calls issue one after another. -/
def work (o : Options α) (calls : List (Call α)) : List (Command α) :=
  calls.flatMap fun c => (block o c).commands

@[simp] theorem reached_cons_of_ok {o : Options α} {c : Call α} (h : (block o c).result = .ok ())
    (rest : List (Call α)) : reached o (c :: rest) = c :: reached o rest := by
  simp only [reached, h]

theorem reached_cons_of_error {o : Options α} {c : Call α} {e : CarveError α}
    (h : (block o c).result = .error e) (rest : List (Call α)) : reached o (c :: rest) = [c] := by
  simp only [reached, h]

@[simp] theorem work_cons (o : Options α) (c : Call α) (rest : List (Call α)) :
    work o (c :: rest) = (block o c).commands ++ work o rest := rfl

@[simp] theorem work_append (o : Options α) (a b : List (Call α)) :
    work o (a ++ b) = work o a ++ work o b := List.flatMap_append

theorem mem_of_mem_reached {o : Options α} {calls : List (Call α)} {c : Call α}
    (h : c ∈ reached o calls) : c ∈ calls := by
  induction calls with
  | nil => simp [reached] at h
  | cons d rest ih =>
    cases hd : (block o d).result with
    | error e =>
      rw [reached_cons_of_error hd, List.mem_singleton] at h
      exact h ▸ List.mem_cons_self
    | ok _ =>
      rw [reached_cons_of_ok hd] at h
      rcases List.mem_cons.mp h with rfl | h
      · exact List.mem_cons_self
      · exact List.mem_cons_of_mem _ (ih h)

/-- Only the last call that is made can fail. -/
theorem result_of_reached_append {o : Options α} {calls before after : List (Call α)}
    (h : reached o calls = before ++ after) (ha : after ≠ []) :
    ∀ c ∈ before, (block o c).result = .ok () := by
  induction calls generalizing before with
  | nil => simp [reached, ha] at h
  | cons d rest ih =>
    cases before with
    | nil => simp
    | cons b before =>
      cases hd : (block o d).result with
      | error e => simp [reached_cons_of_error hd, ha] at h
      | ok _ =>
        rw [reached_cons_of_ok hd, List.cons_append, List.cons.injEq] at h
        obtain ⟨rfl, h⟩ := h
        intro c hc
        rcases List.mem_cons.mp hc with rfl | hc
        · exact hd
        · exact ih h c hc

theorem commands_forM_block (o : Options α) (calls : List (Call α)) :
    (calls.forM (block o)).commands = work o (reached o calls) := by
  induction calls with
  | nil => rfl
  | cons c rest ih =>
    change (block o c >>= fun _ => rest.forM (block o)).commands = _
    cases h : (block o c).result with
    | error e => simp [Block.bind_of_error h, reached_cons_of_error h, work]
    | ok _ => rw [Block.bind_of_ok h, reached_cons_of_ok h, work_cons, ih]

theorem commands_carry (o : Options α) (it : Itinerary α) :
    (carry o it).commands = work o (reached o it.calls) := by
  rw [← commands_forM_block, carry]
  cases h : (it.calls.forM (block o)).result with
  | error e => rw [Block.bind_of_error h]
  | ok _ => rw [Block.bind_of_ok h]; cases it.stop <;> simp

/-- What a run issues: setup, the work of the calls that are made, and shutdown if none failed. A
run that fails in setup issues nothing. -/
theorem issued_eq_append (o : Options α) (job : Job α) (cuts : List (Cut α)) :
    issued o job cuts = [] ∧ made o job cuts = [] ∨
      (setup o job).result = .ok () ∧ ∃ tail, (tail = [] ∨ tail = shutdown o) ∧
        issued o job cuts = (setup o job).commands ++ work o (made o job cuts) ++ tail := by
  rw [issued_eq, program, made]
  cases hs : (setup o job).result with
  | error e =>
    have hc : (setup o job).commands = [] := by
      unfold setup at hs ⊢
      cases hj : job.system with
      | error _ => simp
      | ok _ => simp [hj] at hs
    exact Or.inl ⟨by rw [Block.bind_of_error hs, hc], rfl⟩
  | ok _ =>
    refine Or.inr ⟨rfl, ?_⟩
    rw [Block.bind_of_ok hs, ← commands_carry]
    cases hw : (carry o (job.itinerary cuts)).result with
    | error e => exact ⟨[], Or.inl rfl, by rw [Block.bind_of_error hw, List.append_nil]⟩
    | ok _ =>
      refine ⟨shutdown o, Or.inr rfl, ?_⟩
      rw [Block.bind_of_ok hw, Block.commands_issue, List.append_assoc]

theorem reached_of_ok {o : Options α} {calls : List (Call α)}
    (h : (calls.forM (block o)).result = .ok ()) : reached o calls = calls := by
  induction calls with
  | nil => rfl
  | cons c rest ih =>
    change (block o c >>= fun _ => rest.forM (block o)).result = .ok () at h
    obtain ⟨_, hc, hrest⟩ := Block.exists_of_bind_ok h
    rw [reached_cons_of_ok hc, ih hrest]

/-- A run that succeeds issues the work of every call. -/
theorem commands_program_of_ok {o : Options α} {job : Job α} {cuts : List (Cut α)}
    (h : (program o job cuts).result = .ok ()) : (program o job cuts).commands =
      (setup o job).commands ++ (work o (job.itinerary cuts).calls ++ shutdown o) := by
  unfold program at h ⊢
  obtain ⟨_, hs, h⟩ := Block.exists_of_bind_ok h
  obtain ⟨_, hc, -⟩ := Block.exists_of_bind_ok h
  have hcalls : reached o (job.itinerary cuts).calls = (job.itinerary cuts).calls := by
    obtain ⟨_, hf, -⟩ := Block.exists_of_bind_ok hc
    exact reached_of_ok hf
  rw [Block.bind_of_ok hs, Block.bind_of_ok hc, commands_carry, hcalls, Block.commands_issue]

/-- The work of the first calls of a run is the beginning of what it issues. -/
theorem work_prefix_issued {o : Options α} {job : Job α} {cuts : List (Cut α)}
    {calls : List (Call α)} (h : calls <+: made o job cuts) (hne : calls ≠ []) :
    (setup o job).commands ++ work o calls <+: issued o job cuts := by
  obtain ⟨rest, h⟩ := h
  rcases issued_eq_append o job cuts with ⟨-, hm⟩ | ⟨-, tail, -, hi⟩
  · rw [hm] at h
    exact absurd (List.append_eq_nil_iff.mp h).1 hne
  · refine ⟨work o rest ++ tail, ?_⟩
    rw [hi, ← h, work_append]
    simp only [List.append_assoc]

theorem mem_itinerary_of_mem_made {o : Options α} {job : Job α} {cuts : List (Cut α)}
    {c : Call α} (h : c ∈ made o job cuts) : c ∈ (job.itinerary cuts).calls := by
  unfold made at h
  split at h
  · exact mem_of_mem_reached h
  · simp at h

end Carve

/-- Stock of a quarter of an inch under an end mill of half that. -/
def Job.quarterInch {α : Type} [Scalar α] : Job α :=
  ⟨⟨.inch, ⟨127, 5⟩⟩, UnitTable.standard.withBoard ⟨127, 20⟩, ⟨1, 4⟩,
    ⟨"1/8 inch end mill", .flat (Scalar.ofRatio 1 8)⟩⟩

end Toolpath
