import Toolpath.Proofs.Program.Carving
import Toolpath.Proofs.Traversal.Bare

/-! Programs without their remarks. They do not depend on the comments of the cuts, and comments are
all that adds text of its own. -/
namespace Toolpath

namespace Command
variable {α : Type}

def isRemark : Command α → Bool
  | .remark _ => true
  | _ => false

/-- Whether a command carves, travels or pauses. No text of a comment is among them. -/
def isWork : Command α → Bool
  | .rapid _ => true
  | .pause => true
  | c => c.isCarving

theorem isWork_of_isCarving {c : Command α} (h : c.isCarving) : c.isWork := by
  cases c <;> simp_all [isCarving, isWork]

end Command

namespace Block
variable {α β γ : Type}

/-- A block without its remarks. -/
def bare (b : Block α β) : Block α β := ⟨b.commands.filter (!·.isRemark), b.result⟩

theorem bare_bind (b : Block α β) (next : β → Block α γ) :
    (b >>= next).bare = (b.bare >>= fun x => (next x).bare) := by
  cases h : b.result with
  | error e =>
    have hbare : b.bare.result = .error e := h
    rw [bind_of_error h, bind_of_error hbare]
    rfl
  | ok x =>
    have hbare : b.bare.result = .ok x := h
    rw [bind_of_ok h, bind_of_ok hbare]
    simp [bare]

end Block

namespace Carve
variable {α : Type} [Scalar α] (o : Options α)

theorem bare_forM_block (calls : List (Call α)) :
    (calls.forM (block o)).bare = ((calls.filter (!·.isComment)).forM (block o)).bare := by
  induction calls with
  | nil => rfl
  | cons c rest ih =>
    have hcons : ∀ l, (List.forM (c :: l) (block o)).bare =
        ((block o c).bare >>= fun _ => (l.forM (block o)).bare) := fun l =>
      Block.bare_bind (block o c) fun _ => l.forM (block o)
    rw [hcons, ih]
    cases hc : c.isComment with
    | true =>
      have hpure : (block o c).bare = pure () := by
        cases c <;> first | rfl | cases hc
      rw [hpure, List.filter_cons_of_neg (by simp [hc])]
      rfl
    | false => rw [List.filter_cons_of_pos (by simp [hc]), hcons]

theorem bare_carry (it : Itinerary α) : (carry o it).bare = (carry o it.bare).bare := by
  unfold carry
  rw [Block.bare_bind, Block.bare_bind, bare_forM_block]
  rfl

/-- Comments on the cuts do not change what is issued without remarks, nor how the run ends. -/
theorem bare_program (job : Job α) (cuts : List (Cut α)) :
    (program o job cuts).bare = (program o job (Cut.bareAll cuts)).bare := by
  have hcarry : (carry o (job.itinerary cuts)).bare =
      (carry o (job.itinerary (Cut.bareAll cuts))).bare := by
    unfold Job.itinerary
    rw [bare_carry, Cut.itineraryAll_bareAll]
  unfold program
  simp only [Block.bare_bind]
  rw [hcarry]

theorem rings_withMode (mode : CommentMode) (f : Frame α) (center : Vec α) (number : Nat)
    (l : List (Ring α)) :
    rings { o with commentMode := mode } f center number l = rings o f center number l := by
  induction l generalizing number with
  | nil => rfl
  | cons r rest ih =>
    rw [rings_cons, rings_cons, ih]
    rfl

/-- The comment mode has no say in what is issued. -/
theorem block_withMode (mode : CommentMode) (c : Call α) :
    block { o with commentMode := mode } c = block o c := by
  cases c with
  | pocket f p =>
    show pocket { o with commentMode := mode } f p = pocket o f p
    unfold pocket
    simp only [rings_withMode]
    rfl
  | _ => rfl

theorem program_withMode (mode : CommentMode) (job : Job α) (cuts : List (Cut α)) :
    program { o with commentMode := mode } job cuts = program o job cuts := by
  have hcarry : carry { o with commentMode := mode } (job.itinerary cuts) =
      carry o (job.itinerary cuts) := by
    unfold carry
    rw [funext (block_withMode o mode)]
  unfold program
  rw [hcarry]
  rfl

variable {o}

omit [Scalar α] in
theorem isWork_toSafeHeight : ∀ c ∈ toSafeHeight o, c.isWork := by
  intro c hc
  simp only [toSafeHeight, List.mem_cons, List.not_mem_nil, or_false] at hc
  rcases hc with rfl | rfl | rfl <;> rfl

theorem isWork_approach (p : Vec α) : ∀ c ∈ approach o p, c.isWork := by
  intro c hc
  unfold approach at hc
  rcases List.mem_append.mp hc with hc | hc
  · rcases List.mem_append.mp hc with hc | hc
    · exact isWork_toSafeHeight c hc
    · simp only [List.mem_cons, List.not_mem_nil, or_false] at hc
      rcases hc with rfl | rfl | rfl <;> rfl
  · split_ifs at hc
    · cases hc
    · rw [List.mem_singleton.mp hc]
      rfl

theorem isWork_between {p : Vec α} {l : List (Command α)} (h : ∀ c ∈ l, c.isCarving) :
    ∀ c ∈ approach o p ++ l ++ toSafeHeight o, c.isWork := by
  intro c hc
  rcases List.mem_append.mp hc with hc | hc
  · rcases List.mem_append.mp hc with hc | hc
    · exact isWork_approach p c hc
    · exact Command.isWork_of_isCarving (h c hc)
  · exact isWork_toSafeHeight c hc

theorem isWork_path (f : Frame α) (p : Path α) : ∀ c ∈ (path o f p).commands, c.isWork := by
  cases hv : p.start? with
  | none => simp [path_of_no_start hv]
  | some v =>
    by_cases hp : (descent o f v).passes = []
    · simp [path_of_no_pass hv hp]
    · rw [path_of_passes hv hp]
      refine Block.forall_mem_bind (isWork_approach _) fun _ _ => ?_
      refine Block.forall_mem_bind (fun c hc => ?_) fun _ _ => isWork_toSafeHeight
      exact Command.isWork_of_isCarving (carving_passes f p _ _ _ _ c hc)

theorem isWork_peck (f : Frame α) : ∀ c ∈ (peck o f).commands, c.isWork := by
  by_cases h : (f.place .zero).z ≤ f.bottom .zero
  · simp [peck_of_le h]
  · rw [peck_of_not_le h]
    exact isWork_between (carving_pecks o f)

theorem isWork_hole (f : Frame α) (diameter : α) : ∀ c ∈ (hole o f diameter).commands, c.isWork := by
  by_cases hnarrow : f.length diameter - f.job.bit.tipWidth ≤ 0
  · rw [hole_of_narrow hnarrow]
    exact Block.forall_mem_bind (by simp [Command.isWork, Command.isCarving])
      fun _ _ => isWork_peck f
  · rw [hole_of_wide hnarrow]
    exact Block.forall_mem_bind (by simp [Command.isWork, Command.isCarving])
      fun _ _ => isWork_path f _

theorem isWork_pocket (f : Frame α) (p : Pocket α) : ∀ c ∈ (pocket o f p).commands, c.isWork := by
  unfold pocket
  dsimp only
  split_ifs
  · simp
  · simp
  · split
    · simp
    · next plan _ =>
      show ∀ c ∈ rings o f _ 0 plan.rings ++ toSafeHeight o, c.isWork
      cases plan.rings with
      | nil => exact isWork_toSafeHeight
      | cons r rest =>
        rw [rings_cons, List.append_assoc (ringEntry o 0 _)]
        refine isWork_between fun c hc => ?_
        rcases List.mem_append.mp hc with hc | hc
        · simp only [List.mem_cons, List.not_mem_nil, or_false] at hc
          rcases hc with rfl | rfl <;> rfl
        · exact carving_rings o f _ 1 Nat.one_ne_zero rest c hc

/-- A call that is no comment adds no text of its own. -/
theorem isWork_block {c : Call α} (h : c.isComment = false) :
    ∀ d ∈ (block o c).commands, d.isWork := by
  cases c with
  | comment f text => cases h
  | trace f p => exact isWork_path f p
  | hole f diameter => exact isWork_hole f diameter
  | pocket f p => exact isWork_pocket f p
  | pause f => simp [block, Command.isWork]

/-- The texts in a run that succeeds are those of the comments that its calls make, and its last
one. -/
theorem text_mem_program {job : Job α} {cuts : List (Cut α)}
    (h : (program o job cuts).result = .ok ()) (t : String) :
    .remark (.text t) ∈ (program o job cuts).commands ↔
      t = "Job done!" ∨ ∃ f, .comment f t ∈ (job.itinerary cuts).calls := by
  have hsetup : .remark (.text t) ∉ (setup o job).commands := by
    unfold setup
    cases job.system with
    | error e => simp
    | ok u => simp [toSafeHeight, rapidZ]
  have hshutdown : .remark (.text t) ∈ shutdown o ↔ t = "Job done!" := by
    simp [shutdown, toSafeHeight, rapidZ]
  have hwork : .remark (.text t) ∈ work o (job.itinerary cuts).calls ↔
      ∃ f, .comment f t ∈ (job.itinerary cuts).calls := by
    constructor
    · intro hmem
      obtain ⟨c, hc, hmem⟩ := List.mem_flatMap.mp hmem
      cases hcomment : c.isComment with
      | false => exact absurd (isWork_block hcomment _ hmem) Bool.false_ne_true
      | true =>
        cases c with
        | comment f text =>
          simp only [block, Block.commands_issue, List.mem_singleton, Command.remark.injEq,
            Remark.text.injEq] at hmem
          exact ⟨f, hmem ▸ hc⟩
        | _ => cases hcomment
    · rintro ⟨f, hc⟩
      exact List.mem_flatMap.mpr ⟨_, hc, List.mem_singleton.mpr rfl⟩
  rw [commands_program_of_ok h, List.mem_append, List.mem_append, hwork, hshutdown]
  constructor
  · rintro (hmem | hmem | hmem)
    · exact absurd hmem hsetup
    · exact Or.inr hmem
    · exact Or.inl hmem
  · rintro (hmem | hmem)
    · exact Or.inr (Or.inr hmem)
    · exact Or.inr (Or.inl hmem)

end Carve
end Toolpath
