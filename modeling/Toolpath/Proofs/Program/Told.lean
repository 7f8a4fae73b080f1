import Toolpath.Proofs.Program.Pocket

/-! Commands as they are told: an arc's center is told from where the tool is. What a leaf issues is
told the same wherever the tool was left, as it begins over a point of its own. -/
namespace Toolpath

namespace Block
variable {α β γ δ : Type}

theorem andThen_assoc (b : Block α β) (next : β → Block α γ) (last : γ → Block α δ) :
    (b.andThen next).andThen last = b.andThen fun x => (next x).andThen last := by
  unfold andThen
  cases b.result with
  | error e => rfl
  | ok x =>
    dsimp only
    cases (next x).result with
    | error e => rfl
    | ok y => simp only [List.append_assoc]

@[simp] theorem fail_bind (e : CarveError α) (next : β → Block α γ) :
    ((fail e : Block α β) >>= next) = fail e := rfl

instance : LawfulMonad (Block α) := LawfulMonad.mk' _
  (fun ⟨commands, result⟩ => by
    cases result with
    | error e => rfl
    | ok x => exact congrArg (Block.mk · (.ok x)) (List.append_nil commands))
  (fun _ _ => rfl)
  andThen_assoc

theorem result_of_forM_ok {ι : Type} {l : List ι} {g : ι → Block α Unit}
    (h : (l.forM g).result = .ok ()) : ∀ x ∈ l, (g x).result = .ok () := by
  induction l with
  | nil => simp
  | cons x rest ih =>
    obtain ⟨_, hx, hrest⟩ := exists_of_bind_ok h
    exact List.forall_mem_cons.mpr ⟨hx, ih hrest⟩

/-- Blocks that all succeed are one list of commands. -/
theorem forM_of_ok {ι : Type} {l : List ι} {g : ι → Block α Unit}
    (h : ∀ x ∈ l, (g x).result = .ok ()) :
    l.forM g = issue (l.flatMap fun x => (g x).commands) := by
  induction l with
  | nil => rfl
  | cons x rest ih =>
    obtain ⟨hx, hrest⟩ := List.forall_mem_cons.mp h
    change (g x >>= fun _ => rest.forM g) = _
    rw [bind_of_ok hx, ih hrest, List.flatMap_cons]
    rfl

end Block

namespace Machine
variable {α : Type} [Scalar α] {s : Style α}

/-- A command as it is told: the center of an arc is told from where the tool is. -/
def tell (m : Machine α) : Command α → Command α
  | .arc counterClockwise finish center =>
    .arc counterClockwise finish
      { center with x := center.x - m.position.x, y := center.y - m.position.y }
  | c => c

/-- Commands as they are told one after another. -/
def told (s : Style α) (m : Machine α) (l : List (Command α)) : List (Command α) :=
  m.gather s (fun m c => [m.tell c]) l

@[simp] theorem told_cons (m : Machine α) (c : Command α) (rest : List (Command α)) :
    m.told s (c :: rest) = m.tell c :: (m.step s c).1.told s rest := rfl

theorem told_append (m : Machine α) (a b : List (Command α)) :
    m.told s (a ++ b) = m.told s a ++ (m.run s a).1.told s b := gather_append _ m a b

/-- Whether the tool is over the same point of the XY plane. -/
def Above (m : Machine α) (p : Vec α) : Prop := m.position.x = p.x ∧ m.position.y = p.y

theorem Above.step {m m' : Machine α} (h : m.Above m'.position) (c : Command α) :
    (m.step s c).1.Above (m'.step s c).1.position := by
  obtain ⟨hx, hy⟩ := h
  cases c with
  | rapid t => exact ⟨congrArg t.x.getD hx, congrArg t.y.getD hy⟩
  | feed t => exact ⟨congrArg t.x.getD hx, congrArg t.y.getD hy⟩
  | arc counterClockwise finish center => exact ⟨rfl, rfl⟩
  | _ => exact ⟨hx, hy⟩

/-- What is told depends only on the point that the tool is over. -/
theorem told_congr {m m' : Machine α} (h : m.Above m'.position) (l : List (Command α)) :
    m.told s l = m'.told s l := by
  induction l generalizing m m' with
  | nil => rfl
  | cons c rest ih =>
    have htell : m.tell c = m'.tell c := by
      cases c with
      | arc counterClockwise finish center => rw [tell, tell, h.1, h.2]
      | _ => rfl
    rw [told_cons, told_cons, htell, ih (h.step c)]

theorem told_of_forall {l : List (Command α)} (h : ∀ c ∈ l, ∀ m : Machine α, m.tell c = c)
    (m : Machine α) : m.told s l = l := by
  induction l generalizing m with
  | nil => rfl
  | cons c rest ih =>
    rw [told_cons, h c List.mem_cons_self, ih fun d hd => h d (List.mem_cons_of_mem c hd)]

end Machine

namespace Block
variable {α β γ : Type} [Scalar α] {s : Style α}

/-- A block as it is told from where the tool is. -/
def told (s : Style α) (m : Machine α) (b : Block α β) : Block α β :=
  ⟨m.told s b.commands, b.result⟩

/-- A block that is told the same wherever the tool is. -/
def Portable (s : Style α) (b : Block α β) : Prop := ∀ m m', b.told s m = b.told s m'

theorem told_bind {b : Block α β} {next : β → Block α γ} (h : ∀ x, (next x).Portable s)
    (m : Machine α) : (b >>= next).told s m = b.told s m >>= fun x => (next x).told s m := by
  cases hb : b.result with
  | error e =>
    have htold : (b.told s m).result = .error e := hb
    rw [bind_of_error hb, bind_of_error htold]
    rfl
  | ok x =>
    have htold : (b.told s m).result = .ok x := hb
    have hnext : (m.run s b.commands).1.told s (next x).commands = m.told s (next x).commands :=
      congrArg commands (h x _ m)
    rw [bind_of_ok hb, bind_of_ok htold, told, Machine.told_append, hnext]
    rfl

theorem Portable.bind {b : Block α β} {next : β → Block α γ} (hb : b.Portable s)
    (hn : ∀ x, (next x).Portable s) : (b >>= next).Portable s := by
  intro m m'
  rw [told_bind hn, told_bind hn, hb m m']
  exact congrArg _ (funext fun x => hn x m m')

theorem portable_pure (x : β) : (pure x : Block α β).Portable s := fun _ _ => rfl

theorem portable_fail (e : CarveError α) : (fail e : Block α β).Portable s := fun _ _ => rfl

theorem portable_issue {l : List (Command α)} (h : ∀ c ∈ l, ∀ m : Machine α, m.tell c = c) :
    (issue l).Portable s := fun m m' => by
  rw [told, told, commands_issue, Machine.told_of_forall h, Machine.told_of_forall h]

theorem portable_forM {ι : Type} {l : List ι} {g : ι → Block α Unit}
    (h : ∀ x, (g x).Portable s) : (l.forM g).Portable s := by
  induction l with
  | nil => exact portable_pure ()
  | cons x rest ih => exact (h x).bind fun _ => ih

theorem told_forM {ι : Type} {l : List ι} {g : ι → Block α Unit} (h : ∀ x, (g x).Portable s)
    (m : Machine α) : (l.forM g).told s m = l.forM fun x => (g x).told s m := by
  induction l with
  | nil => rfl
  | cons x rest ih =>
    change (g x >>= fun _ => rest.forM g).told s m = ((g x).told s m >>= fun _ => rest.forM _)
    rw [told_bind fun _ => portable_forM h, ih]

end Block

namespace Carve
open Machine
variable {α : Type} [Scalar α] {s : Style α}

theorem above_approach (o : Options α) (m : Machine α) (v : Vec α) :
    (m.run s (approach o v)).1.Above v := by
  unfold approach
  rw [fst_run_append]
  split_ifs <;> exact ⟨rfl, rfl⟩

theorem told_approach (o : Options α) (m : Machine α) (v : Vec α) :
    m.told s (approach o v) = approach o v := by
  unfold approach
  dsimp only
  rw [told_append]
  split_ifs <;> rfl

/-- After an approach nothing depends on where the tool came from. -/
theorem portable_approach_bind {β : Type} (o : Options α) (v : Vec α) (next : Unit → Block α β) :
    (Block.issue (approach o v) >>= next).Portable s := by
  intro m m'
  have hover : (m.run s (approach o v)).1.Above (m'.run s (approach o v)).1.position := by
    obtain ⟨hx, hy⟩ := above_approach (s := s) o m v
    obtain ⟨hx', hy'⟩ := above_approach (s := s) o m' v
    exact ⟨hx.trans hx'.symm, hy.trans hy'.symm⟩
  rw [Block.issue_bind, Block.told, Block.told]
  dsimp only
  rw [told_append, told_append, told_approach, told_approach, told_congr hover]

theorem portable_path (o : Options α) (f : Frame α) (p : Path α) : (path o f p).Portable s := by
  cases hv : p.start? with
  | none =>
    rw [path_of_no_start hv]
    exact Block.portable_pure ()
  | some v =>
    by_cases hd : (descent o f v).passes = []
    · rw [path_of_no_pass hv hd]
      exact Block.portable_pure ()
    · rw [path_of_passes hv hd]
      exact portable_approach_bind o _ _

theorem portable_peck (o : Options α) (f : Frame α) : (peck o f).Portable s := by
  by_cases h : (f.place .zero).z ≤ f.bottom .zero
  · rw [peck_of_le h]
    exact Block.portable_pure ()
  · have hissue : Block.issue (approach o (f.place .zero) ++ pecks o f ++ toSafeHeight o) =
        (Block.issue (approach o (f.place .zero)) >>= fun _ =>
          Block.issue (pecks o f ++ toSafeHeight o)) := by
      rw [Block.issue_bind, List.append_assoc]
      rfl
    rw [peck_of_not_le h, hissue]
    exact portable_approach_bind o _ _

theorem portable_pocket (o : Options α) (f : Frame α) (p : Pocket α) :
    (pocket o f p).Portable s := by
  rw [pocket_eq]
  split_ifs
  · exact Block.portable_fail _
  · exact Block.portable_pure ()
  · cases pocketPlan f p with
    | error e => exact Block.portable_fail _
    | ok plan =>
      obtain ⟨rest, hrings⟩ := plan.exists_rings_eq_cons
      dsimp only
      rw [hrings, rings_cons, ringEntry, if_pos rfl, List.append_assoc, List.append_assoc]
      exact portable_approach_bind o _ fun _ => Block.issue _

/-- What a call issues is told the same wherever the tool was left. -/
theorem portable_block (o : Options α) (c : Call α) : (block o c).Portable s := by
  have hremark (r : Remark α) : (Block.issue [.remark r]).Portable s :=
    Block.portable_issue fun c hc m => by rw [List.mem_singleton.mp hc]; rfl
  cases c with
  | comment f text => exact hremark _
  | pause f => exact Block.portable_issue fun c hc m => by rw [List.mem_singleton.mp hc]; rfl
  | trace f p => exact portable_path o f p
  | pocket f p => exact portable_pocket o f p
  | hole f diameter =>
    rw [block]
    by_cases hnarrow : f.length diameter - f.job.bit.tipWidth ≤ 0
    · rw [hole_of_narrow hnarrow]
      exact (hremark _).bind fun _ => portable_peck o f
    · rw [hole_of_wide hnarrow]
      exact (hremark _).bind fun _ => portable_path o f _

end Carve
end Toolpath
