import Toolpath.Program.Machine
import Mathlib.Tactic.SplitIfs

/-! Where commands leave the tool. Heights and phases do not depend on how numbers are written. -/
namespace Toolpath

namespace Command
variable {α : Type}

/-- The height that a command sends the tool to. -/
def height? : Command α → Option α
  | .rapid t => t.z
  | .feed t => t.z
  | _ => none

/-- The phase that a command puts the router in. -/
def phase? : Command α → Option Phase
  | .enter p => some p
  | _ => none

/-- Whether a command cuts: a straight move at feed rate, or an arc. -/
def isFeed : Command α → Bool
  | .feed _ => true
  | .arc _ _ _ => true
  | _ => false

/-- Whether a command cuts at the height that the tool is at. -/
def isLateral : Command α → Bool
  | .feed t => t.z.isNone
  | .arc _ _ _ => true
  | _ => false

/-- Whether a command only feeds, changes the phase or remarks on a number. -/
def isCarving : Command α → Bool
  | .feed _ => true
  | .arc _ _ _ => true
  | .enter _ => true
  | .remark (.text _) => false
  | .remark _ => true
  | _ => false

theorem isCarving_of_isLateral {c : Command α} (h : c.isLateral) : c.isCarving := by
  cases c <;> simp_all [isLateral, isCarving]

theorem height?_of_isLateral {c : Command α} (h : c.isLateral) : c.height? = none := by
  cases c <;> simp_all [isLateral, height?]

end Command

namespace Machine
variable {α : Type} [Scalar α]

@[simp] theorem height_step (s : Style α) (m : Machine α) (c : Command α) :
    (m.step s c).1.position.z = c.height?.getD m.position.z := by
  cases c <;> rfl

@[simp] theorem phase_step (s : Style α) (m : Machine α) (c : Command α) :
    (m.step s c).1.phase = c.phase?.getD m.phase := by
  cases c <;> rfl

@[simp] theorem run_nil (s : Style α) (m : Machine α) : m.run s [] = (m, []) := rfl

@[simp] theorem run_cons (s : Style α) (m : Machine α) (c : Command α) (rest : List (Command α)) :
    m.run s (c :: rest) =
      (((m.step s c).1.run s rest).1, (m.step s c).2 ++ ((m.step s c).1.run s rest).2) := rfl

theorem run_append (s : Style α) (m : Machine α) (a b : List (Command α)) :
    m.run s (a ++ b) = (((m.run s a).1.run s b).1, (m.run s a).2 ++ ((m.run s a).1.run s b).2) := by
  induction a generalizing m with
  | nil => rfl
  | cons c rest ih => rw [List.cons_append, run_cons, run_cons, ih, List.append_assoc]

@[simp] theorem fst_run_append (s : Style α) (m : Machine α) (a b : List (Command α)) :
    (m.run s (a ++ b)).1 = ((m.run s a).1.run s b).1 := by
  rw [run_append]

theorem height_run_of_level {s : Style α} {m : Machine α} {l : List (Command α)}
    (h : ∀ c ∈ l, c.height? = none) : (m.run s l).1.position.z = m.position.z := by
  induction l generalizing m with
  | nil => rfl
  | cons c rest ih =>
    rw [run_cons, ih (fun d hd => h d (List.mem_cons_of_mem c hd)), height_step,
      h c List.mem_cons_self, Option.getD_none]

/-- Every command of a list meets a condition on the router that it is given to. -/
def Always (s : Style α) (P : Machine α → Command α → Prop) (m : Machine α) :
    List (Command α) → Prop
  | [] => True
  | c :: rest => P m c ∧ Always s P (m.step s c).1 rest

variable {s : Style α} {P : Machine α → Command α → Prop}

@[simp] theorem always_nil (m : Machine α) : m.Always s P [] := trivial

@[simp] theorem always_cons {m : Machine α} {c : Command α} {rest : List (Command α)} :
    m.Always s P (c :: rest) ↔ P m c ∧ (m.step s c).1.Always s P rest := Iff.rfl

theorem always_append {m : Machine α} {a b : List (Command α)} :
    m.Always s P (a ++ b) ↔ m.Always s P a ∧ (m.run s a).1.Always s P b := by
  induction a generalizing m with
  | nil => simp
  | cons c rest ih => rw [List.cons_append, always_cons, always_cons, ih, and_assoc, run_cons]

theorem always_of_forall {m : Machine α} {l : List (Command α)} (h : ∀ c ∈ l, ∀ m, P m c) :
    m.Always s P l := by
  induction l generalizing m with
  | nil => trivial
  | cons c rest ih =>
    exact ⟨h c List.mem_cons_self m, ih fun d hd => h d (List.mem_cons_of_mem c hd)⟩

/-- A condition that always holds does so at each command, after all those before it. -/
theorem Always.apply {m : Machine α} {l before after : List (Command α)} {c : Command α}
    (h : m.Always s P l) (hl : l = before ++ c :: after) : P (m.run s before).1 c := by
  rw [hl, always_append, always_cons] at h
  exact h.2.1

/-- What is seen of commands in order, each with the router that it is given to. -/
def gather {β : Type} (s : Style α) (see : Machine α → Command α → List β) (m : Machine α) :
    List (Command α) → List β
  | [] => []
  | c :: rest => see m c ++ gather s see (m.step s c).1 rest

theorem gather_append {β : Type} (see : Machine α → Command α → List β) (m : Machine α)
    (a b : List (Command α)) :
    m.gather s see (a ++ b) = m.gather s see a ++ (m.run s a).1.gather s see b := by
  induction a generalizing m with
  | nil => rfl
  | cons c rest ih =>
    rw [List.cons_append, gather, gather, ih, run_cons, List.append_assoc]

theorem gather_eq_nil {β : Type} {see : Machine α → Command α → List β} {l : List (Command α)}
    (h : ∀ c ∈ l, ∀ m, see m c = []) (m : Machine α) : m.gather s see l = [] := by
  induction l generalizing m with
  | nil => rfl
  | cons c rest ih =>
    rw [gather, h c List.mem_cons_self, ih fun d hd => h d (List.mem_cons_of_mem c hd)]
    rfl

/-- The heights that feed commands leave the tool at, in order. -/
def feedHeights (s : Style α) (m : Machine α) : List (Command α) → List α
  | [] => []
  | c :: rest =>
    let m' := (m.step s c).1
    if c.isFeed then m'.position.z :: feedHeights s m' rest else feedHeights s m' rest

@[simp] theorem feedHeights_nil (m : Machine α) : m.feedHeights s [] = [] := rfl

@[simp] theorem feedHeights_cons (m : Machine α) (c : Command α) (rest : List (Command α)) :
    m.feedHeights s (c :: rest) = if c.isFeed
      then (m.step s c).1.position.z :: (m.step s c).1.feedHeights s rest
      else (m.step s c).1.feedHeights s rest := rfl

theorem feedHeights_append (m : Machine α) (a b : List (Command α)) :
    m.feedHeights s (a ++ b) = m.feedHeights s a ++ (m.run s a).1.feedHeights s b := by
  induction a generalizing m with
  | nil => rfl
  | cons c rest ih =>
    rw [List.cons_append, feedHeights_cons, feedHeights_cons, run_cons, ih]
    split_ifs
    · rw [List.cons_append]
    · rfl

theorem feedHeights_of_forall_not_feed {m : Machine α} {l : List (Command α)}
    (h : ∀ c ∈ l, c.isFeed = false) : m.feedHeights s l = [] := by
  induction l generalizing m with
  | nil => rfl
  | cons c rest ih =>
    have hc : ¬ c.isFeed = true := by rw [h c List.mem_cons_self]; exact Bool.false_ne_true
    rw [feedHeights_cons, if_neg hc]
    exact ih fun d hd => h d (List.mem_cons_of_mem c hd)

theorem eq_of_mem_feedHeights_of_level {m : Machine α} {l : List (Command α)} {z : α}
    (h : ∀ c ∈ l, c.height? = none) (hz : z ∈ m.feedHeights s l) : z = m.position.z := by
  induction l generalizing m with
  | nil => cases hz
  | cons c rest ih =>
    have hstep : (m.step s c).1.position.z = m.position.z := by
      rw [height_step, h c List.mem_cons_self, Option.getD_none]
    have hrest := fun hz => (ih (fun d hd => h d (List.mem_cons_of_mem c hd)) hz).trans hstep
    rw [feedHeights_cons] at hz
    split_ifs at hz
    · rcases List.mem_cons.mp hz with rfl | hz
      · exact hstep
      · exact hrest hz
    · exact hrest hz

end Machine
end Toolpath
