import Toolpath.Proofs.Decimal.Numeral
import Toolpath.Proofs.Program.Motion

/-! A controller that reads the lines of a program. It keeps the last word of an axis that a line
leaves out, and so do the words that the program leaves out. -/
namespace Toolpath

inductive Axis where
  | x | y | z
  deriving Repr, DecidableEq

namespace Axis
variable {α : Type}

/-- The coordinate on an axis. -/
def of (v : Vec α) : Axis → α
  | x => v.x
  | y => v.y
  | z => v.z

/-- What a straight move sets an axis to. -/
def target? (t : Target α) : Axis → Option α
  | x => t.x
  | y => t.y
  | z => t.z

/-- The word last written for an axis. -/
def word? (m : Machine α) : Axis → Option String
  | x => m.xWord
  | y => m.yWord
  | z => m.zWord

/-- Whether a command sets an axis. An arc sets the axes of its plane. -/
def isSet (a : Axis) : Command α → Bool
  | .rapid t => (a.target? t).isSome
  | .feed t => (a.target? t).isSome
  | .arc _ _ _ => a != .z
  | _ => false

end Axis

/-- The word that a controller holds for each axis, none for one that it does not know. -/
abbrev Controller := Axis → Option String

namespace Controller

def unknown : Controller := fun _ => none

def hold (k : Controller) (a : Axis) (word : List Char) : Controller :=
  fun b => if b = a then some (String.ofList word) else k b

/-- Takes one word of a motion line. Words of no axis change nothing. -/
def take (k : Controller) : List Char → Controller
  | 'X' :: word => k.hold .x word
  | 'Y' :: word => k.hold .y word
  | 'Z' :: word => k.hold .z word
  | _ => k

/-- Reads a line in absolute mode. The lines that move the tool are `G00` to `G03`. -/
def read (k : Controller) (line : String) : Controller :=
  match line.toList with
  | 'G' :: '0' :: code :: words =>
    if ['0', '1', '2', '3'].contains code then (words.splitOn ' ').foldl take k else k
  | _ => k

/-- Reads lines one after another, knowing no axis before them. -/
def replay (lines : List String) : Controller := lines.foldl read unknown

theorem splitOn_fields {fields : List (List Char)} (h : ∀ w ∈ fields, ' ' ∉ w) (head : List Char)
    (hh : ' ' ∉ head) :
    (head ++ fields.flatMap (' ' :: ·)).splitOn ' ' = head :: fields := by
  induction fields generalizing head with
  | nil => rw [List.flatMap_nil, List.append_nil, List.splitOn_eq_singleton hh]
  | cons w rest ih =>
    rw [List.flatMap_cons, List.cons_append, List.splitOn_append_cons_self,
      List.splitOn_eq_singleton hh, ih (fun v hv => h v (List.mem_cons_of_mem w hv)) w
        (h w List.mem_cons_self)]
    rfl

theorem read_fields {line : String} {code : Char} {fields : List (List Char)}
    (hline : line.toList = 'G' :: '0' :: code :: fields.flatMap (' ' :: ·))
    (hcode : ['0', '1', '2', '3'].contains code) (h : ∀ w ∈ fields, ' ' ∉ w) (k : Controller) :
    k.read line = fields.foldl take k := by
  have hsplit := splitOn_fields h [] List.not_mem_nil
  rw [List.nil_append] at hsplit
  unfold read
  rw [hline]
  show ite _ (((fields.flatMap (' ' :: ·)).splitOn ' ').foldl take k) k = _
  rw [if_pos hcode, hsplit]
  rfl

theorem read_of_head_ne {line : String} (h : line.toList.head? ≠ some 'G') (k : Controller) :
    k.read line = k := by
  unfold read
  split
  · next hline => exact absurd (by rw [hline]; rfl) h
  · rfl

/-- The words of a straight move, each behind the letter of its axis. -/
def fields (x y z : Option String) : List (List Char) :=
  (x.map ('X' :: ·.toList)).toList ++ (y.map ('Y' :: ·.toList)).toList ++
    (z.map ('Z' :: ·.toList)).toList

theorem foldl_take_fields (x y z : Option String) (k : Controller) :
    (fields x y z).foldl take k = fun
      | .x => x <|> k .x
      | .y => y <|> k .y
      | .z => z <|> k .z := by
  funext a
  cases x <;> cases y <;> cases z <;> cases a <;> simp [fields, take, hold]

end Controller

namespace Style
variable {α : Type} {s : Style α}

theorem changed?_orElse (last : Option String) (value : Option α) :
    (s.changed? last value <|> last) = (value.map s.number <|> last) := by
  cases value with
  | none => rfl
  | some v =>
    by_cases h : last = some (s.number v)
    · simp [changed?, h]
    · simp [changed?, h]

theorem changed?_eq_none {last : Option String} {value : Option α} :
    s.changed? last value = none ↔ ∀ v, value = some v → last = some (s.number v) := by
  cases value with
  | none => simp [changed?]
  | some v => simp [changed?]

theorem exists_of_changed?_eq_some {last : Option String} {value : Option α} {w : String}
    (h : s.changed? last value = some w) : ∃ v, w = s.number v := by
  cases value with
  | none => cases h
  | some v =>
    by_cases hl : last = some (s.number v)
    · simp [changed?, hl] at h
    · simp only [changed?, if_neg hl] at h
      exact ⟨v, (Option.some.inj h).symm⟩

end Style

namespace Machine
open Controller
variable {α : Type} {s : Style α}

theorem word?_move (m : Machine α) (code : String) (t : Target α) (a : Axis) :
    a.word? (m.move s code t).1 = ((a.target? t).map s.number <|> a.word? m) := by
  cases a <;> exact Style.changed?_orElse _ _

theorem position_move (m : Machine α) (code : String) (t : Target α) (a : Axis) :
    a.of (m.move s code t).1.position = (a.target? t).getD (a.of m.position) := by
  cases a <;> rfl

/-- A straight move writes nothing exactly when each of its words is the last one already. -/
theorem lines_move_eq_nil {m : Machine α} {code : String} {t : Target α} :
    (m.move s code t).2 = [] ↔ ∀ a v, Axis.target? t a = some v → a.word? m = some (s.number v) := by
  have hwords : (m.move s code t).2 = [] ↔ s.changed? m.xWord t.x = none ∧
      s.changed? m.yWord t.y = none ∧ s.changed? m.zWord t.z = none := by
    unfold move
    cases s.changed? m.xWord t.x <;> cases s.changed? m.yWord t.y <;>
      cases s.changed? m.zWord t.z <;> simp
  rw [hwords, Style.changed?_eq_none, Style.changed?_eq_none, Style.changed?_eq_none]
  constructor
  · rintro ⟨hx, hy, hz⟩ a
    cases a with
    | x => exact hx
    | y => exact hy
    | z => exact hz
  · intro h
    exact ⟨h .x, h .y, h .z⟩

theorem lines_move (s : Style α) (m : Machine α) (code : String) (t : Target α) :
    (m.move s code t).2 = [] ∨ ∃ line, (m.move s code t).2 = [line] ∧ line.toList = code.toList ++
      (fields (s.changed? m.xWord t.x) (s.changed? m.yWord t.y)
        (s.changed? m.zWord t.z)).flatMap (' ' :: ·) := by
  unfold move
  cases s.changed? m.xWord t.x <;> cases s.changed? m.yWord t.y <;>
    cases s.changed? m.zWord t.z <;> simp [fields]

theorem blank_not_mem_fields (hs : ∀ v, ' ' ∉ (s.number v).toList) (m : Machine α) (t : Target α) :
    ∀ w ∈ fields (s.changed? m.xWord t.x) (s.changed? m.yWord t.y) (s.changed? m.zWord t.z),
      ' ' ∉ w := by
  have hword : ∀ {last value letter}, letter ≠ ' ' → ∀ w ∈ ((s.changed? last value).map
      (letter :: ·.toList)).toList, ' ' ∉ w := by
    intro last value letter hl w hw
    obtain ⟨v, hv, rfl⟩ := Option.map_eq_some_iff.mp (Option.mem_toList.mp hw)
    obtain ⟨x, rfl⟩ := Style.exists_of_changed?_eq_some hv
    simp [hs, hl.symm]
  intro w hw
  rcases List.mem_append.mp hw with hw | hw
  · rcases List.mem_append.mp hw with hw | hw
    · exact hword (by decide) w hw
    · exact hword (by decide) w hw
  · exact hword (by decide) w hw

theorem read_move (hs : ∀ v, ' ' ∉ (s.number v).toList) (m : Machine α) {code : Char}
    (hcode : ['0', '1', '2', '3'].contains code) (t : Target α) {word : String}
    (hword : word.toList = ['G', '0', code]) :
    (m.move s word t).2.foldl read (fun a => a.word? m) = fun a => a.word? (m.move s word t).1 := by
  rcases lines_move s m word t with h | ⟨line, h, hline⟩
  · rw [h]
    funext a
    have hlast := lines_move_eq_nil.mp h a
    rw [word?_move]
    cases ht : a.target? t with
    | none => rfl
    | some v => exact hlast v ht
  · rw [hword] at hline
    rw [h, List.foldl_cons, List.foldl_nil,
      read_fields hline hcode (blank_not_mem_fields hs m t), foldl_take_fields]
    funext a
    cases a <;> rfl

variable [Scalar α]

/-- The word of an axis after a command is that of its position if the command sets it. -/
theorem word?_step (m : Machine α) (c : Command α) (a : Axis) :
    a.word? (m.step s c).1 =
      if a.isSet c then some (s.number (a.of (m.step s c).1.position)) else a.word? m := by
  have hmove : ∀ code t, a.word? (m.move s code t).1 = if (a.target? t).isSome
      then some (s.number (a.of (m.move s code t).1.position)) else a.word? m := by
    intro code t
    rw [word?_move, position_move]
    cases a.target? t <;> rfl
  cases c with
  | rapid t => exact hmove "G00" t
  | feed t => exact hmove "G01" t
  | arc counterClockwise finish center => cases a <;> rfl
  | _ => rfl

theorem position_step_of_not_isSet (m : Machine α) {c : Command α} {a : Axis}
    (h : a.isSet c = false) : a.of (m.step s c).1.position = a.of m.position := by
  have hmove : ∀ code t, (a.target? t).isSome = false →
      a.of (m.move s code t).1.position = a.of m.position := by
    intro code t ht
    rw [position_move]
    cases hv : a.target? t with
    | none => rfl
    | some v => rw [hv] at ht; cases ht
  cases c with
  | rapid t => exact hmove "G00" t h
  | feed t => exact hmove "G01" t h
  | arc counterClockwise finish center =>
    cases a with
    | x => cases h
    | y => cases h
    | z => rfl
  | _ => rfl

theorem read_arc (hs : ∀ v, ' ' ∉ (s.number v).toList) (m : Machine α) (counterClockwise : Bool)
    (finish center : Vec α) :
    (m.arc s counterClockwise finish center).2.foldl read (fun a => a.word? m) =
      fun a => a.word? (m.arc s counterClockwise finish center).1 := by
  have hfields : ∀ w ∈ ['X' :: (s.number finish.x).toList, 'Y' :: (s.number finish.y).toList,
      'I' :: (s.number (center.x - m.position.x)).toList,
      'J' :: (s.number (center.y - m.position.y)).toList], ' ' ∉ w := by
    simp [hs]
  have hread : ∀ {line} code, ['0', '1', '2', '3'].contains code →
      line.toList = 'G' :: '0' :: code :: List.flatMap (' ' :: ·) [
        'X' :: (s.number finish.x).toList, 'Y' :: (s.number finish.y).toList,
        'I' :: (s.number (center.x - m.position.x)).toList,
        'J' :: (s.number (center.y - m.position.y)).toList] →
      [line].foldl read (fun a => a.word? m) =
        fun a => a.word? (m.arc s counterClockwise finish center).1 := by
    intro line code hcode hline
    rw [List.foldl_cons, List.foldl_nil, read_fields hline hcode hfields]
    funext a
    cases a <;> simp [take, hold, Axis.word?, arc]
  cases counterClockwise with
  | false => exact hread '2' rfl (by simp)
  | true => exact hread '3' rfl (by simp)

/-- What a command writes tells a controller the words that change. -/
theorem read_step (hs : ∀ v, ' ' ∉ (s.number v).toList) (m : Machine α) (c : Command α) :
    (m.step s c).2.foldl read (fun a => a.word? m) = fun a => a.word? (m.step s c).1 := by
  have hother : ∀ {line : String}, line.toList.head? ≠ some 'G' →
      [line].foldl read (fun a => a.word? m) = fun a => a.word? m :=
    fun h => read_of_head_ne h _
  cases c with
  | rapid t => exact read_move hs m rfl t rfl
  | feed t => exact read_move hs m rfl t rfl
  | arc counterClockwise finish center => exact read_arc hs m counterClockwise finish center
  | remark r =>
    show (s.commentLines (s.remarkText r)).foldl read _ = _
    unfold Style.commentLines
    cases s.comments with
    | none => rfl
    | parentheses => exact hother (by simp)
    | semicolon => exact hother (by simp)
  | feedRate rate => exact hother (by simp)
  | spindleSpeed speed => exact hother (by simp)
  | system u => cases u <;> rfl
  | _ => rfl

theorem read_run (hs : ∀ v, ' ' ∉ (s.number v).toList) (m : Machine α)
    (commands : List (Command α)) :
    (m.run s commands).2.foldl read (fun a => a.word? m) =
      fun a => a.word? (m.run s commands).1 := by
  induction commands generalizing m with
  | nil => rfl
  | cons c rest ih => rw [run_cons, List.foldl_append, read_step hs, ih]

/-- Commands that do not set an axis change neither its word nor the position on it. After the last
one that does, its word is that of the position. -/
theorem word?_run (m : Machine α) (commands : List (Command α)) (a : Axis) :
    if commands.any a.isSet
      then a.word? (m.run s commands).1 = some (s.number (a.of (m.run s commands).1.position))
      else a.word? (m.run s commands).1 = a.word? m ∧
        a.of (m.run s commands).1.position = a.of m.position := by
  induction commands generalizing m with
  | nil => exact ⟨rfl, rfl⟩
  | cons c rest ih =>
    have hrest := ih (m.step s c).1
    have hc := word?_step (s := s) m c a
    rw [run_cons, List.any_cons]
    cases hr : rest.any a.isSet with
    | true =>
      rw [hr, if_pos rfl] at hrest
      rw [Bool.or_true, if_pos rfl]
      exact hrest
    | false =>
      rw [hr, if_neg Bool.false_ne_true] at hrest
      obtain ⟨hword, hposition⟩ := hrest
      rw [Bool.or_false, hword, hposition, hc]
      cases hset : a.isSet c with
      | true => rfl
      | false => exact ⟨rfl, position_step_of_not_isSet m hset⟩

end Machine
end Toolpath
