import Toolpath.Form.Settings
import Toolpath.Proofs.Form.Record
import Toolpath.Proofs.Measure.Written

/-!
The document values of settings read back. Every setting comes back as it was, but for the diameter
of the bit: a tapered bit needs none, and where none is written the usual one is read.
-/
namespace Toolpath

/-- Whatever the diameter was, reading it where it is not written gives the usual one. -/
def BitSettings.withUsualDiameter (b : BitSettings) : BitSettings :=
  { b with diameter := b.diameter.or ({} : BitSettings).diameter }

/-- A flat bit that passes has a diameter of its own, and a tapered one is not asked for it. -/
theorem BitSettings.check_withUsualDiameter {b : BitSettings} (h : b.check = .ok ()) :
    b.withUsualDiameter.check = .ok () := by
  obtain ⟨name, kind, diameter, angle, tip⟩ := b
  cases kind with
  | flat =>
    cases diameter with
    | none => cases h
    | some d => rfl
  | vee => exact h

namespace Settings

def withUsualDiameter (s : Settings) : Settings := { s with bit := s.bit.withUsualDiameter }

/-- All lengths that the settings give. -/
def amounts (s : Settings) : List Amount :=
  s.stock.thickness.toList ++ s.bit.diameter.toList ++ s.bit.tipDiameter.toList ++
    [s.program.safeHeight, s.program.minimumFastZ, s.program.stepDown]

/-- All binary numbers that the settings give. -/
def numbers (s : Settings) : List Float :=
  s.bit.angle.toList ++ [s.program.feedRate, s.program.spindleSpeed]

/-- Settings of which everything can be read again. -/
structure Readable (s : Settings) : Prop where
  amounts : ∀ a ∈ s.amounts, a.Readable
  numbers : ∀ x ∈ s.numbers, x.isFinite

instance (s : Settings) : Decidable s.Readable :=
  decidable_of_iff ((∀ a ∈ s.amounts, a.Readable) ∧ ∀ x ∈ s.numbers, x.isFinite)
    ⟨fun ⟨h, h'⟩ => ⟨h, h'⟩, fun h => ⟨h.amounts, h.numbers⟩⟩

end Settings

namespace Form
open Decode
variable {src inner : Source} {s : Settings}

theorem float_of_isFinite {x : Float} (h : x.isFinite) : Decode.float src (.float x) = .ok x := by
  have hadmits : src.admits (.float x) := by
    cases src <;> simp [Source.admits, Value.depth, Value.isSound, h]
  rw [Decode.float, if_pos hadmits]

theorem amount_ofAmount {a : Amount} (h : a.Readable) : amount src (ofAmount a) = .ok a := by
  have hparse : Amount.parse a.toString = .ok a := Amount.read_toString h
  simp only [amount, ofAmount, string, bind, Except.bind, hparse]

theorem option_amount {a : Amount} (h : a.Readable) :
    option amount src (ofAmount a) = .ok (some a) :=
  congrArg (some <$> ·) (amount_ofAmount h)

theorem option_float {x : Float} (h : x.isFinite) :
    option Decode.float src (.float x) = .ok (some x) :=
  congrArg (some <$> ·) (float_of_isFinite h)

theorem toKind_ofKind (k : BitKind) : toKind src (ofKind k) = .ok k := by
  cases k <;> cases src <;> rfl

theorem toCommentMode_toString (m : CommentMode) :
    toCommentMode src (.str m.toString) = .ok m := by
  cases m <;> cases src <;> rfl

theorem index_natCast (n : Nat) : index src (.int n) = .ok n := by
  simp [index]

/-! ### The three records -/

def stockFields (s : StockSettings) : List (String × Option Value) :=
  [("name", s.name.map .str), ("native_unit", some (.str s.nativeUnit)),
    ("thickness", s.thickness.map ofAmount)]

def bitFields (b : BitSettings) : List (String × Option Value) :=
  [("name", b.name.map .str), ("profile", some (ofKind b.kind)),
    ("diameter", b.diameter.map ofAmount), ("angle", b.angle.map .float),
    ("tip_diameter", b.tipDiameter.map ofAmount)]

def programFields (p : ProgramSettings) : List (String × Option Value) :=
  [("safe_height", some (ofAmount p.safeHeight)),
    ("minimum_fast_z", some (ofAmount p.minimumFastZ)), ("step_down", some (ofAmount p.stepDown)),
    ("feed_rate", some (.float p.feedRate)), ("spindle_speed", some (.float p.spindleSpeed)),
    ("fraction_digits", some (.int p.fractionDigits)),
    ("comment_mode", some (.str p.commentMode.toString))]

def settingsFields (s : Settings) : List (String × Option Value) :=
  [("job", some (ofStockSettings s.stock)), ("bit", some (ofBitSettings s.bit)),
    ("gcode", some (ofProgramSettings s.program))]

theorem ofStockSettings_eq (s : StockSettings) :
    ofStockSettings s = .obj (written (stockFields s)) := by
  simp [ofStockSettings, stockFields, written, member]

theorem ofBitSettings_eq (b : BitSettings) : ofBitSettings b = .obj (written (bitFields b)) := by
  simp [ofBitSettings, bitFields, written, member]

theorem ofProgramSettings_eq (p : ProgramSettings) :
    ofProgramSettings p = .obj (written (programFields p)) := rfl

theorem toStockSettings_ofStockSettings {s : StockSettings} (henter : src.enter = .ok inner)
    (h : ∀ a ∈ s.thickness, a.Readable) : toStockSettings src (ofStockSettings s) = .ok s := by
  have hkeys : ((stockFields s).map (·.1)).Nodup :=
    (by decide : ["name", "native_unit", "thickness"].Nodup)
  rw [ofStockSettings_eq]
  refine record_written henter (by simp [stockFields, ofAmount]) ?_
  dsimp only
  rw [field_of_option hkeys (List.mem_of_getElem? (i := 0) rfl) fun _ _ => rfl,
    field_of_mem hkeys (List.mem_of_getElem? (i := 1) rfl) rfl,
    field_of_option hkeys (List.mem_of_getElem? (i := 2) rfl) fun a ha => option_amount (h a ha),
    Option.or_none, Option.or_none]
  rfl

/-- The one field whose usual value is not nothing is the diameter. -/
theorem toBitSettings_ofBitSettings {b : BitSettings} (henter : src.enter = .ok inner)
    (hdiameter : ∀ a ∈ b.diameter, a.Readable) (hangle : ∀ x ∈ b.angle, x.isFinite)
    (htip : ∀ a ∈ b.tipDiameter, a.Readable) :
    toBitSettings src (ofBitSettings b) = .ok b.withUsualDiameter := by
  have hkeys : ((bitFields b).map (·.1)).Nodup :=
    (by decide : ["name", "profile", "diameter", "angle", "tip_diameter"].Nodup)
  have hsound : ∀ e ∈ bitFields b, ∀ d, e.2 ≠ some (.defect d) := by
    cases hk : b.kind <;> simp [bitFields, ofAmount, ofKind, hk]
  rw [ofBitSettings_eq]
  refine record_written henter hsound ?_
  dsimp only
  rw [field_of_option hkeys (List.mem_of_getElem? (i := 0) rfl) fun _ _ => rfl,
    field_of_mem hkeys (List.mem_of_getElem? (i := 1) rfl) (toKind_ofKind _),
    field_of_option hkeys (List.mem_of_getElem? (i := 2) rfl)
      fun a ha => option_amount (hdiameter a ha),
    field_of_option hkeys (List.mem_of_getElem? (i := 3) rfl)
      fun x hx => option_float (hangle x hx),
    field_of_option hkeys (List.mem_of_getElem? (i := 4) rfl)
      fun a ha => option_amount (htip a ha), Option.or_none, Option.or_none, Option.or_none]
  rfl

theorem toProgramSettings_ofProgramSettings {p : ProgramSettings} (henter : src.enter = .ok inner)
    (hamounts : ∀ a ∈ [p.safeHeight, p.minimumFastZ, p.stepDown], a.Readable)
    (hnumbers : ∀ x ∈ [p.feedRate, p.spindleSpeed], x.isFinite) :
    toProgramSettings src (ofProgramSettings p) = .ok p := by
  have hkeys : ((programFields p).map (·.1)).Nodup :=
    (by decide : ["safe_height", "minimum_fast_z", "step_down", "feed_rate", "spindle_speed",
      "fraction_digits", "comment_mode"].Nodup)
  rw [ofProgramSettings_eq]
  refine record_written henter (by simp [programFields, ofAmount]) ?_
  dsimp only
  rw [field_of_mem hkeys (List.mem_of_getElem? (i := 0) rfl)
      (amount_ofAmount (hamounts _ (by simp))),
    field_of_mem hkeys (List.mem_of_getElem? (i := 1) rfl)
      (amount_ofAmount (hamounts _ (by simp))),
    field_of_mem hkeys (List.mem_of_getElem? (i := 2) rfl)
      (amount_ofAmount (hamounts _ (by simp))),
    field_of_mem hkeys (List.mem_of_getElem? (i := 3) rfl)
      (float_of_isFinite (hnumbers _ (by simp))),
    field_of_mem hkeys (List.mem_of_getElem? (i := 4) rfl)
      (float_of_isFinite (hnumbers _ (by simp))),
    field_of_mem hkeys (List.mem_of_getElem? (i := 5) rfl) (index_natCast _),
    field_of_mem hkeys (List.mem_of_getElem? (i := 6) rfl) (toCommentMode_toString _)]
  rfl

/-- Settings read back from the value that is written for them, whatever the value comes from. -/
theorem toSettings_ofSettings (henter : src.enter = .ok inner) {inmost : Source}
    (hinner : inner.enter = .ok inmost) (h : s.Readable) :
    toSettings src (ofSettings s) = .ok s.withUsualDiameter := by
  have hkeys : ((settingsFields s).map (·.1)).Nodup := (by decide : ["job", "bit", "gcode"].Nodup)
  have heq : ofSettings s = .obj (written (settingsFields s)) := rfl
  have hsound : ∀ e ∈ settingsFields s, ∀ d, e.2 ≠ some (.defect d) := by
    simp [settingsFields, ofStockSettings, ofBitSettings, ofProgramSettings]
  have hstock := toStockSettings_ofStockSettings (s := s.stock) hinner fun a ha =>
    h.amounts a (by simp [Settings.amounts, Option.mem_def.mp ha])
  have hbit := toBitSettings_ofBitSettings (b := s.bit) hinner
    (fun a ha => h.amounts a (by simp [Settings.amounts, Option.mem_def.mp ha]))
    (fun x hx => h.numbers x (by simp [Settings.numbers, Option.mem_def.mp hx]))
    (fun a ha => h.amounts a (by simp [Settings.amounts, Option.mem_def.mp ha]))
  have hprogram := toProgramSettings_ofProgramSettings (p := s.program) hinner
    (fun a ha => h.amounts a (List.mem_append_right _ ha))
    (fun x hx => h.numbers x (List.mem_append_right _ hx))
  rw [heq]
  refine record_written henter hsound ?_
  rw [field_of_mem hkeys (List.mem_of_getElem? (i := 0) rfl) hstock,
    field_of_mem hkeys (List.mem_of_getElem? (i := 1) rfl) hbit,
    field_of_mem hkeys (List.mem_of_getElem? (i := 2) rfl) hprogram]
  rfl

end Form
end Toolpath
