import Toolpath.Proofs.Document.Json.RoundTrip
import Toolpath.Proofs.Document.Toml.RoundTrip
import Toolpath.Proofs.Form.Settings
import Toolpath.Proofs.Scalar.SignedZero
import Toolpath.Settings.File

/-!
Settings that are saved and loaded again come back equal if and only if their bit has a diameter.
Nothing is asked of a format but that it reads the binary numbers of the settings as it writes them.
-/
namespace Toolpath

namespace FileFormat

/-- Whether a format reads a binary number as it writes it. -/
def ReadsBack : FileFormat → Float → Prop
  | .json, x => Json.NumeralOf (Json.floatText x).toList (.float x)
  | .toml, x => Toml.BareText (Toml.numbers.write x).toList (.float x)

/-- The least whole number that a format does not hold. -/
def wholeLimit : FileFormat → Nat
  | .json => 0x10000000000000000
  | .toml => 0x8000000000000000

/-- The binary number that a value is. -/
def float? : Value → Option Float
  | .float x => some x
  | _ => none

instance (v : Option Value) (x : Float) : Decidable (v = some (.float x)) :=
  decidable_of_iff (v.bind float? = some x) (by
    cases v with
    | none => simp
    | some v => cases v <;> simp [float?])

instance (format : FileFormat) (x : Float) : Decidable (format.ReadsBack x) :=
  match format with
  | .json => decidable_of_iff _ (Json.numeralOf_iff _ (.float x)).symm
  | .toml => decidable_of_iff _ (Toml.bareText_iff _ (.float x)).symm

end FileFormat

namespace Settings
variable {s : Settings} {format : FileFormat} {path text : String}

/-! ### Checks and equality -/

theorem withUsualDiameter_of_isSome (h : s.bit.diameter.isSome) : s.withUsualDiameter = s := by
  obtain ⟨d, hd⟩ := Option.isSome_iff_exists.mp h
  unfold withUsualDiameter BitSettings.withUsualDiameter
  rw [hd, Option.some_or, ← hd]

theorem check_withUsualDiameter (h : s.check = .ok ()) : s.withUsualDiameter.check = .ok () := by
  obtain ⟨_, hstock, hrest⟩ := exists_of_bind_eq_ok h
  obtain ⟨_, hbit, hprogram⟩ := exists_of_bind_eq_ok hrest
  simp only [check, withUsualDiameter, hstock, BitSettings.check_withUsualDiameter hbit, hprogram,
    bind, Except.bind]

theorem beq_self_of_isFinite {x : Float} (h : x.isFinite) : (x == x) = true := by
  rcases UnpackedAlike.beq_or_isNaN (.same x.toModel.unpack) with heq | ⟨hnan, -⟩
  · exact heq
  · have : x.toModel.unpack.isFinite := h
    rw [hnan] at this
    cases this

theorem beq_self (h : s.Readable) : (s == s) = true := by
  -- equality is not lawful here: binary numbers that are not finite may differ from themselves
  have hangle : (s.bit.angle == s.bit.angle) = true := by
    cases hx : s.bit.angle with
    | none => rfl
    | some x =>
      have hmem : x ∈ s.numbers := by simp [numbers, hx]
      exact beq_self_of_isFinite (h.numbers x hmem)
  have hfeed := beq_self_of_isFinite (h.numbers s.program.feedRate (by simp [numbers]))
  have hspindle := beq_self_of_isFinite (h.numbers s.program.spindleSpeed (by simp [numbers]))
  have hstock : (s.stock == s.stock) = (s.stock.name == s.stock.name &&
      (s.stock.nativeUnit == s.stock.nativeUnit && s.stock.thickness == s.stock.thickness)) := rfl
  have hbit : (s.bit == s.bit) = (s.bit.name == s.bit.name && (s.bit.kind == s.bit.kind &&
      (s.bit.diameter == s.bit.diameter && (s.bit.angle == s.bit.angle &&
        s.bit.tipDiameter == s.bit.tipDiameter)))) := rfl
  have hprogram : (s.program == s.program) = (s.program.safeHeight == s.program.safeHeight &&
      (s.program.minimumFastZ == s.program.minimumFastZ &&
      (s.program.stepDown == s.program.stepDown && (s.program.feedRate == s.program.feedRate &&
      (s.program.spindleSpeed == s.program.spindleSpeed &&
      (s.program.fractionDigits == s.program.fractionDigits &&
        s.program.commentMode == s.program.commentMode)))))) := rfl
  have hparts : (s == s) = (s.stock == s.stock && (s.bit == s.bit && s.program == s.program)) := rfl
  have hkind : (s.bit.kind == s.bit.kind) = true := by cases s.bit.kind <;> rfl
  simp only [hparts, hstock, hbit, hprogram, hangle, hfeed, hspindle, hkind, beq_self_eq_true,
    Bool.and_self]

/-- Nothing is lost but that there was no diameter. -/
theorem withUsualDiameter_beq (h : s.Readable) :
    (s.withUsualDiameter == s) = s.bit.diameter.isSome := by
  cases hd : s.bit.diameter with
  | none =>
    have hdiameter : (s.withUsualDiameter.bit.diameter == s.bit.diameter) = false := by
      rw [hd]
      simp [withUsualDiameter, BitSettings.withUsualDiameter, hd]
    have hbit : (s.withUsualDiameter.bit == s.bit) = false := by
      change (_ && (_ && (s.withUsualDiameter.bit.diameter == s.bit.diameter && _))) = false
      rw [hdiameter, Bool.false_and, Bool.and_false, Bool.and_false]
    change (_ && (s.withUsualDiameter.bit == s.bit && _)) = false
    rw [hbit, Bool.false_and, Bool.and_false]
  | some d =>
    rw [withUsualDiameter_of_isSome (hd ▸ rfl), beq_self h]
    rfl

/-! ### Texts -/

/-- The fields of settings, each section under its name. -/
def sections (s : Settings) : List (String × List (String × Option Value)) :=
  [("job", Form.stockFields s.stock), ("bit", Form.bitFields s.bit),
    ("gcode", Form.programFields s.program)]

/-- The names of the sections and of their fields. -/
def keys : List (String × List String) :=
  [("job", ["name", "native_unit", "thickness"]),
    ("bit", ["name", "profile", "diameter", "angle", "tip_diameter"]),
    ("gcode", ["safe_height", "minimum_fast_z", "step_down", "feed_rate", "spindle_speed",
      "fraction_digits", "comment_mode"])]

theorem keys_sections (s : Settings) : s.sections.map (fun e => (e.1, e.2.map (·.1))) = keys := rfl

/-- What is written of the fields. -/
def tables (s : Settings) : List (String × List (String × Value)) :=
  s.sections.map fun (name, fields) => (name, Form.written fields)

theorem ofSettings_eq (s : Settings) :
    Form.ofSettings s = .obj (s.tables.map fun (name, members) => (name, .obj members)) := by
  rw [Form.ofSettings, Form.ofStockSettings_eq, Form.ofBitSettings_eq, Form.ofProgramSettings_eq]
  rfl

/-- What is written for settings: strings, their binary numbers and one whole number. -/
inductive IsScalar (s : Settings) : Value → Prop
  | str (t : String) : IsScalar s (.str t)
  | float {x : Float} (h : x ∈ s.numbers) : IsScalar s (.float x)
  | int : IsScalar s (.int s.program.fractionDigits)

theorem isScalar_of_mem_sections {e : String × List (String × Option Value)}
    (he : e ∈ s.sections) {f : String × Option Value} (hf : f ∈ e.2) {v : Value} (hv : v ∈ f.2) :
    s.IsScalar v := by
  have hstr : ∀ t, s.IsScalar (.str t) := .str
  have hfloat : ∀ x ∈ s.numbers, s.IsScalar (.float x) := fun _ => .float
  have hint : s.IsScalar (.int s.program.fractionDigits) := .int
  simp only [numbers, List.forall_mem_append, List.forall_mem_cons, Option.mem_toList] at hfloat
  have hstock : ∀ f ∈ Form.stockFields s.stock, ∀ v ∈ f.2, s.IsScalar v := by
    simp [Form.stockFields, Form.ofAmount, hstr]
  have hbit : ∀ f ∈ Form.bitFields s.bit, ∀ v ∈ f.2, s.IsScalar v := by
    cases hk : s.bit.kind <;>
      simp [Form.bitFields, Form.ofAmount, Form.ofKind, hstr, hk] <;>
      simpa using hfloat.1
  have hprogram : ∀ f ∈ Form.programFields s.program, ∀ v ∈ f.2, s.IsScalar v := by
    simp [Form.programFields, Form.ofAmount, hstr, hint, hfloat.2]
  have hall : ∀ e ∈ s.sections, ∀ f ∈ e.2, ∀ v ∈ f.2, s.IsScalar v :=
    List.forall_mem_cons.mpr ⟨hstock, List.forall_mem_cons.mpr ⟨hbit,
      List.forall_mem_singleton.mpr hprogram⟩⟩
  exact hall e he f hf v hv

theorem isScalar_of_mem_tables {e : String × List (String × Value)} (he : e ∈ s.tables)
    {f : String × Value} (hf : f ∈ e.2) : s.IsScalar f.2 := by
  obtain ⟨section', hsection, rfl⟩ := List.mem_map.mp he
  exact isScalar_of_mem_sections hsection (Form.mem_written.mp hf) rfl

theorem IsScalar.json {v : Value} (h : s.IsScalar v)
    (hdigits : s.program.fractionDigits < FileFormat.json.wholeLimit)
    (hnumbers : ∀ x ∈ s.numbers, FileFormat.json.ReadsBack x) : Json.Written v := by
  cases h with
  | str t => trivial
  | float hx => exact hnumbers _ hx
  | int =>
    have hlimit : s.program.fractionDigits < 0x10000000000000000 := hdigits
    have hlow : (-0x8000000000000000 : Int) ≤ s.program.fractionDigits := by omega
    have hhigh : (s.program.fractionDigits : Int) < 0x10000000000000000 := by omega
    exact ⟨hlow, hhigh⟩

theorem IsScalar.toml {v : Value} (h : s.IsScalar v)
    (hnumbers : ∀ x ∈ s.numbers, FileFormat.toml.ReadsBack x) : Toml.Written v := by
  cases h with
  | str t => trivial
  | float hx => exact hnumbers _ hx
  | int =>
    have hlow : (-0x8000000000000000 : Int) ≤ s.program.fractionDigits := by omega
    exact hlow

theorem IsScalar.exists_inline {v : Value} (h : s.IsScalar v)
    (hdigits : s.program.fractionDigits < FileFormat.toml.wholeLimit) :
    ∃ t, Toml.inline v = some t := by
  cases h with
  | str t => exact ⟨_, rfl⟩
  | float hx => exact ⟨_, rfl⟩
  | int =>
    have hlimit : s.program.fractionDigits < 0x8000000000000000 := hdigits
    have hhigh : (s.program.fractionDigits : Int) < 0x8000000000000000 := by omega
    exact ⟨Int.repr s.program.fractionDigits, by rw [Toml.inline, if_pos hhigh]⟩

theorem written_ofSettings (h : ∀ v, s.IsScalar v → Json.Written v) :
    Json.Written (Form.ofSettings s) := by
  rw [ofSettings_eq]
  refine Json.membersWritten_iff.mpr fun e he => ?_
  obtain ⟨t, ht, rfl⟩ := List.mem_map.mp he
  exact Json.membersWritten_iff.mpr fun f hf => h _ (isScalar_of_mem_tables ht hf)

theorem isBare_of_mem_keys {key : String} (h : key ∈ keys.flatMap fun e => e.1 :: e.2) :
    Toml.IsBare key := by
  have hall : ∀ key ∈ keys.flatMap fun e => e.1 :: e.2,
      key.toList ≠ [] ∧ key.toList.all Toml.isKeyChar := by decide
  exact ⟨(hall key h).1, List.all_eq_true.mp (hall key h).2⟩

theorem table_of_mem_tables (h : ∀ v, s.IsScalar v → Toml.Written v)
    {e : String × List (String × Value)} (he : e ∈ s.tables) :
    Toml.IsBare e.1 ∧ Toml.Table e.2 := by
  obtain ⟨⟨name, fields⟩, hsection, rfl⟩ := List.mem_map.mp he
  have hkeys : (name, fields.map (·.1)) ∈ keys :=
    keys_sections s ▸ List.mem_map.mpr ⟨_, hsection, rfl⟩
  have hnodup : ∀ e ∈ keys, e.2.Nodup := by decide
  refine ⟨isBare_of_mem_keys (List.mem_flatMap.mpr ⟨_, hkeys, List.mem_cons_self⟩), ?_, ?_, ?_⟩
  · exact (hnodup _ hkeys).sublist (Form.keys_written_sublist fields)
  · intro f hf
    have hmem := (Form.keys_written_sublist fields).subset (List.mem_map.mpr ⟨f, hf, rfl⟩)
    exact isBare_of_mem_keys (List.mem_flatMap.mpr ⟨_, hkeys, List.mem_cons_of_mem _ hmem⟩)
  · exact fun f hf => h f.2 (isScalar_of_mem_tables he hf)

/-- What is written for settings is read as the settings with the usual diameter. -/
theorem read_write (hs : s.Readable) (hdigits : s.program.fractionDigits < format.wholeLimit)
    (hnumbers : ∀ x ∈ s.numbers, format.ReadsBack x) (hwrite : write format s = .ok text) :
    read format text = .ok s.withUsualDiameter := by
  cases format with
  | json =>
    have hvalue : Form.toSettings .json (Form.ofSettings s) = .ok s.withUsualDiameter :=
      Form.toSettings_ofSettings rfl rfl hs
    have hwritten : Json.Written (Form.ofSettings s) :=
      written_ofSettings fun v hv => hv.json hdigits hnumbers
    obtain rfl := Except.ok.inj hwrite
    simp only [read, Json.read?_pretty hwritten, hvalue]
    rfl
  | toml =>
    have hvalue : Form.toSettings .table (Form.ofSettings s) = .ok s.withUsualDiameter :=
      Form.toSettings_ofSettings rfl rfl hs
    have htext : Toml.write? (Form.ofSettings s) = some text := by
      rw [write] at hwrite
      split at hwrite
      · next htext => rw [htext, Except.ok.inj hwrite]
      · cases hwrite
    have hread : Toml.read? text = some (Form.ofSettings s) := by
      have htables : ∀ e ∈ s.tables, Toml.IsBare e.1 ∧ Toml.Table e.2 := fun e he =>
        table_of_mem_tables (fun v hv => hv.toml hnumbers) he
      have hnames : (s.tables.map (·.1)).Nodup := (by decide : ["job", "bit", "gcode"].Nodup)
      rw [ofSettings_eq] at htext ⊢
      exact Toml.read?_write? htext hnames (fun e he => (htables e he).1)
        fun e he => (htables e he).2
    simp only [read, hread, hvalue]
    rfl

theorem exists_write_eq_ok (hdigits : s.program.fractionDigits < format.wholeLimit) :
    ∃ text, write format s = .ok text := by
  cases format with
  | json => exact ⟨_, rfl⟩
  | toml =>
    obtain ⟨text, htext⟩ := Toml.exists_write?_eq_some fun e he f hf =>
      (isScalar_of_mem_tables he hf).exists_inline hdigits
    rw [← ofSettings_eq] at htext
    exact ⟨text, by rw [write, htext]⟩

/-- Settings that pass their checks are saved if the format holds their whole number, and what is
loaded from the text is the settings with the usual diameter if they had none. So they come back
equal if and only if they had one. -/
theorem load_save (hs : s.Readable) (hcheck : s.check = .ok ())
    (hformat : FileFormat.ofPath path = .ok format)
    (hdigits : s.program.fractionDigits < format.wholeLimit)
    (hnumbers : ∀ x ∈ s.numbers, format.ReadsBack x) :
    ∃ text, s.save path = .ok text ∧ load path (some text) = .ok s.withUsualDiameter ∧
      (s.withUsualDiameter == s) = s.bit.diameter.isSome := by
  obtain ⟨text, hwrite⟩ := exists_write_eq_ok hdigits
  have hsave : s.save path = .ok text := by
    simp only [save, hcheck, hformat, hwrite, bind, Except.bind]
  have hload : load path (some text) = .ok s.withUsualDiameter := by
    simp only [load, hformat, parse, read_write hs hdigits hnumbers hwrite,
      check_withUsualDiameter hcheck, bind, Except.bind, pure, Except.pure]
  exact ⟨text, hsave, hload, withUsualDiameter_beq hs⟩

/-- A tapered bit without a diameter comes back with one, whatever the format. -/
theorem load_save_tapered :
    let s : Settings := {
      stock := { thickness := some (.single .inch ⟨1, 2⟩) }
      bit := { kind := .vee, diameter := none, angle := some 60 } }
    let back : Settings := { s with bit := { s.bit with diameter := some (.single .inch ⟨1, 8⟩) } }
    (∃ text, s.save "job.json" = .ok text ∧ load "job.json" (some text) = .ok back ∧
      (back == s) = false) ∧
    ∃ text, s.save "job.toml" = .ok text ∧ load "job.toml" (some text) = .ok back ∧
      (back == s) = false := by
  intro s back
  have hreadable : s.Readable := by decide +kernel
  have hcheck : s.check = .ok () := by
    have hok : s.check.isOk = true := by decide +kernel
    cases h : s.check with
    | ok => rfl
    | error e =>
      rw [h] at hok
      cases hok
  have hjson : FileFormat.ofPath "job.json" = .ok .json := by rfl
  have htoml : FileFormat.ofPath "job.toml" = .ok .toml := by rfl
  exact ⟨load_save hreadable hcheck hjson (by decide) (by decide +kernel),
    load_save hreadable hcheck htoml (by decide) (by decide +kernel)⟩

end Settings
end Toolpath
