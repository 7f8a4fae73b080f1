import Toolpath.Proofs.Job.Stock
import Toolpath.Proofs.Program.Carving
import Toolpath.Settings.Output

/-!
Settings that a job and its options can be made of pass their own checks, which nobody asks for on
the way to a program. What the checks refuse is refused there too, before anything is carved.
-/
namespace Toolpath
open Scalar

theorem SettingsError.ofJob_eq_ok {α : Type} {x : Except (CarveError Float) α} {a : α}
    (h : ofJob x = .ok a) : x = .ok a := by
  cases x with
  | error e => cases h
  | ok _ => exact congrArg Except.ok (Except.ok.inj h)

theorem SettingsError.ofRange_eq_ok {α : Type} {x : Except (RangeError Float) α} {a : α}
    (h : ofRange x = .ok a) : x = .ok a := by
  cases x with
  | error e => cases h
  | ok _ => exact congrArg Except.ok (Except.ok.inj h)

/-- Stock that a job can be made on is good, whatever the bit. -/
theorem StockSettings.check_of_new {s : StockSettings} {thickness : Amount} {bit : Bit Float}
    {j : Job Float} (hs : s.thickness = some thickness)
    (h : Job.new s.nativeUnit thickness bit = .ok j) : s.check = .ok () := by
  obtain ⟨native, hnative, h⟩ := exists_of_bind_eq_ok h
  obtain ⟨hempty, h⟩ := of_check_eq_ok h
  obtain ⟨hboard, -⟩ := of_check_eq_ok h
  have hget := CarveError.ofMeasure_eq_ok hnative
  simp only [check, hget, hs, SettingsError.ofMeasure, hempty, hboard, bind, Except.bind]
  rfl

namespace BitSettings
variable {b : BitSettings} {j : Job Float} {bit : Bit Float}

/-- A tapered bit keeps the angle of its settings. -/
theorem profile_of_measure_vee {a : Float} (hkind : b.kind = .vee) (ha : b.angle = some a)
    (h : b.measure j = .ok bit) : ∃ tip, bit.profile = .vee a tip := by
  simp only [measure, hkind, ha] at h
  obtain ⟨made, hmade, h⟩ := exists_of_bind_eq_ok h
  obtain ⟨tip, -, rfl⟩ := exists_of_map_eq_ok hmade
  obtain rfl := Except.ok.inj h
  exact ⟨tip, rfl⟩

/-- The settings of a bit that can cut are good. -/
theorem check_of_measure (h : b.measure j = .ok bit) (husable : bit.isUsable = true) :
    b.check = .ok () := by
  unfold check
  cases hkind : b.kind with
  | flat =>
    cases hd : b.diameter with
    | none =>
      simp only [measure, hkind, hd] at h
      cases h
    | some d => rfl
  | vee =>
    cases ha : b.angle with
    | none =>
      simp only [measure, hkind, ha] at h
      cases h
    | some a =>
      obtain ⟨tip, hprofile⟩ := profile_of_measure_vee hkind ha h
      have hstraight : (ofInt 180 : Float) = 180 := rfl
      have hangle : 0 < a ∧ a < 180 := by
        simp only [Bit.isUsable, hprofile, hstraight, Bool.and_eq_true,
          decide_eq_true_eq] at husable
        exact husable.1.1
      exact if_pos hangle

end BitSettings

/-- Rates that options in range are made of are good. -/
theorem ProgramSettings.check_of_measure {p : ProgramSettings} {j : Job Float} {o : Options Float}
    (h : p.measure j = .ok o) (ho : o.check = .ok ()) : p.check = .ok () := by
  obtain ⟨_, -, h⟩ := exists_of_bind_eq_ok h
  obtain ⟨_, -, h⟩ := exists_of_bind_eq_ok h
  obtain ⟨_, -, h⟩ := exists_of_bind_eq_ok h
  obtain rfl := Except.ok.inj h
  have hrange := Options.inRange_of_check ho
  unfold check
  rw [if_neg (not_not.mpr hrange.feedRate), if_neg (not_not.mpr hrange.spindleSpeed)]
  rfl

namespace Settings
variable {s : Settings} {j : Job Float} {o : Options Float}

/-- A job is made of good stock and of a bit that can cut. -/
theorem checks_of_job (h : s.job = .ok j) :
    s.stock.check = .ok () ∧ s.bit.check = .ok () ∧ j.bit.isUsable = true := by
  unfold job at h
  cases hthickness : s.stock.thickness with
  | none =>
    rw [hthickness] at h
    cases h
  | some thickness =>
    rw [hthickness] at h
    obtain ⟨stock, hstock, h⟩ := exists_of_bind_eq_ok h
    obtain ⟨bit, hbit, h⟩ := exists_of_bind_eq_ok h
    obtain ⟨husable, h⟩ := of_check_eq_ok h
    obtain rfl := Except.ok.inj h
    have husable : bit.isUsable = true := by simpa using husable
    exact ⟨StockSettings.check_of_new hthickness (SettingsError.ofJob_eq_ok hstock),
      BitSettings.check_of_measure hbit husable, husable⟩

theorem check_of_options (h : s.options j = .ok o) : s.program.check = .ok () := by
  obtain ⟨made, hmade, h⟩ := exists_of_bind_eq_ok h
  obtain ⟨_, hrange, -⟩ := exists_of_bind_eq_ok h
  exact ProgramSettings.check_of_measure hmade (SettingsError.ofRange_eq_ok hrange)

theorem check_eq_ok (hstock : s.stock.check = .ok ()) (hbit : s.bit.check = .ok ())
    (hprogram : s.program.check = .ok ()) : s.check = .ok () := by
  simp only [check, hstock, hbit, hprogram, bind, Except.bind]

/-- No program is made without a job and options. -/
theorem programText_cases (s : Settings) (f : CutFile) :
    (∃ e, s.job = .error e ∧
      s.programText f = .error ⟨"Invalid job configuration", e.causes⟩) ∨
    (∃ j e, s.job = .ok j ∧ s.options j = .error e ∧
      s.programText f = .error ⟨"Invalid G-code settings", e.causes⟩) ∨
    ∃ j o, s.job = .ok j ∧ s.options j = .ok o := by
  cases hjob : s.job with
  | error e => exact .inl ⟨e, rfl, by simp only [programText, jobOrFailure, hjob]; rfl⟩
  | ok j =>
    cases ho : s.options j with
    | error e =>
      refine .inr (.inl ⟨j, e, rfl, ho, ?_⟩)
      simp only [programText, jobOrFailure, hjob, Failure.during, ho, bind, Except.bind]
    | ok o => exact .inr (.inr ⟨j, o, rfl, ho⟩)

/-- Settings that a job and its options are made of pass their checks, and the bit of the job can
cut. Settings that do not pass make no program of any file: the job or the options are refused. -/
theorem check_agrees (s : Settings) :
    (∀ j o, s.job = .ok j → s.options j = .ok o → s.check = .ok () ∧ j.bit.isUsable = true) ∧
    ∀ f : CutFile, s.check ≠ .ok () →
      (∃ e, s.job = .error e ∧
        s.programText f = .error ⟨"Invalid job configuration", e.causes⟩) ∨
      ∃ j e, s.job = .ok j ∧ s.options j = .error e ∧
        s.programText f = .error ⟨"Invalid G-code settings", e.causes⟩ := by
  have hgood : ∀ j o, s.job = .ok j → s.options j = .ok o →
      s.check = .ok () ∧ j.bit.isUsable = true := by
    intro j o hjob ho
    obtain ⟨hstock, hbit, husable⟩ := checks_of_job hjob
    exact ⟨check_eq_ok hstock hbit (check_of_options ho), husable⟩
  refine ⟨hgood, fun f hbad => ?_⟩
  obtain hjob | hoptions | ⟨j, o, hjob, ho⟩ := s.programText_cases f
  · exact .inl hjob
  · exact .inr hoptions
  · exact absurd (hgood j o hjob ho).1 hbad

/-- Settings with a tapered bit are good, and make no program if the bit is not to move. -/
theorem check_agrees_tapered :
    let s : Settings := {
      stock := { thickness := some (.single .inch ⟨1, 2⟩) }
      bit := { kind := .vee, diameter := none, angle := some 60 } }
    let still : Settings := { s with program := { feedRate := 0 } }
    s.check = .ok () ∧
      ∀ f, ∃ e : SettingsError,
        still.programText f = .error ⟨"Invalid G-code settings", e.causes⟩ := by
  intro s still
  obtain ⟨j, hjob⟩ := exists_of_isOk (by decide +kernel : s.job.isOk = true)
  obtain ⟨o, ho⟩ : ∃ o, s.options j = .ok o := by
    have hall : ∃ o, (s.job >>= s.options) = .ok o := exists_of_isOk (by decide +kernel)
    rwa [hjob] at hall
  have hstill : still.check ≠ .ok () := by
    intro h
    have hrefused : still.check.isOk = false := by decide +kernel
    rw [h] at hrefused
    cases hrefused
  refine ⟨((check_agrees s).1 j o hjob ho).1, fun f => ?_⟩
  obtain ⟨e, hrefused, -⟩ | ⟨-, e, -, -, htext⟩ := (check_agrees still).2 f hstill
  · cases hjob.symm.trans hrefused
  · exact ⟨e, htext⟩

end Settings
end Toolpath
