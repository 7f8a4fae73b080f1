import Mathlib.Data.List.Nodup
import Mathlib.Tactic.Linarith
import Toolpath.Cut.Array
import Toolpath.Proofs.Scalar.Exact

/-! The positions of a grid. Each place of the grid has one of them, and they run along one axis,
line by line. -/
namespace Toolpath
open Scalar

/-- Lines of one length, each of them numbered from its start, are one list numbered throughout. -/
theorem flatMap_range_map {β : Type} (f : Nat → Nat → β) (lines length : Nat) :
    ((List.range lines).flatMap fun j => (List.range length).map (f j)) =
      (List.range (lines * length)).map fun k => f (k / length) (k % length) := by
  induction lines with
  | zero => simp
  | succ n ih =>
    rw [List.range_succ, List.flatMap_append, ih, List.flatMap_singleton, Nat.succ_mul,
      List.range_add, List.map_append, List.map_map]
    refine congrArg _ (List.map_congr_left fun i hi => ?_)
    have hlt := List.mem_range.mp hi
    obtain ⟨hdiv, hmod⟩ := (Nat.div_mod_unique (Nat.zero_lt_of_lt hlt)).mpr
      ⟨Nat.add_comm i (length * n), hlt⟩
    rw [Function.comp_apply, Nat.mul_comm n, hdiv, hmod]

namespace Grid

/-- The axes of a grid. -/
inductive Axis where
  | x | y
  deriving DecidableEq

/-- The axis across. -/
def Axis.other : Axis → Axis
  | .x => .y
  | .y => .x

variable {α : Type} [Scalar α] (g : Grid α)

/-- The column and the row that come so many places after the first ones, where the places of a
line along an axis come one after another. -/
def place : Axis → Nat → Nat × Nat
  | .x, k => (k % g.columns, k / g.columns)
  | .y, k => (k / g.rows, k % g.rows)

/-- The positions run along an axis, line by line. -/
def RunsAlong (a : Axis) : Prop :=
  g.positions = (List.range g.total).map fun k => g.position (g.place a k).1 (g.place a k).2

theorem runsAlong : g.RunsAlong (if g.dx < g.dy then .x else .y) := by
  unfold RunsAlong positions total
  split_ifs
  · rw [flatMap_range_map (fun j i => g.position i j), Nat.mul_comm]
    rfl
  · rw [flatMap_range_map g.position]
    rfl

theorem exists_runsAlong : ∃ a, g.RunsAlong a := ⟨_, g.runsAlong⟩

theorem length_positions : g.positions.length = g.columns * g.rows := by
  obtain ⟨a, ha⟩ := g.exists_runsAlong
  rw [ha, List.length_map, List.length_range, total]

variable {g} in
theorem mem_positions {p : α × α} :
    p ∈ g.positions ↔ ∃ i < g.columns, ∃ j < g.rows, p = g.position i j := by
  unfold positions
  split_ifs
  · simp only [List.mem_flatMap, List.mem_map, List.mem_range]
    grind
  · simp only [List.mem_flatMap, List.mem_map, List.mem_range]
    grind

omit [Scalar α] in
/-- The places of a grid are all different. -/
theorem place_injective (a : Axis) : Function.Injective (g.place a) := by
  intro k l h
  cases a with
  | x =>
    obtain ⟨hcolumn, hrow⟩ := (Prod.mk.injEq ..).mp h
    rw [← Nat.div_add_mod k g.columns, ← Nat.div_add_mod l g.columns, hcolumn, hrow]
  | y =>
    obtain ⟨hcolumn, hrow⟩ := (Prod.mk.injEq ..).mp h
    rw [← Nat.div_add_mod k g.rows, ← Nat.div_add_mod l g.rows, hcolumn, hrow]

variable {g} in
theorem RunsAlong.getElem? {a : Axis} (h : g.RunsAlong a) {k : Nat} (hk : k < g.total) :
    g.positions[k]? = some (g.position (g.place a k).1 (g.place a k).2) := by
  rw [h, List.getElem?_map, List.getElem?_range hk, Option.map_some]

variable {g} in
/-- Positions that are all different run along one axis only. -/
theorem RunsAlong.unique {a b : Axis} (ha : g.RunsAlong a) (hb : g.RunsAlong b)
    (hnodup : g.positions.Nodup) (hcolumns : 2 ≤ g.columns) (hrows : 2 ≤ g.rows) : a = b := by
  have hboth : ¬ (g.RunsAlong .x ∧ g.RunsAlong .y) := by
    -- the second position on one axis is the first one of the second line on the other
    rintro ⟨hx, hy⟩
    have hmany : g.columns * 2 ≤ g.total := Nat.mul_le_mul_left g.columns hrows
    have hline := hx.getElem? (k := g.columns) (by omega)
    have hnext := hy.getElem? (k := 1) (by omega)
    have hplace : g.place .x g.columns = g.place .y 1 := by
      have hpos : 0 < g.columns := by omega
      simp only [place, Nat.mod_self, Nat.div_self hpos, Nat.mod_eq_of_lt hrows,
        Nat.div_eq_of_lt hrows]
    rw [hplace, ← hnext] at hline
    have hlength : g.columns < g.positions.length := by
      rw [length_positions]
      exact lt_of_lt_of_le (by omega) hmany
    have hsame := (List.getElem?_inj hlength hnodup).mp hline
    omega
  cases a with
  | x =>
    cases b with
    | x => rfl
    | y => exact absurd ⟨ha, hb⟩ hboth
  | y =>
    cases b with
    | x => exact absurd ⟨hb, ha⟩ hboth
    | y => rfl

theorem spacing_ne_zero (d : ℝ) : spacing d ≠ 0 := by
  unfold spacing
  rw [beq_real]
  split_ifs with h
  · exact one_ne_zero
  · exact fun hd => h (decide_eq_true hd)

theorem ofInt_real (n : Int) : (ofInt n : ℝ) = n := by
  rw [ofInt, ofRatio_real, Int.cast_one, div_one]

theorem position_real (g : Grid ℝ) (i j : Nat) :
    g.position i j = (g.x0 + spacing g.dx * i, g.y0 + spacing g.dy * j) := by
  rw [position, ofInt_real, ofInt_real, Int.cast_natCast, Int.cast_natCast]

/-- Over exact coordinates different places have different positions. -/
theorem position_injective (g : Grid ℝ) :
    Function.Injective fun p : Nat × Nat => g.position p.1 p.2 := by
  rintro ⟨i, j⟩ ⟨k, l⟩ h
  simp only [position_real, Prod.mk.injEq, add_right_inj, mul_right_inj' (spacing_ne_zero _),
    Nat.cast_inj] at h
  rw [h.1, h.2]

theorem nodup_positions (g : Grid ℝ) : g.positions.Nodup := by
  obtain ⟨a, ha⟩ := g.exists_runsAlong
  rw [ha]
  exact List.nodup_range.map (g.position_injective.comp (g.place_injective a))

end Grid
end Toolpath
