import Toolpath.Proofs.Outline.Missing
import Toolpath.Proofs.Traversal.CallRule
import Toolpath.Proofs.Traversal.Recorded

/-! Whatever a traversal is of, the paths that it hands on refer to their vertices only. -/
namespace Toolpath

namespace Itinerary
variable {α : Type}

theorem ofEntries_calls (calls : List (Call α)) : ofEntries (calls.map .call) = ⟨calls, none⟩ := by
  induction calls with
  | nil => rfl
  | cons c rest ih =>
    rw [List.map_cons, ofEntries, ih]
    rfl

theorem prefix_calls_ofEntries (calls : List (Call α)) (rest : List (Entry α)) :
    calls <+: (ofEntries (calls.map .call ++ rest)).calls := by
  rw [ofEntries_append, ofEntries_calls, append_of_none rfl]
  exact List.prefix_append ..

end Itinerary

section
variable {α : Type} [Scalar α] {f : Frame α} {cuts : List (Cut α)}

namespace Backend
variable {σ ε : Type}

/-- The calls that a traversal makes from a state, the last of them failing if one does. -/
def calls (b : Backend α σ ε) (f : Frame α) (cuts : List (Cut α)) (s : σ) : List (Call α) :=
  ((b.recorded.visitAll f cuts).run.run (s, [])).2.2

/-- The calls that are made, the result and the last state. -/
theorem exists_cutOff_visitAll (b : Backend α σ ε) (f : Frame α) (cuts : List (Cut α)) (s : σ) :
    ∃ result s', b.CutOff (Cut.flattenAll f cuts) s (b.calls f cuts s) result s' ∧
      (b.visitAll f cuts).run.run s = (result, s') := by
  obtain ⟨calls, result, s', hcut, hrun, hlog⟩ := b.exists_cutOff (Cut.flattenAll f cuts) s []
  have hcalls : b.calls f cuts s = calls := by
    rw [Backend.calls, visitAll_eq_forM, hlog, List.nil_append]
  rw [← visitAll_eq_forM] at hrun
  exact ⟨result, s', hcalls ▸ hcut, hrun⟩

/-- A traversal comes to a refusal if the calls before it succeed. -/
theorem run_visitAll_of_refusal {b : Backend α σ ε} {calls : List (Call α)} {e : CarveError α}
    {rest : List (Entry α)} {s s' : σ}
    (hentries : Cut.flattenAll f cuts = calls.map .call ++ .refusal e :: rest)
    (h : (calls.forM b.make).run.run s = (.ok (), s')) :
    b.calls f cuts s = calls ∧ (b.visitAll f cuts).run.run s = (.error (b.refuse e), s') := by
  obtain ⟨made, result, s₁, -, hrun, hlog⟩ := b.exists_cutOff (Cut.flattenAll f cuts) s []
  have hrefused := hlog.symm.trans (hentries ▸ b.run_recorded_of_refusal h e rest [])
  obtain ⟨rfl, hlast⟩ := Prod.mk.inj hrefused
  obtain ⟨rfl, -⟩ := Prod.mk.inj hlast
  constructor
  · rw [Backend.calls, visitAll_eq_forM, hentries, b.run_recorded_of_refusal h e rest [],
      List.nil_append]
  · rw [visitAll_eq_forM, hrun]

theorem prefix_itinerary (b : Backend α σ ε) (f : Frame α) (cuts : List (Cut α)) (s : σ) :
    b.calls f cuts s <+: (Cut.itineraryAll f cuts).calls := by
  obtain ⟨result, s', hcut, -⟩ := b.exists_cutOff_visitAll f cuts s
  obtain ⟨rest, hrest⟩ := hcut.exists_rest
  rw [Cut.itineraryAll_eq_ofEntries, hrest]
  exact Itinerary.prefix_calls_ofEntries _ rest

theorem refers_of_mem_calls {b : Backend α σ ε} {s : σ} {g : Frame α} {p : Path α}
    (h : .trace g p ∈ b.calls f cuts s) : p.Refers :=
  Path.check_eq_ok.mp (Cut.check_traced ((b.prefix_itinerary f cuts s).subset h))

end Backend

end
end Toolpath
