import Toolpath.Proofs.Bounds.Indexed
import Toolpath.Proofs.Program.Carving

/-! A vertex that a path does not have is found by the check of the path, and not any later: neither
while the path is carved nor while the box around it is measured. -/
namespace Toolpath

/-- A path was found to need a vertex that it does not have. -/
def CarveError.isMissing {α : Type} : CarveError α → Bool
  | .missingVertex _ _ => true
  | .missingCenter _ _ => true
  | _ => false

namespace Carve
variable {α : Type} [Scalar α] {o : Options α}

theorem pocket_result (o : Options α) (f : Frame α) (p : Pocket α) :
    (pocket o f p).result = .ok () ∨ (pocket o f p).result = .error .flatBottom ∨
      ∃ e, (pocket o f p).result = .error (.range e) := by
  unfold pocket
  split
  · exact .inr (.inl rfl)
  · dsimp only
    split
    · exact .inl rfl
    · split
      · exact .inr (.inr ⟨_, rfl⟩)
      · exact .inl rfl

/-- Whatever a leaf fails for, it is not a vertex that is missing. -/
theorem isMissing_of_block {c : Call α} (hc : ∀ g p, c = .trace g p → p.check = .ok ())
    {e : CarveError α} (h : (block o c).result = .error e) : e.isMissing = false := by
  have hok (hresult : (block o c).result = .ok ()) : e.isMissing = false := by
    cases h.symm.trans hresult
  cases c with
  | comment f text => exact hok rfl
  | trace f p => exact hok (outline_ok rfl hc)
  | hole f diameter => exact hok (outline_ok rfl hc)
  | pause f => exact hok rfl
  | pocket f p =>
    rcases pocket_result o f p with hresult | hresult | ⟨e', hresult⟩
    · exact hok hresult
    · cases h.symm.trans hresult
      rfl
    · cases h.symm.trans hresult
      rfl

theorem run_forM_make (o : Options α) (calls : List (Call α)) (log : Log α) :
    (calls.forM (backend o).make).run.run log =
      ((calls.forM (block o)).result, log ++ (calls.forM (block o)).commands.toArray) := by
  rw [← perform_run, perform_forM]
  exact congrArg (fun x => (calls.forM x).run.run log) (funext (make_backend o))

theorem forM_block_ok {calls : List (Call α)} :
    (calls.forM (block o)).result = .ok () ↔ ∀ c ∈ calls, (block o c).result = .ok () := by
  induction calls with
  | nil => simp
  | cons c rest ih =>
    rw [List.forall_mem_cons, ← ih]
    constructor
    · intro h
      obtain ⟨_, hc, hrest⟩ := Block.exists_of_bind_ok h
      exact ⟨hc, hrest⟩
    · rintro ⟨hc, hrest⟩
      change (block o c >>= fun _ => rest.forM (block o)).result = .ok ()
      rw [Block.bind_of_ok hc, hrest]

/-- Calls that all succeed leave behind their work. -/
theorem run_forM_make_eq_ok {calls : List (Call α)} {log log' : Log α} :
    (calls.forM (backend o).make).run.run log = (.ok (), log') ↔
      (∀ c ∈ calls, (block o c).result = .ok ()) ∧ log' = log ++ (work o calls).toArray := by
  rw [run_forM_make, Prod.mk.injEq, ← forM_block_ok]
  refine and_congr_right fun hresult => ?_
  rw [commands_forM_block, reached_of_ok hresult, eq_comm]

section
variable {f : Frame α} {cuts : List (Cut α)} {log log' : Log α}

theorem isMissing_of_mem_calls {c : Call α} (hc : c ∈ (backend o).calls f cuts log)
    {e : CarveError α} (h : (block o c).result = .error e) : e.isMissing = false := by
  refine isMissing_of_block (fun g p htrace => ?_) h
  exact Path.check_eq_ok.mpr (Backend.refers_of_mem_calls (htrace ▸ hc))

/-- A traversal that ends at a missing vertex has finished all that it had begun to carve. -/
theorem finished_of_isMissing {e : CarveError α} (he : e.isMissing = true)
    (h : ((backend o).visitAll f cuts).run.run log = (.error e, log')) :
    (∀ c ∈ (backend o).calls f cuts log, (block o c).result = .ok ()) ∧
      log' = log ++ (work o ((backend o).calls f cuts log)).toArray := by
  obtain ⟨result, s', hcut, hrun⟩ := (backend o).exists_cutOff_visitAll f cuts log
  obtain ⟨rfl, rfl⟩ := Prod.mk.inj (h.symm.trans hrun)
  obtain ⟨calls, hcalls⟩ : ∃ calls, (backend o).calls f cuts log = calls := ⟨_, rfl⟩
  rw [hcalls] at hcut ⊢
  cases hcut with
  | @failed calls c after s₁ s₂ e entries succeed fails =>
    rw [make_backend, perform_run] at fails
    have hc : c ∈ (backend o).calls f cuts log := hcalls ▸ by simp
    have hfalse := isMissing_of_mem_calls hc (congrArg Prod.fst fails)
    rw [he] at hfalse
    cases hfalse
  | refused entries succeed => exact run_forM_make_eq_ok.mp succeed

end

end Carve

section
variable {α : Type} [Scalar α]

/-- The check of a path passes exactly if the path refers to its vertices only, and else tells the
first vertex that is missing, the center of an arc coming after its ends. A traversal hands on only
such paths, whatever the backend, and the circle of a wide hole is one too. So no look-up fails where
a box is measured or where a segment is carved, and no call fails for a missing vertex. A traversal
that ends at one has finished all that it had begun to carve. -/
theorem Path.refers_where_used (f : Frame α) (cuts : List (Cut α)) :
    (∀ p : Path α, (p.check = .ok () ↔ p.Refers) ∧
      ∀ e, p.check = .error e ↔ ∃ r, p.FirstMissing r ∧ r.error = e) ∧
    (∀ {σ ε : Type} (b : Backend α σ ε) (s : σ) (g : Frame α) (p : Path α),
      .trace g p ∈ b.calls f cuts s → p.Refers) ∧
    (∀ radius : α, (Path.circle radius).Refers) ∧
    Bounds.indexing.visitAll f cuts = ExceptT.adapt some (Bounds.backend.visitAll f cuts) ∧
    (∀ (g : Frame α) (p : Path α) (d : Direction), p.Refers → ∀ x ∈ p.segments.zipIdx,
      ∃ far, (Carve.segment g p d x.2 x.1).result = .ok far) ∧
    ∀ (o : Options α) (log : Log α),
      (∀ c ∈ (Carve.backend o).calls f cuts log, ∀ e, (Carve.block o c).result = .error e →
        e.isMissing = false) ∧
      ∀ e log', e.isMissing = true →
        ((Carve.backend o).visitAll f cuts).run.run log = (.error e, log') →
        (∀ c ∈ (Carve.backend o).calls f cuts log, (Carve.block o c).result = .ok ()) ∧
          log' = log ++ (Carve.work o ((Carve.backend o).calls f cuts log)).toArray := by
  refine ⟨fun p => ⟨Path.check_eq_ok, fun e => Path.check_eq_error⟩, fun b s g p h =>
    Backend.refers_of_mem_calls h, fun radius => Path.check_eq_ok.mp (Path.check_circle radius),
    Bounds.visitAll_indexing f cuts, fun g p d hp x hx => ?_, fun o log => ⟨?_, ?_⟩⟩
  · exact Carve.exists_segment_ok (hp x.1 (List.fst_mem_of_mem_zipIdx hx)) g d x.2
  · exact fun c hc e he => Carve.isMissing_of_mem_calls hc he
  · exact fun e log' he h => Carve.finished_of_isMissing he h

/-- An arc is carved before a path with a center that it does not have is come to. -/
theorem Path.refers_where_used_malformed :
    let f := Frame.root (Job.quarterInch : Job Float)
    let arc : Path Float :=
      ⟨[⟨1, 0, 0⟩, ⟨0, 1, 0⟩, ⟨0, 0, 0⟩], [.arc 0 1 2 .counterClockwise]⟩
    let malformed := { arc with segments := [.straight 0 1, .arc 1 0 3 .clockwise] }
    let cuts := [.trace arc .through .middle none, .trace malformed .through .middle none]
    let carving := Carve.backend (Options.standard : Options Float)
    let call := Call.trace (f.sink .through) arc
    arc.Refers ∧ malformed.check = .error (.missingCenter 1 3) ∧
      carving.calls f cuts #[] = [call] ∧ (Carve.block .standard call).result = .ok () ∧
      (carving.visitAll f cuts).run.run #[] =
        (.error (.missingCenter 1 3), #[] ++ (Carve.work .standard [call]).toArray) := by
  intro f arc malformed cuts carving call
  obtain ⟨hcheck, hrefers, -, -, -, hcarve⟩ := Path.refers_where_used f cuts
  have hfirst : malformed.FirstMissing ⟨1, 3, true⟩ :=
    ⟨by decide, [⟨0, 0, false⟩, ⟨0, 1, false⟩, ⟨1, 1, false⟩, ⟨1, 0, false⟩], [], rfl, by decide⟩
  have hmissing : malformed.check = .error (.missingCenter 1 3) :=
    ((hcheck malformed).2 _).mpr ⟨_, hfirst, rfl⟩
  have harc : arc.check = .ok () := (hcheck arc).1.mpr (by decide)
  have hentries : Cut.flattenAll f cuts =
      [call].map .call ++ .refusal (.missingCenter 1 3) :: [] := by
    simp only [cuts, Cut.flattenAll, Cut.flatten, Cut.comment, Entry.remark, harc, hmissing]
    rfl
  have hblock : ∀ c ∈ [call], (Carve.block .standard c).result = .ok () :=
    List.forall_mem_singleton.mpr
      (Carve.outline_ok rfl fun g p h => (Call.trace.inj h).2 ▸ harc)
  have hmake : ([call].forM carving.make).run.run #[] =
      (.ok (), #[] ++ (Carve.work .standard [call]).toArray) :=
    Carve.run_forM_make_eq_ok.mpr ⟨hblock, rfl⟩
  obtain ⟨hcalls, hrun⟩ := Backend.run_visitAll_of_refusal hentries hmake
  obtain ⟨hfinished, -⟩ := (hcarve .standard #[]).2 _ _ rfl hrun
  have hcall : call ∈ carving.calls f cuts #[] := hcalls ▸ List.mem_singleton_self call
  exact ⟨hrefers carving #[] _ arc hcall, hmissing, hcalls, hfinished call hcall, hrun⟩

end
end Toolpath
