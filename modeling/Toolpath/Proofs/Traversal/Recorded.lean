import Toolpath.Proofs.Traversal.Flattening

/-! What a traversal calls: the flattened tree in order, up to the first call that fails, which is
still made. -/
namespace Toolpath

namespace Backend
variable {α σ ε : Type}

/-- An action after which its call is noted, also when it fails. -/
def noted (c : Call α) (x : Action σ ε Unit) : Action (σ × List (Call α)) ε Unit :=
  ExceptT.mk fun s => ((x.run.run s.1).1, (x.run.run s.1).2, s.2 ++ [c])

/-- The backend that also notes its calls. -/
def recorded (b : Backend α σ ε) : Backend α (σ × List (Call α)) ε where
  comment f text := noted (.comment f text) (b.comment f text)
  trace f p := noted (.trace f p) (b.trace f p)
  hole f diameter := noted (.hole f diameter) (b.hole f diameter)
  pocket f p := noted (.pocket f p) (b.pocket f p)
  pause f := noted (.pause f) (b.pause f)
  refuse := b.refuse

/-- Takes one entry. -/
def obey (b : Backend α σ ε) : Entry α → Action σ ε Unit
  | .call c => b.make c
  | .refusal e => throw (b.refuse e)

/-- The calls that are made of entries, the result and the last state. The entries before the first
failure are calls that succeed one after another. -/
inductive CutOff (b : Backend α σ ε) (l : List (Entry α)) (s : σ) :
    List (Call α) → Except ε Unit → σ → Prop
  | finished {calls : List (Call α)} {s' : σ} (entries : l = calls.map .call)
      (succeed : (calls.forM b.make).run.run s = (.ok (), s')) : CutOff b l s calls (.ok ()) s'
  | failed (calls : List (Call α)) {c : Call α} {after : List (Entry α)} {s₁ s₂ : σ} {e : ε}
      (entries : l = calls.map .call ++ .call c :: after)
      (succeed : (calls.forM b.make).run.run s = (.ok (), s₁))
      (fails : (b.make c).run.run s₁ = (.error e, s₂)) :
      CutOff b l s (calls ++ [c]) (.error e) s₂
  | refused {calls : List (Call α)} {e : CarveError α} {after : List (Entry α)} {s₁ : σ}
      (entries : l = calls.map .call ++ .refusal e :: after)
      (succeed : (calls.forM b.make).run.run s = (.ok (), s₁)) :
      CutOff b l s calls (.error (b.refuse e)) s₁

theorem CutOff.cons {b : Backend α σ ε} {c : Call α} {rest : List (Entry α)} {s s₁ s' : σ}
    {calls : List (Call α)} {result : Except ε Unit} (hc : (b.make c).run.run s = (.ok (), s₁))
    (h : b.CutOff rest s₁ calls result s') :
    b.CutOff (.call c :: rest) s (c :: calls) result s' := by
  have hstep := fun more : List (Call α) => run_bind_of_ok hc fun _ => more.forM b.make
  cases h with
  | finished entries succeed =>
    rw [entries]
    exact .finished rfl ((hstep _).trans succeed)
  | failed calls entries succeed fails =>
    rw [entries]
    exact .failed (c :: calls) rfl ((hstep calls).trans succeed) fails
  | refused entries succeed =>
    rw [entries]
    exact .refused rfl ((hstep _).trans succeed)

/-- A traversal that succeeds is not cut off. -/
theorem CutOff.eq_map_of_ok {b : Backend α σ ε} {l : List (Entry α)} {s s' : σ}
    {calls : List (Call α)} {result : Except ε Unit} (h : b.CutOff l s calls result s')
    (hok : result = .ok ()) : l = calls.map .call := by
  cases h with
  | finished entries succeed => exact entries
  | failed calls entries succeed fails => cases hok
  | refused entries succeed => cases hok

/-- The calls that are made come first among the entries. -/
theorem CutOff.exists_rest {b : Backend α σ ε} {l : List (Entry α)} {s s' : σ}
    {calls : List (Call α)} {result : Except ε Unit} (h : b.CutOff l s calls result s') :
    ∃ rest, l = calls.map .call ++ rest := by
  cases h with
  | finished entries succeed => exact ⟨[], by rw [entries, List.append_nil]⟩
  | failed calls entries succeed fails =>
    rw [List.map_append, entries]
    exact ⟨_, List.append_cons ..⟩
  | refused entries succeed => exact ⟨_, entries⟩

theorem run_make_recorded (b : Backend α σ ε) (c : Call α) (s : σ) (calls : List (Call α)) :
    (b.recorded.make c).run.run (s, calls) =
      (((b.make c).run.run s).1, ((b.make c).run.run s).2, calls ++ [c]) := by
  cases c <;> rfl

/-- Entries taken one by one are cut off at the first failure, and noting calls changes no more than
the notes. -/
theorem exists_cutOff (b : Backend α σ ε) (l : List (Entry α)) (s : σ) (notes : List (Call α)) :
    ∃ calls result s', b.CutOff l s calls result s' ∧
      (l.forM b.obey).run.run s = (result, s') ∧
      (l.forM b.recorded.obey).run.run (s, notes) = (result, s', notes ++ calls) := by
  induction l generalizing s notes with
  | nil => exact ⟨[], .ok (), s, .finished rfl rfl, rfl, by rw [List.append_nil]; rfl⟩
  | cons v rest ih =>
    cases v with
    | refusal e => exact ⟨[], _, s, .refused rfl rfl, rfl, by rw [List.append_nil]; rfl⟩
    | call c =>
      have hnote := b.run_make_recorded c s notes
      rcases hc : (b.make c).run.run s with ⟨result, s₁⟩
      rw [hc] at hnote
      cases result with
      | error e =>
        refine ⟨[c], .error e, s₁, .failed [] rfl rfl hc, ?_, ?_⟩
        · exact run_bind_of_error hc _
        · exact run_bind_of_error hnote _
      | ok u =>
        obtain ⟨calls, result, s', hcut, hrun, hlog⟩ := ih s₁ (notes ++ [c])
        rw [List.append_assoc, List.singleton_append] at hlog
        refine ⟨c :: calls, result, s', hcut.cons hc, ?_, ?_⟩
        · exact (run_bind_of_ok hc _).trans hrun
        · exact (run_bind_of_ok hnote _).trans hlog

/-- What is noted before a refusal that is come to. -/
theorem run_recorded_of_refusal (b : Backend α σ ε) {calls : List (Call α)} {s s' : σ}
    (h : (calls.forM b.make).run.run s = (.ok (), s')) (e : CarveError α)
    (rest : List (Entry α)) (notes : List (Call α)) :
    ((calls.map Entry.call ++ .refusal e :: rest).forM b.recorded.obey).run.run (s, notes) =
      (.error (b.refuse e), s', notes ++ calls) := by
  induction calls generalizing s notes with
  | nil =>
    obtain rfl : s = s' := congrArg Prod.snd h
    rw [List.append_nil]
    rfl
  | cons c calls ih =>
    have hnote := b.run_make_recorded c s notes
    rcases hc : (b.make c).run.run s with ⟨result, s₁⟩
    rw [hc] at hnote
    cases result with
    | error e' => cases (run_bind_of_error hc _).symm.trans h
    | ok u =>
      refine (run_bind_of_ok hnote _).trans ((ih ?_ _).trans ?_)
      · exact (run_bind_of_ok hc fun _ => calls.forM b.make).symm.trans h
      · rw [List.append_assoc, List.singleton_append]

theorem follow_ofEntries (b : Backend α σ ε) (l : List (Entry α)) :
    b.follow (.ofEntries l) = l.forM b.obey := by
  induction l with
  | nil => exact follow_empty b
  | cons v rest ih =>
    cases v with
    | call c => rw [Itinerary.ofEntries, follow_append, follow_single, ih]; rfl
    | refusal e => exact follow_stopped b e

variable [Scalar α]

theorem visitAll_eq_forM (b : Backend α σ ε) (f : Frame α) (cuts : List (Cut α)) :
    b.visitAll f cuts = (Cut.flattenAll f cuts).forM b.obey := by
  rw [visitAll_eq_follow, Cut.itineraryAll_eq_ofEntries, follow_ofEntries]

/-- A traversal makes the calls of the flattened tree up to the first failure, whose error it ends
with. If there is none, each leaf is called once for each choice of poses around it. The frame of a
call depends on the groups around its node only. -/
theorem visitAll_recorded (b : Backend α σ ε) (f : Frame α) (cuts : List (Cut α)) (s : σ) :
    (∃ calls result s', b.CutOff (Cut.flattenAll f cuts) s calls result s' ∧
      (b.visitAll f cuts).run.run s = (result, s') ∧
      (b.recorded.visitAll f cuts).run.run (s, []) = (result, s', calls) ∧
      (result = .ok () →
        (calls.filter (!·.isComment)).map .ok = f.ends (Cut.routesAll cuts))) ∧
    Cut.flattenAll f cuts = cuts.flatMap (fun cut => cut.flatten f) ∧
    ∀ (parent child : Frame α) leg, parent.descend leg = .ok child ↔ parent.Leads leg child := by
  obtain ⟨calls, result, s', hcut, hrun, hlog⟩ := b.exists_cutOff (Cut.flattenAll f cuts) s []
  refine ⟨⟨calls, result, s', hcut, ?_, ?_, fun hok => ?_⟩, Cut.flattenAll_eq_flatMap f cuts,
    fun parent child leg => Frame.descend_eq_ok⟩
  · rw [visitAll_eq_forM]
    exact hrun
  · rw [visitAll_eq_forM]
    exact hlog
  · have entries := hcut.eq_map_of_ok hok
    have hnone : ∀ e, .refusal e ∉ Cut.flattenAll f cuts := by simp [entries]
    rw [← Cut.leaves_flattenAll hnone, entries, Entry.filterMap_leaf?_calls]

end Backend
end Toolpath
