import Toolpath.Bounds
import Toolpath.Proofs.Program.Issued
import Toolpath.Proofs.Traversal.Recorded
import Toolpath.Proofs.Traversal.Trail

/-! How deep a traversal goes. Each call is told in how many groups its node lies, and a group is
refused exactly if it lies in as many groups as there may be. -/
namespace Toolpath

namespace Visit
variable {α : Type} {cuts : List (Cut α)} {l : List (Visit α)} {v : Visit α}

/-- A group that lies in as many groups as there may be is about to be gone into. -/
structure TooDeep (v : Visit α) : Prop where
  enter : ∃ pose, v.act = .enter pose
  depth : v.groups.length = Frame.nestingLimit

theorem TooDeep.refusal? (h : v.TooDeep) :
    v.refusal? = some (.nestedTooDeep Frame.nestingLimit) := by
  obtain ⟨pose, hact⟩ := h.enter
  simp [Visit.refusal?, hact, h.depth]

theorem Sound.tooDeep (hv : v.Sound cuts) (hle : v.groups.length ≤ Frame.nestingLimit)
    {limit : Nat} (h : v.refusal? = some (.nestedTooDeep limit)) : v.TooDeep := by
  unfold Visit.refusal? at h
  cases hact : v.act with
  | call c => simp [hact] at h
  | refuse e =>
    simp only [hact, Option.some.injEq] at h
    exact absurd (hact.trans (congrArg _ h)) (hv.refuse _)
  | enter pose =>
    have hdeep : ¬ v.groups.length < Frame.nestingLimit := fun hroom => by simp [hact, hroom] at h
    exact ⟨⟨pose, hact⟩, by omega⟩

theorem taken?_eq_refusal {e : CarveError α} :
    v.taken? = some (.refusal e) ↔ v.refusal? = some e := by
  unfold taken?
  cases v.refusal? <;> simp

theorem filterMap_taken?_of_passed (h : ∀ u ∈ l, u.refusal? = none) :
    l.filterMap taken? = (l.filterMap call?).map .call := by
  induction l with
  | nil => rfl
  | cons u rest ih =>
    obtain ⟨hu, hrest⟩ := List.forall_mem_cons.mp h
    have hentry : u.taken? = u.call?.map .call := by rw [taken?, hu]
    cases hc : u.call? <;> simp [hentry, hc, ih hrest]

/-- Visits that are all got past are calls and ways into groups. -/
theorem passed_of_filterMap_taken? {calls : List (Call α)}
    (h : l.filterMap taken? = calls.map .call) :
    (∀ u ∈ l, u.refusal? = none) ∧ l.filterMap call? = calls := by
  have passed : ∀ u ∈ l, u.refusal? = none := by
    intro u hu
    cases hr : u.refusal? with
    | none => rfl
    | some e =>
      have he := List.mem_filterMap.mpr ⟨u, hu, taken?_eq_refusal.mpr hr⟩
      obtain ⟨c, -, hc⟩ := List.mem_map.mp (h ▸ he)
      cases hc
  rw [filterMap_taken?_of_passed passed] at h
  exact ⟨passed, (List.map_inj_right fun _ _ => Entry.call.inj).mp h⟩

end Visit

section
variable {σ ε ε' β γ : Type} (g : ε → ε')

theorem run_adapt (x : Action σ ε β) (s : σ) :
    (ExceptT.adapt g x).run.run s = ((x.run.run s).1.mapError g, (x.run.run s).2) := rfl

theorem adapt_bind (x : Action σ ε β) (k : β → Action σ ε γ) :
    ExceptT.adapt g (x >>= k) = (ExceptT.adapt g x >>= fun a => ExceptT.adapt g (k a)) := by
  refine action_ext fun s => ?_
  rcases hx : x.run.run s with ⟨result, s₁⟩
  have hg := run_adapt g x s
  rw [hx] at hg
  rw [run_adapt]
  cases result with
  | error e => rw [run_bind_of_error hx, run_bind_of_error hg]; rfl
  | ok a => rw [run_bind_of_ok hx, run_bind_of_ok hg, run_adapt]

theorem adapt_forM {ι : Type} (l : List ι) (x : ι → Action σ ε Unit) :
    ExceptT.adapt g (l.forM x) = l.forM fun i => ExceptT.adapt g (x i) := by
  induction l with
  | nil => rfl
  | cons i rest ih => exact (adapt_bind g _ _).trans (congrArg _ (funext fun _ => ih))

theorem forM_congr {ι : Type} {l : List ι} {x y : ι → Action σ ε Unit}
    (h : ∀ i ∈ l, x i = y i) : l.forM x = l.forM y := by
  induction l with
  | nil => rfl
  | cons i rest ih =>
    obtain ⟨hi, hrest⟩ := List.forall_mem_cons.mp h
    change (x i >>= fun _ => rest.forM x) = (y i >>= fun _ => rest.forM y)
    rw [hi, ih hrest]

theorem mapError_inr_ne_inl {κ : Type} (x : Except ε β) (e : κ) :
    x.mapError Sum.inr ≠ .error (Sum.inl e) := by
  cases x <;> exact nofun

theorem run_adapt_eq_ok {x : Action σ ε β} {s s' : σ} {a : β} :
    (ExceptT.adapt g x).run.run s = (.ok a, s') ↔ x.run.run s = (.ok a, s') := by
  rw [run_adapt]
  rcases x.run.run s with ⟨result, s₁⟩
  cases result with
  | error e => exact ⟨nofun, nofun⟩
  | ok b => constructor <;> (rintro ⟨⟩; rfl)

end

namespace Backend
variable {α σ ε : Type}

/-- The backend whose own errors are told from those of the traversal. -/
def apart (b : Backend α σ ε) : Backend α σ (CarveError α ⊕ ε) where
  comment f text := ExceptT.adapt .inr (b.comment f text)
  trace f p := ExceptT.adapt .inr (b.trace f p)
  hole f diameter := ExceptT.adapt .inr (b.hole f diameter)
  pocket f p := ExceptT.adapt .inr (b.pocket f p)
  pause f := ExceptT.adapt .inr (b.pause f)
  refuse := .inl

/-- The traversal gets as far as a visit of a trail. What comes before the visit is not refused, and
the calls there succeed. -/
structure Reaches (b : Backend α σ ε) (trail : List (Visit α)) (s : σ) (made : List (Visit α))
    (v : Visit α) (s' : σ) : Prop where
  before : made ++ [v] <+: trail
  passed : ∀ u ∈ made, u.refusal? = none
  succeed : ((made.filterMap Visit.call?).forM b.make).run.run s = (.ok (), s')

theorem make_apart (b : Backend α σ ε) (c : Call α) :
    b.apart.make c = ExceptT.adapt .inr (b.make c) := by
  cases c <;> rfl

theorem forM_make_apart (b : Backend α σ ε) (calls : List (Call α)) :
    calls.forM b.apart.make = ExceptT.adapt .inr (calls.forM b.make) := by
  rw [adapt_forM]
  exact congrArg calls.forM (funext b.make_apart)

theorem make_eq_adapt (b : Backend α σ ε) (c : Call α) :
    b.make c = ExceptT.adapt (Sum.elim b.refuse id) (b.apart.make c) := by
  rw [make_apart]
  refine action_ext fun s => ?_
  rw [run_adapt, run_adapt]
  rcases (b.make c).run.run s with ⟨result, s₁⟩
  cases result <;> rfl

section
variable [Scalar α] {f : Frame α}

/-- Backends whose calls differ in how errors are told differ in nothing else. -/
theorem visitAll_adapt {ε' : Type} {b : Backend α σ ε} {b' : Backend α σ ε'} {g : ε → ε'}
    {cuts : List (Cut α)}
    (hmake : ∀ c ∈ (Cut.itineraryAll f cuts).calls, b'.make c = ExceptT.adapt g (b.make c))
    (hrefuse : ∀ e, b'.refuse e = g (b.refuse e)) :
    b'.visitAll f cuts = ExceptT.adapt g (b.visitAll f cuts) := by
  rw [visitAll_eq_follow, visitAll_eq_follow, follow, follow, adapt_bind, adapt_forM,
    forM_congr hmake]
  cases (Cut.itineraryAll f cuts).stop with
  | none => rfl
  | some e =>
    simp only [hrefuse]
    rfl

/-- Putting the errors together again is all that tells the two traversals apart. -/
theorem visitAll_eq_adapt (b : Backend α σ ε) (f : Frame α) (cuts : List (Cut α)) :
    b.visitAll f cuts = ExceptT.adapt (Sum.elim b.refuse id) (b.apart.visitAll f cuts) :=
  visitAll_adapt (fun c _ => b.make_eq_adapt c) fun _ => rfl

theorem visitAll_eq_forM_trail (b : Backend α σ ε) (hf : f.nesting = 0) (cuts : List (Cut α)) :
    b.visitAll f cuts = ((Cut.trailAll [] f cuts).filterMap Visit.taken?).forM b.obey := by
  have htrail : Cut.itineraryAll f cuts =
      .ofEntries ((Cut.trailAll [] f cuts).filterMap Visit.taken?) :=
    Cut.itineraryAll_eq_trail hf cuts
  rw [visitAll_eq_follow, htrail, follow_ofEntries]

end

/-- What comes before the first failure on a trail. -/
theorem CutOff.exists_made {b : Backend α σ ε} {trail : List (Visit α)} {s s' : σ}
    {calls : List (Call α)} {result : Except ε Unit}
    (h : b.CutOff (trail.filterMap Visit.taken?) s calls result s') :
    ∃ made, made <+: trail ∧ (∀ u ∈ made, u.refusal? = none) ∧
      made.filterMap Visit.call? = calls := by
  obtain ⟨rest, hrest⟩ := h.exists_rest
  obtain ⟨made, after, rfl, hmade, -⟩ := List.filterMap_eq_append_iff.mp hrest
  exact ⟨made, List.prefix_append .., Visit.passed_of_filterMap_taken? hmade⟩

/-- A refusal is the result exactly if the traversal gets as far as a visit with that refusal. -/
theorem CutOff.reaches {b : Backend α σ ε} {trail : List (Visit α)} {s s' : σ}
    {calls : List (Call α)} {e : CarveError α}
    (h : b.apart.CutOff (trail.filterMap Visit.taken?) s calls (.error (.inl e)) s') :
    ∃ made v, b.Reaches trail s made v s' ∧ v.refusal? = some e := by
  cases h with
  | failed calls entries succeed fails =>
    rw [make_apart, run_adapt, Prod.mk.injEq] at fails
    exact absurd fails.1 (mapError_inr_ne_inl _ _)
  | @refused calls e after s₁ entries succeed =>
    obtain ⟨made, more, rfl, hmade, hmore⟩ := List.filterMap_eq_append_iff.mp entries
    obtain ⟨idle, v, after, rfl, hidle, hv, -⟩ := List.filterMap_eq_cons_iff.mp hmore
    have hall : (made ++ idle).filterMap Visit.taken? = calls.map .call := by
      rw [List.filterMap_append, hmade, List.filterMap_eq_nil_iff.mpr hidle, List.append_nil]
    obtain ⟨passed, hcalls⟩ := Visit.passed_of_filterMap_taken? hall
    rw [forM_make_apart, run_adapt_eq_ok] at succeed
    refine ⟨made ++ idle, v, ⟨?_, passed, hcalls ▸ succeed⟩, Visit.taken?_eq_refusal.mp hv⟩
    exact ⟨after, by simp⟩

theorem Reaches.run_recorded {b : Backend α σ ε} {trail made : List (Visit α)} {s s' : σ}
    {v : Visit α} (h : b.Reaches trail s made v s') {e : CarveError α}
    (hv : v.refusal? = some e) :
    ((trail.filterMap Visit.taken?).forM b.apart.recorded.obey).run.run (s, []) =
      (.error (.inl e), s', made.filterMap Visit.call?) := by
  obtain ⟨after, hafter⟩ := h.before
  have hsucceed := h.succeed
  rw [← run_adapt_eq_ok Sum.inr, ← forM_make_apart] at hsucceed
  rw [← hafter, List.filterMap_append, List.filterMap_append,
    Visit.filterMap_taken?_of_passed h.passed, List.append_assoc,
    List.filterMap_cons_some (Visit.taken?_eq_refusal.mpr hv)]
  exact b.apart.run_recorded_of_refusal hsucceed e _ []

section
variable [Scalar α] {f : Frame α} {cuts : List (Cut α)}

theorem sound_of_mem_trailAll (hf : f.nesting = 0) {v : Visit α} (hv : v ∈ Cut.trailAll [] f cuts) :
    v.Sound cuts := Cut.sound_of_mem_trailAll hf (fun _ hnode => .top hnode) hv

theorem shallow_trailAll (f : Frame α) (cuts : List (Cut α)) :
    Visit.Shallow (Cut.trailAll [] f cuts) :=
  Cut.shallow_trailAll (by simp) f cuts

/-- Only the group of a visit that is too deep is refused for its depth. -/
theorem CutOff.exists_tooDeep {b : Backend α σ ε} (hf : f.nesting = 0) {s s' : σ}
    {calls : List (Call α)} {limit : Nat}
    (h : b.apart.CutOff ((Cut.trailAll [] f cuts).filterMap Visit.taken?) s calls
      (.error (.inl (.nestedTooDeep limit))) s') :
    ∃ made v, b.Reaches (Cut.trailAll [] f cuts) s made v s' ∧ v.Sound cuts ∧ v.TooDeep := by
  obtain ⟨made, v, hreach, hv⟩ := h.reaches
  have hsound := sound_of_mem_trailAll hf (hreach.before.subset (by simp : v ∈ made ++ [v]))
  have hle := (shallow_trailAll f cuts).length_le hreach.before hreach.passed
  exact ⟨made, v, hreach, hsound, hsound.tooDeep hle hv⟩

/-- Trees with no more groups in each other than there may be are never refused for their depth. -/
theorem visitAll_ne_nestedTooDeep (b : Backend α σ ε) (hf : f.nesting = 0)
    (hcuts : Cut.nestingAll cuts ≤ Frame.nestingLimit) (s : σ) (limit : Nat) :
    ((b.apart.visitAll f cuts).run.run s).1 ≠ .error (.inl (.nestedTooDeep limit)) := by
  obtain ⟨calls, result, s', hcut, hrun, -⟩ :=
    b.apart.exists_cutOff ((Cut.trailAll [] f cuts).filterMap Visit.taken?) s []
  rw [visitAll_eq_forM_trail _ hf, hrun]
  rintro rfl
  obtain ⟨made, v, -, hsound, hdeep⟩ := hcut.exists_tooDeep hf
  obtain ⟨pose, hact⟩ := hdeep.enter
  obtain ⟨poses, components, unit, comment, hnode, -⟩ := hsound.enter pose hact
  have hnesting := hsound.within.nesting_le
  rw [hnode, Cut.nesting, hdeep.depth] at hnesting
  omega

/-- A traversal from outside all groups calls nothing deeper than allowed, and tells each call in how
many groups its node lies. It ends with the refusal of a group for its depth exactly if it gets as
far as a group with a pose that lies in as many groups as there may be; then nothing in that group
has been called. -/
theorem visitAll_nesting (b : Backend α σ ε) (hf : f.nesting = 0) (cuts : List (Cut α)) (s : σ) :
    b.visitAll f cuts = ExceptT.adapt (Sum.elim b.refuse id) (b.apart.visitAll f cuts) ∧
    ∃ calls result s', (b.apart.recorded.visitAll f cuts).run.run (s, []) = (result, s', calls) ∧
      (b.apart.visitAll f cuts).run.run s = (result, s') ∧
      (∃ made, made <+: Cut.trailAll [] f cuts ∧ made.filterMap Visit.call? = calls ∧
        ∀ v ∈ made, v.Sound cuts ∧ v.groups.length ≤ Frame.nestingLimit) ∧
      ((∃ limit, result = .error (.inl (.nestedTooDeep limit))) ↔
        ∃ made v, b.Reaches (Cut.trailAll [] f cuts) s made v s' ∧ v.TooDeep) ∧
      ∀ made v, b.Reaches (Cut.trailAll [] f cuts) s made v s' → v.TooDeep →
        result = .error (.inl (.nestedTooDeep Frame.nestingLimit)) ∧ v.Sound cuts ∧
          made.filterMap Visit.call? = calls ∧ ∀ u ∈ made, ¬ v.node :: v.groups <:+ u.groups := by
  obtain ⟨calls, result, s', hcut, hrun, hlog⟩ :=
    b.apart.exists_cutOff ((Cut.trailAll [] f cuts).filterMap Visit.taken?) s []
  have hshallow := shallow_trailAll f cuts
  have hstop {made v} (hreach : b.Reaches (Cut.trailAll [] f cuts) s made v s')
      (hdeep : v.TooDeep) := hlog.symm.trans (hreach.run_recorded hdeep.refusal?)
  refine ⟨b.visitAll_eq_adapt f cuts, calls, result, s', ?_, ?_, ?_, ⟨?_, ?_⟩, ?_⟩
  · rw [visitAll_eq_forM_trail _ hf]
    exact hlog
  · rw [visitAll_eq_forM_trail _ hf]
    exact hrun
  · obtain ⟨made, hmade, hpassed, hcalls⟩ := hcut.exists_made
    exact ⟨made, hmade, hcalls, fun v hv => ⟨sound_of_mem_trailAll hf (hmade.subset hv),
      hshallow.length_le_of_mem hmade hpassed hv⟩⟩
  · rintro ⟨limit, rfl⟩
    obtain ⟨made, v, hreach, -, hdeep⟩ := hcut.exists_tooDeep hf
    exact ⟨made, v, hreach, hdeep⟩
  · rintro ⟨made, v, hreach, hdeep⟩
    exact ⟨_, congrArg Prod.fst (hstop hreach hdeep)⟩
  · intro made v hreach hdeep
    have hmem : v ∈ Cut.trailAll [] f cuts := hreach.before.subset (by simp)
    refine ⟨congrArg Prod.fst (hstop hreach hdeep), sound_of_mem_trailAll hf hmem,
      (congrArg (·.2.2) (hstop hreach hdeep)).symm, fun u hu hin => ?_⟩
    -- The components lie one group deeper than anything that is got past.
    have hmade := (List.prefix_append made [v]).trans hreach.before
    have hle := hshallow.length_le_of_mem hmade hreach.passed hu
    have hlong := hin.length_le
    rw [List.length_cons, hdeep.depth] at hlong
    omega

end

/-- The limit that a traversal reports, if it was refused for the depth of a group. -/
def depthLimit? (result : Except (CarveError α ⊕ ε) Unit) : Option Nat :=
  match result with
  | .error (.inl (.nestedTooDeep limit)) => some limit
  | _ => none

theorem depthLimit?_eq_some {result : Except (CarveError α ⊕ ε) Unit} {limit : Nat} :
    depthLimit? result = some limit ↔ result = .error (.inl (.nestedTooDeep limit)) := by
  constructor
  · intro h
    unfold depthLimit? at h
    split at h
    next => exact Option.some.inj h ▸ rfl
    next => cases h
  · rintro rfl
    rfl

/-- A pause in one group more than there may be. -/
theorem visitAll_nesting_pause :
    let f := Frame.root (Job.quarterInch : Job Float)
    let cuts := [(Cut.pause none).nested (Frame.nestingLimit + 1)]
    f.nesting = 0 ∧ ∃ s',
      (Bounds.backend.apart.recorded.visitAll f cuts).run.run ({}, []) =
        (.error (.inl (.nestedTooDeep Frame.nestingLimit)), s', []) ∧
      ∃ made v, Bounds.backend.Reaches (Cut.trailAll [] f cuts) {} made v s' ∧ v.TooDeep := by
  intro f cuts
  let run := (Bounds.backend.apart.recorded.visitAll f cuts).run.run ({}, [])
  have hrefused : depthLimit? run.1 = some Frame.nestingLimit := by decide +kernel
  have hcalls : run.2.2.isEmpty = true := by decide +kernel
  obtain ⟨-, calls, result, s', hlog, -, -, hiff, -⟩ :=
    Bounds.backend.visitAll_nesting (f := f) rfl cuts {}
  have hrun : run = (result, s', calls) := hlog
  rw [hrun] at hrefused hcalls
  obtain rfl := depthLimit?_eq_some.mp hrefused
  obtain rfl := List.isEmpty_iff.mp hcalls
  exact ⟨rfl, s', hlog, hiff.mp ⟨_, rfl⟩⟩

end Backend
end Toolpath
