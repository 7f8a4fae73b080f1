import Mathlib.SetTheory.Cardinal.Finite
import Toolpath.Plan.Unfold

/-!
Sequences that a step function unrolls, and whether they end. They do where every step that is
followed by another lowers the state, and where steps keep the order of states only there.
-/
namespace Toolpath
variable {σ β : Type} {next? : σ → Option (β × σ)}

/-- Whatever is unrolled, some state gave it. -/
theorem exists_of_mem_unfold {fuel : Nat} {s : σ} {b : β} (h : b ∈ unfold next? fuel s) :
    ∃ t t', next? t = some (b, t') := by
  induction fuel generalizing s with
  | zero => simp [unfold] at h
  | succ n ih =>
    rw [unfold] at h
    cases hs : next? s with
    | none => simp [hs] at h
    | some r =>
      simp only [hs] at h
      rcases List.mem_cons.mp h with rfl | h
      · exact ⟨s, r.2, hs⟩
      · exact ih h

/-- What every step keeps of the state, and gives of its result, holds of all results. -/
theorem forall_mem_unfold {I : σ → Prop} {Q : β → Prop}
    (hstep : ∀ s b s', I s → next? s = some (b, s') → Q b ∧ I s') {fuel : Nat} {s : σ}
    (hs : I s) : ∀ b ∈ unfold next? fuel s, Q b := by
  induction fuel generalizing s with
  | zero => simp [unfold]
  | succ n ih =>
    rw [unfold]
    cases hnext : next? s with
    | none => simp
    | some r =>
      obtain ⟨hr, hs'⟩ := hstep s r.1 r.2 hs hnext
      exact List.forall_mem_cons.mpr ⟨hr, ih hs'⟩

theorem unfold_of_none {s : σ} (h : next? s = none) (fuel : Nat) : unfold next? fuel s = [] := by
  cases fuel with
  | zero => rfl
  | succ n => simp only [unfold, h]

theorem unfold_succ_of_some {s s' : σ} {b : β} (h : next? s = some (b, s')) (fuel : Nat) :
    unfold next? (fuel + 1) s = b :: unfold next? fuel s' := by
  simp only [unfold, h]

/-- Neighbours of an unrolled list are given by two steps in a row. -/
theorem isChain_unfold {R : β → β → Prop}
    (hstep : ∀ s b s' b' s'', next? s = some (b, s') → next? s' = some (b', s'') → R b b')
    (fuel : Nat) (s : σ) : (unfold next? fuel s).IsChain R := by
  induction fuel generalizing s with
  | zero => exact .nil
  | succ n ih =>
    cases hs : next? s with
    | none =>
      rw [unfold_of_none hs]
      exact .nil
    | some r =>
      rw [unfold_succ_of_some hs, List.isChain_cons]
      refine ⟨fun b hb => ?_, ih r.2⟩
      cases n with
      | zero => cases hb
      | succ k =>
        cases hr : next? r.2 with
        | none =>
          rw [unfold_of_none hr] at hb
          cases hb
        | some q =>
          rw [unfold_succ_of_some hr, List.head?_cons] at hb
          obtain rfl := Option.some.inj hb
          exact hstep s r.1 r.2 q.1 q.2 hs hr

/-- From a state the steps end, having given a list. -/
inductive Unrolls (next? : σ → Option (β × σ)) : σ → List β → Prop
  | done {s : σ} (h : next? s = none) : Unrolls next? s []
  | step {s t : σ} {b : β} {l : List β} (h : next? s = some (b, t)) (rest : Unrolls next? t l) :
      Unrolls next? s (b :: l)

/-- Some number of steps leads from one state to another. -/
inductive Reaches (next? : σ → Option (β × σ)) (s : σ) : σ → Prop
  | start : Reaches next? s s
  | step {t u : σ} {b : β} (before : Reaches next? s t) (h : next? t = some (b, u)) :
      Reaches next? s u

theorem Reaches.trans {s t u : σ} (hst : Reaches next? s t) (htu : Reaches next? t u) :
    Reaches next? s u := by
  induction htu with
  | start => exact hst
  | step _ h ih => exact ih.step h

namespace Unrolls
variable {s t : σ} {l : List β}

theorem unique {m : List β} (hl : Unrolls next? s l) (hm : Unrolls next? s m) : l = m := by
  induction hl generalizing m with
  | done h =>
    cases hm with
    | done => rfl
    | step hstep => cases h.symm.trans hstep
  | step h _ ih =>
    cases hm with
    | done hdone => cases hdone.symm.trans h
    | step hstep rest =>
      cases h.symm.trans hstep
      rw [ih rest]

theorem exists_of_reaches (hl : Unrolls next? s l) (h : Reaches next? s t) :
    ∃ m, Unrolls next? t m := by
  induction h with
  | start => exact ⟨l, hl⟩
  | step _ h ih =>
    obtain ⟨m, hm⟩ := ih
    cases hm with
    | done hdone => cases hdone.symm.trans h
    | step hstep rest =>
      cases h.symm.trans hstep
      exact ⟨_, rest⟩

/-- What keeps every state of a kind going never ends. -/
theorem not_of_invariant {I : σ → Prop} (hI : ∀ t, I t → ∃ b u, next? t = some (b, u) ∧ I u)
    (hs : I s) : ¬ Unrolls next? s l := by
  intro h
  induction h with
  | done h =>
    obtain ⟨b, u, hnext, -⟩ := hI _ hs
    cases h.symm.trans hnext
  | step h _ ih =>
    obtain ⟨b, u, hnext, hu⟩ := hI _ hs
    cases h.symm.trans hnext
    exact ih hu

/-- The states of a run that ends are all different, since from each of them it is a different
number of steps to the end. -/
theorem exists_nodup (h : Unrolls next? s l) : ∃ states : List σ, states.length = l.length + 1 ∧
    states.Nodup ∧ ∀ t ∈ states, ∃ m, Unrolls next? t m ∧ m.length ≤ l.length := by
  induction h with
  | @done s h =>
    refine ⟨[s], rfl, List.nodup_singleton _, fun t ht => ?_⟩
    rw [List.mem_singleton.mp ht]
    exact ⟨[], .done h, le_rfl⟩
  | @step s t b l h rest ih =>
    obtain ⟨states, hlength, hnodup, hends⟩ := ih
    refine ⟨s :: states, by rw [List.length_cons, hlength, List.length_cons], ?_, ?_⟩
    · refine List.nodup_cons.mpr ⟨fun hmem => ?_, hnodup⟩
      obtain ⟨m, hm, hle⟩ := hends s hmem
      rw [hm.unique (.step h rest), List.length_cons] at hle
      omega
    · refine List.forall_mem_cons.mpr ⟨⟨_, .step h rest, le_rfl⟩, fun u hu => ?_⟩
      obtain ⟨m, hm, hle⟩ := hends u hu
      exact ⟨m, hm, hle.trans (Nat.le_succ _)⟩

theorem length_lt_card [Finite σ] (h : Unrolls next? s l) : l.length < Nat.card σ := by
  have := Fintype.ofFinite σ
  obtain ⟨states, hlength, hnodup, -⟩ := h.exists_nodup
  have hcard := hnodup.length_le_card
  rw [Nat.card_eq_fintype_card]
  omega

theorem unfold_eq (h : Unrolls next? s l) {fuel : Nat} (hfuel : l.length ≤ fuel) :
    unfold next? fuel s = l := by
  induction h generalizing fuel with
  | done h => exact unfold_of_none h fuel
  | step h _ ih =>
    obtain ⟨n, rfl⟩ := Nat.exists_eq_add_of_le' (Nat.lt_of_lt_of_le (Nat.succ_pos _) hfuel)
    rw [unfold_succ_of_some h, ih (Nat.le_of_succ_le_succ hfuel)]

/-- A run by the states that it goes through, with the step after which there is none. -/
theorem of_states {u : ℕ → σ} {f : ℕ → β} {n : ℕ} {b : β} (hs : u 0 = s)
    (hstep : ∀ k < n, next? (u k) = some (f k, u (k + 1))) (hlast : next? (u n) = some (b, t))
    (hdone : next? t = none) : Unrolls next? s ((List.range n).map f ++ [b]) := by
  subst hs
  induction n generalizing u f with
  | zero => exact .step hlast (.done hdone)
  | succ n ih =>
    have hrest : Unrolls next? (u 1) ((List.range n).map (fun k => f (k + 1)) ++ [b]) :=
      ih (u := fun k => u (k + 1)) (fun k hk => hstep (k + 1) (Nat.succ_lt_succ hk)) hlast
    rw [List.range_succ_eq_map, List.map_cons, List.map_map]
    exact .step (hstep 0 n.succ_pos) hrest

end Unrolls

/-- A loop that goes from place to place as long as a condition holds of the place, and then takes
at most one more step. -/
structure Loop {τ : Type} (next? : σ → Option (β × σ)) (state : τ → σ) (go : τ → τ)
    (on sound : τ → Prop) : Prop where
  injective : Function.Injective state
  step : ∀ z, sound z → on z → ∃ b, next? (state z) = some (b, state (go z))
  last : ∀ z, sound z → ¬ on z → next? (state z) = none ∨
    ∃ b u, next? (state z) = some (b, u) ∧ next? u = none ∧ ∀ w, u ≠ state w
  keeps : ∀ z, sound z → on z → sound (go z)

namespace Loop
variable {τ : Type} {state : τ → σ} {go : τ → τ} {on sound : τ → Prop} {z w : τ}

theorem unrolls_of_not_on (h : Loop next? state go on sound) (hz : sound z) (hoff : ¬ on z) :
    ∃ l, Unrolls next? (state z) l := by
  rcases h.last z hz hoff with hnone | ⟨b, u, hnext, hnone, -⟩
  · exact ⟨[], .done hnone⟩
  · exact ⟨[b], .step hnext (.done hnone)⟩

/-- A loop in which every place is lower than the one before ends. -/
theorem exists_unrolls_of_lt (h : Loop next? state go on sound) (rank : τ → ℕ) (hz : sound z)
    (hlt : ∀ w, Reaches next? (state z) (state w) → sound w → rank w ≤ rank z → on w →
      rank (go w) < rank w) : ∃ l, Unrolls next? (state z) l := by
  obtain ⟨n, hn⟩ : ∃ n, rank z = n := ⟨_, rfl⟩
  induction n using Nat.strong_induction_on generalizing z with
  | _ n ih =>
    by_cases hon : on z
    · obtain ⟨b, hstep⟩ := h.step z hz hon
      have hreach : Reaches next? (state z) (state (go z)) := .step .start hstep
      have hlower : rank (go z) < rank z := hlt z .start hz le_rfl hon
      obtain ⟨l, hl⟩ := ih (rank (go z)) (hn ▸ hlower) (h.keeps z hz hon)
        (fun w hw hsound hle => hlt w (hreach.trans hw) hsound (hle.trans hlower.le)) rfl
      exact ⟨b :: l, .step hstep hl⟩
    · exact h.unrolls_of_not_on hz hon

/-- A place that is reached was come to by going from place to place. -/
theorem sound_of_reaches (h : Loop next? state go on sound) (hz : sound z)
    (hw : Reaches next? (state z) (state w)) : sound w := by
  have hall {s : σ} (hs : Reaches next? (state z) s) :
      (∃ v, s = state v ∧ sound v) ∨ next? s = none ∧ ∀ v, s ≠ state v := by
    induction hs with
    | start => exact .inl ⟨z, rfl, hz⟩
    | @step t u b _ hnext ih =>
      rcases ih with ⟨v, rfl, hv⟩ | ⟨hnone, -⟩
      · by_cases hon : on v
        · obtain ⟨c, hstep⟩ := h.step v hv hon
          cases hstep.symm.trans hnext
          exact .inl ⟨go v, rfl, h.keeps v hv hon⟩
        · rcases h.last v hv hon with hnone | ⟨c, x, hlast, hnone, hne⟩
          · cases hnone.symm.trans hnext
          · cases hlast.symm.trans hnext
            exact .inr ⟨hnone, hne⟩
      · cases hnone.symm.trans hnext
  rcases hall hw with ⟨v, hv, hsound⟩ | ⟨-, hne⟩
  · exact h.injective hv ▸ hsound
  · exact absurd rfl (hne w)

/-- Where going keeps the order of places, the loop ends exactly if each place is lower than the one
before. From a place that is not, it never gets below that place again. -/
theorem exists_unrolls_iff (h : Loop next? state go on sound) (rank : τ → ℕ) (hz : sound z)
    (hmono : ∀ v w, sound v → sound w → rank v ≤ rank w → on v →
      on w ∧ rank (go v) ≤ rank (go w)) :
    (∃ l, Unrolls next? (state z) l) ↔
      ∀ w, Reaches next? (state z) (state w) → on w → rank (go w) < rank w := by
  refine ⟨fun ⟨l, hl⟩ w hreach hon => ?_, fun hlt =>
    h.exists_unrolls_of_lt rank hz fun w hw _ _ hon => hlt w hw hon⟩
  by_contra hstall
  obtain ⟨m, hm⟩ := hl.exists_of_reaches hreach
  have hw : sound w := h.sound_of_reaches hz hreach
  refine Unrolls.not_of_invariant
    (I := fun s => ∃ v, s = state v ∧ sound v ∧ rank w ≤ rank v) ?_ ⟨w, rfl, hw, le_rfl⟩ hm
  rintro s ⟨v, rfl, hv, hle⟩
  obtain ⟨hv', hgo⟩ := hmono w v hw hv hle hon
  obtain ⟨b, hstep⟩ := h.step v hv hv'
  exact ⟨b, _, hstep, go v, rfl, h.keeps v hv hv', (not_lt.mp hstall).trans hgo⟩

end Loop
end Toolpath
