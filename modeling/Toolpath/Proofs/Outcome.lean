/-! Results that may be errors or missing, taken apart. -/
namespace Toolpath

/-- Two steps succeed only if the first one does and the second one does with its result. -/
theorem exists_of_bind_eq_ok {ε β γ : Type} {x : Except ε β} {k : β → Except ε γ} {c : γ}
    (h : (x >>= k) = .ok c) : ∃ b, x = .ok b ∧ k b = .ok c := by
  cases x with
  | error e => cases h
  | ok b => exact ⟨b, rfl, h⟩

/-- What is made of a result is there only if the result is. -/
theorem exists_of_map_eq_ok {ε β γ : Type} {x : Except ε β} {k : β → γ} {c : γ}
    (h : k <$> x = .ok c) : ∃ b, x = .ok b ∧ k b = c := by
  cases x with
  | error e => cases h
  | ok b => exact ⟨b, rfl, Except.ok.inj h⟩

/-- A check before a step has to pass for the step to be taken. -/
theorem of_check_eq_ok {ε β γ : Type} {p : Prop} [Decidable p] {e : ε} {k : β → Except ε γ}
    {rest : Except ε γ} {c : γ} (h : (if p then (throw e >>= k) else rest) = .ok c) :
    ¬ p ∧ rest = .ok c := by
  by_cases hp : p
  · rw [if_pos hp] at h
    cases h
  · rw [if_neg hp] at h
    exact ⟨hp, h⟩

theorem exists_of_isOk {ε β : Type} {x : Except ε β} (h : x.isOk = true) : ∃ b, x = .ok b := by
  cases x with
  | error e => cases h
  | ok b => exact ⟨b, rfl⟩

/-- Results are all there if each of them is. -/
theorem mapM_eq_some_map {β γ : Type} {f : β → Option γ} {g : β → γ} {l : List β}
    (h : ∀ b ∈ l, f b = some (g b)) : l.mapM f = some (l.map g) := by
  induction l with
  | nil => rfl
  | cons b rest ih =>
    obtain ⟨hb, hrest⟩ := List.forall_mem_cons.mp h
    simp [List.mapM_cons, hb, ih hrest]

theorem exists_of_mapM_eq_some {β γ : Type} {f : β → Option γ} {l : List β} {m : List γ}
    (h : l.mapM f = some m) : ∀ b ∈ l, ∃ c, f b = some c := by
  induction l generalizing m with
  | nil => simp
  | cons b rest ih =>
    cases hb : f b with
    | none => simp [List.mapM_cons, hb] at h
    | some c =>
      cases hrest : rest.mapM f with
      | none => simp [List.mapM_cons, hb, hrest] at h
      | some cs => exact List.forall_mem_cons.mpr ⟨⟨c, hb⟩, ih hrest⟩

end Toolpath
