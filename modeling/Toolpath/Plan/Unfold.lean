/-! Sequences that a step function unrolls from a state. -/
namespace Toolpath

/-- What the steps give until there is none, at most `fuel` of them. -/
def unfold {σ β : Type} (next? : σ → Option (β × σ)) : (fuel : Nat) → σ → List β
  | 0, _ => []
  | fuel + 1, s =>
    match next? s with
    | some (b, s') => b :: unfold next? fuel s'
    | none => []

end Toolpath
