/-! Sets of characters, given by runs of code points. -/
namespace Toolpath.Text

/-- Whether a character lies in one of the runs, each of them given by its two ends. -/
def inRuns (runs : List (Nat × Nat)) (c : Char) : Bool :=
  runs.any fun (first, last) => first ≤ c.toNat && c.toNat ≤ last

end Toolpath.Text
