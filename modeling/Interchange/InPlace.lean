namespace Interchange

/-- Work on a state in place. An error does not take back what was changed before it. -/
abbrev InPlace (ε σ : Type) := ExceptT ε (StateM σ)

namespace InPlace

variable {ε σ α : Type}

/-- The answer, and the state that is left, also where the answer is an error. -/
def perform (work : InPlace ε σ α) (s : σ) : Except ε α × σ := work.run.run s

def outcome (work : InPlace ε σ Unit) (s : σ) : Except ε σ :=
  match work.perform s with
  | (.ok _, s') => .ok s'
  | (.error e, _) => .error e

end InPlace

end Interchange
