import Interchange.Operator.Basic

namespace Interchange.Operator

variable {F : Type} [Scalar F]

/-- The last of the positions where an entry has the largest modulus, by rows. -/
def largestEntry (m : Operator F) : Nat × Nat :=
  let positions := (List.range m.dim).flatMap fun i => (List.range m.dim).map fun j => (i, j)
  positions.foldl
    (fun best p => if (m.get best.1 best.2).norm ≤ (m.get p.1 p.2).norm then p else best) (0, 0)

/-- Whether `a` is a unit multiple of `b`, up to a tolerance in every entry. The factor is read off
where `b` is largest. -/
def equalUpToPhase (tolerance : F) (a b : Operator F) : Bool :=
  if a.dim ≠ b.dim then false
  else if b.dim = 0 then true
  else
    let (i, j) := b.largestEntry
    let pivot := b.get i j
    -- no phase can be read off a matrix that is all but zero
    if pivot.norm < tolerance then all a.dim fun i j => decide ((a.get i j).norm ≤ tolerance)
    else
      let ratio := a.get i j / pivot
      if tolerance < Scalar.abs (ratio.norm - 1) then false
      else
        let phase := ratio.divReal ratio.norm
        all a.dim fun i j => Amplitude.near tolerance (a.get i j) (phase * b.get i j)

end Interchange.Operator
