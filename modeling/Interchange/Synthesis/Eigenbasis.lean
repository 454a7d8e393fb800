import Interchange.Operator.Basic
import Interchange.Scalar.Double

namespace Interchange

/-- A solver for the symmetric eigenvalue problem: a real orthogonal basis that diagonalizes a
symmetric unitary, if one is found. Everything that synthesizes gates from a matrix holds of any
solver. -/
class Eigensolver (F : Type) where
  eigenbasis? : Operator F → Option (Operator F)

namespace Synthesis

variable {F : Type} [Scalar F]

open Scalar

def planeRotation (dim p q : Nat) (c s : F) : Operator F :=
  .ofFn dim fun i j =>
    if i = p ∧ j = p ∨ i = q ∧ j = q then ⟨c, 0⟩
    else if i = p ∧ j = q then ⟨s, 0⟩
    else if i = q ∧ j = p then ⟨-s, 0⟩
    else if i = j then 1 else 0

/-- The rotation that clears entry `(p, q)` of a real symmetric matrix. -/
def clearing (m : Operator F) (p q : Nat) : Operator F :=
  let off := (m.get p q).re
  if off == 0 then .identity m.dim
  else
    let slope := ((m.get q q).re - (m.get p p).re) / (two * off)
    let root := sqrt (1 + slope * slope)
    -- the smaller of the two tangents: it turns by at most `π / 4`
    let t := if slope < 0 then -(1 / (root - slope)) else 1 / (root + slope)
    let c := 1 / sqrt (1 + t * t)
    planeRotation m.dim p q c (t * c)

def rotateOnce (state : Operator F × Operator F) (axes : Nat × Nat) : Operator F × Operator F :=
  let turn := clearing state.1 axes.1 axes.2
  (turn.transpose * state.1 * turn, state.2 * turn)

def axisPairs (dim : Nat) : List (Nat × Nat) :=
  (List.range dim).flatMap fun q => (List.range q).map fun p => (p, q)

def sweeps : Nat → Operator F × Operator F → Operator F × Operator F
  | 0, state => state
  | n + 1, state => sweeps n ((axisPairs state.1.dim).foldl rotateOnce state)

/-- An orthogonal matrix whose columns are eigenvectors of a real symmetric matrix. Sweeps converge
quadratically, so sixteen leave nothing above rounding. -/
def eigenvectors (m : Operator F) : Operator F := (sweeps 16 (m, .identity m.dim)).2

def offDiagonal (m : Operator F) : F :=
  ((List.range m.dim).flatMap fun i => (List.range m.dim).filterMap fun j =>
    if i = j then none else some (m.get i j).norm).foldl (fun a b => if a < b then b else a) 0

def mixture (m : Operator F) (x y : F) : Operator F :=
  .ofFn m.dim fun i j => ⟨x * (m.get i j).re + y * (m.get i j).im, 0⟩

def diagonalizes (p m : Operator F) : Bool :=
  decide (offDiagonal (p.transpose * m * p) < tenth 9)

def weights (k : Nat) : F × F :=
  if k = 0 then
    (ofDecimal ⟨12602066112249388, -16⟩, ofDecimal ⟨22317849046722027, -17⟩)
  else (cos (ofNat k), sin (ofNat k))

def maxMixtures : Nat := 100

/-- Real and imaginary part of a symmetric unitary commute, so the eigenvectors of a mixture of them
serve unless the mixture joins two eigenvalues. -/
def mixedEigenbasis? (m : Operator F) : Option (Operator F) :=
  (List.range maxMixtures).findSome? fun k =>
    let (x, y) := weights k
    let p := eigenvectors (mixture m x y)
    if diagonalizes p m then some p else none

instance : Eigensolver Float := ⟨mixedEigenbasis?⟩

end Synthesis

end Interchange
