import Interchange.Synthesis.Rules
import Interchange.Synthesis.Unitary2

namespace Interchange.Synthesis

variable {F : Type} [Scalar F]

open Substitute (rotation)

/-- A one-qubit unitary as rotations about Z, Y and Z, or about Z alone when Y turns by nothing. -/
def eulerSequence (u : Unitary2 F) (operand : Nat) : Except (CircuitError F) (Sequence F) := do
  let angles := u.zyz
  if Scalar.abs angles.theta < Unitary2.angleEpsilon then
    return [← rotation .rz (normalizeAngle (angles.phi + angles.lambda)) operand]
  else
    return [← rotation .rz (normalizeAngle angles.lambda) operand,
      ← rotation .ry angles.theta operand,
      ← rotation .rz (normalizeAngle angles.phi) operand]

def phaseAngle? (tolerance : F) (u : Unitary2 F) : Option F :=
  if tolerance < u.b.norm ∨ tolerance < u.c.norm then none
  else some (normalizeAngle (u.d.arg - u.a.arg))

/-- A one-qubit unitary; one that is diagonal up to the tolerance is a single rotation. -/
def oneQubit (tolerance : F) (u : Unitary2 F) : Except (CircuitError F) (Sequence F) :=
  match phaseAngle? tolerance u with
  | some angle => do return [← rotation .rz angle 0]
  | none => eulerSequence u 0

end Interchange.Synthesis
