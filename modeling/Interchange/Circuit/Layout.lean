import Interchange.Circuit.Stats

namespace Interchange.Circuit

variable {F : Type} [Scalar F]

/-- The place of a qubit among the referenced ones, from the front or from the back. Others stay. -/
def densePlace (referenced : List Nat) (reverse : Bool) (q : Nat) : Nat :=
  match referenced.idxOf? q with
  | some k => if reverse then referenced.length - 1 - k else k
  | none => q

/-- Moves the referenced qubits to the indices from zero on, in their order or reversed. A circuit
that already has this layout stays as it is. -/
def compress (c : Circuit F) (reverse : Bool) : Except (CircuitError F) (Circuit F) :=
  if c.layout = some reverse then .ok c
  else do
    let referenced := c.referenced
    let moved ← c.instructions.mapM (·.remap (densePlace referenced reverse))
    let dense ← c.withShape referenced.length moved
    return { dense with layout := some reverse }

/-- Puts a gate on every qubit that no instruction acts on. -/
def expand (c : Circuit F) (pad : Tag) : Except (CircuitError F) (Circuit F) := do
  let gate ← Gate.fixed pad
  -- a measurement has one qubit too, but does not pad
  if gate.qubits ≠ 1 ∨ pad.isUnitary = false then
    .error (.qubitCount pad 1 gate.qubits)
  else
    let referenced := c.referenced
    let idle := (List.range c.qubits).filter (!referenced.contains ·)
    let padding ← idle.mapM fun q => Instruction.new gate [q]
    c.withInstructions (c.instructions ++ padding)

def expandIdentity (c : Circuit F) : Except (CircuitError F) (Circuit F) := c.expand .id

def mirror (c : Circuit F) : Except (CircuitError F) (Circuit F) := do
  c.withInstructions (← c.instructions.mapM (·.remap fun q => c.qubits - 1 - q))

def widen (c : Circuit F) (width : Nat) : Except (CircuitError F) (Circuit F) :=
  if c.qubits = width then .ok c else c.withShape width c.instructions

end Interchange.Circuit
