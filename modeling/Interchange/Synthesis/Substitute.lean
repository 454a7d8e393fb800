import Interchange.Circuit.Instruction

namespace Interchange

/-- A gate of a replacement sequence, on positions in the operand list of the gate it replaces. -/
structure Substitute (F : Type) where
  gate : Gate F
  operands : List Nat

namespace Substitute

variable {F : Type} [Scalar F]

def new (tag : Tag) (params : List (Param F)) (operands : List Nat) :
    Except (CircuitError F) (Substitute F) := do
  return ⟨← Gate.new tag params, operands⟩

def fixed (tag : Tag) (operands : List Nat) : Except (CircuitError F) (Substitute F) :=
  new tag [] operands

def turn (tag : Tag) (angle : Param F) (operand : Nat) : Except (CircuitError F) (Substitute F) :=
  new tag [angle] [operand]

def rotation (tag : Tag) (angle : F) (operand : Nat) : Except (CircuitError F) (Substitute F) :=
  turn tag (.const angle) operand

def operand (g : Gate F) (qubits : List Nat) (position : Nat) : Except (CircuitError F) Nat :=
  match qubits[position]? with
  | some q => .ok q
  | none => .error (.qubitCount g.tag (position + 1) qubits.length)

def place (s : Substitute F) (qubits : List Nat) : Except (CircuitError F) (Instruction F) := do
  Instruction.new s.gate (← s.operands.mapM (operand s.gate qubits))

def placeAll (sequence : List (Substitute F)) (qubits : List Nat) :
    Except (CircuitError F) (List (Instruction F)) := sequence.mapM (·.place qubits)

end Substitute

end Interchange
