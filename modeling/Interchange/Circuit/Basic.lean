import Interchange.Circuit.Instruction
import Interchange.InPlace
import Interchange.Param.Parser

namespace Interchange

/-- A circuit: the sizes of its registers, its instructions in order, and its free parameters. The
layout is there once the qubits have been made dense, and tells whether in reversed order. -/
structure Circuit (F : Type) where
  qubits : Nat
  clbits : Nat
  instructions : List (Instruction F) := []
  registry : Registry := {}
  layout : Option Bool := none

namespace Circuit

variable {F : Type} [Scalar F]

instance : BEq (Circuit F) :=
  ⟨fun a b => a.qubits == b.qubits && a.clbits == b.clbits && a.instructions == b.instructions &&
    a.registry == b.registry && a.layout == b.layout⟩

def checkRange (width : Nat) (i : Instruction F) : Except (CircuitError F) Unit :=
  match i.qubits.find? (width ≤ ·) with
  | some q => .error (.qubitOutOfRange q width i.tag)
  | none => .ok ()

/-- The classical register grows to hold the first bit outside. -/
def hold (c : Circuit F) (bits : List Nat) : Circuit F :=
  match bits.find? (c.clbits ≤ ·) with
  | some bit => { c with clbits := bit + 1 }
  | none => c

abbrev Builder (F : Type) := InPlace (CircuitError F) (Circuit F)

namespace Builder

def push (i : Instruction F) : Builder F Unit := do
  checkRange (← get).qubits i
  modify (·.hold i.clbits)
  modify fun c => { c with instructions := c.instructions ++ [i] }

def gate (g : Gate F) (qubits : List Nat) : Builder F Unit := do
  push (← Instruction.new g qubits)

def apply (tag : Tag) (params : List (Param F)) (qubits : List Nat) : Builder F Unit := do
  push (← Instruction.apply tag params qubits)

def measure (qubit clbit : Nat) : Builder F Unit := push (.measure qubit clbit)

end Builder

def push (c : Circuit F) (i : Instruction F) : Except (CircuitError F) (Circuit F) :=
  (Builder.push i).outcome c

def pushGate (c : Circuit F) (g : Gate F) (qubits : List Nat) :
    Except (CircuitError F) (Circuit F) := (Builder.gate g qubits).outcome c

def apply (c : Circuit F) (tag : Tag) (params : List (Param F)) (qubits : List Nat) :
    Except (CircuitError F) (Circuit F) := (Builder.apply tag params qubits).outcome c

def measure (c : Circuit F) (qubit clbit : Nat) : Except (CircuitError F) (Circuit F) :=
  (Builder.measure qubit clbit).outcome c

def param (c : Circuit F) (name : String) : Circuit F × Param F :=
  let (registry, handle) := c.registry.register name
  ({ c with registry := registry }, .ref handle)

def readParam (c : Circuit F) (text : String) : Circuit F × Except (CircuitError F) (Param F) :=
  let (registry, result) := Param.parse c.registry text
  ({ c with registry := registry }, result)

/-- Other instructions on a register of another width; the rest stays. -/
def withShape (c : Circuit F) (qubits : Nat) (instructions : List (Instruction F)) :
    Except (CircuitError F) (Circuit F) := do
  instructions.forM (checkRange qubits)
  return { c with qubits := qubits, instructions := instructions }

def withInstructions (c : Circuit F) (instructions : List (Instruction F)) :
    Except (CircuitError F) (Circuit F) := c.withShape c.qubits instructions

def bind (c : Circuit F) (b : Bindings F) : Except (CircuitError F) (Circuit F) := do
  c.withInstructions (← c.instructions.mapM fun i => do i.withGate (← i.gate.substitute b))

end Circuit

end Interchange
