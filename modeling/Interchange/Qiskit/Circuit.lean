import Interchange.Circuit.Stats
import Interchange.Convert.Placement
import Interchange.Qiskit.Document

namespace Interchange.Qiskit

variable {F : Type} [Scalar F]

/-- Every gate is there under its own name. -/
def table : GateTable where
  framework := .qiskit
  entries := Tag.all.map fun tag => (tag, tag.name)
  freeParameters := true

def directives : List String := ["barrier", "delay"]

def Operation.readMeasure (o : Operation F) (c : Circuit F) : Except (ConvertError F) (Circuit F) :=
  if o.qubits.length ≠ o.clbits.length then
    .error (.malformed .qiskit (.measureCount o.qubits.length o.clbits.length))
  else (o.qubits.zip o.clbits).foldlM
    (fun c pair => ConvertError.lift .qiskit (c.measure pair.1 pair.2)) c

/-- The matrix with the first qubit highest in the index. -/
def Operation.readMatrix? (o : Operation F) : Except (ConvertError F) (Option (Operator F)) :=
  o.matrix.mapM fun rows => do return (← readMatrix .qiskit rows).reverseQubits

/-- The gate of an operation. An unknown name is a unitary when it comes with a matrix. -/
def Operation.readGate (o : Operation F) (c : Circuit F) :
    Except (ConvertError F) (Circuit F × Gate F) := do
  let given ← o.readMatrix?
  match (table.tag? o.name).filter (· != .unitary), given with
  | some tag, given =>
    let (c, params) ← ConvertError.lift .qiskit (Angle.readAll c o.params)
    let gate ← ConvertError.lift .qiskit (Gate.new tag params)
    match given with
    -- the given matrix takes the place of the standard one
    | some m => return (c, ← ConvertError.lift .qiskit (gate.withMatrix m))
    | none => return (c, gate)
  | none, some m => return (c, ← ConvertError.lift .qiskit (Gate.ofMatrix m))
  | none, none =>
    if o.name = Tag.unitary.name then .error (.malformed .qiskit .unitaryWithoutMatrix)
    else .error (.unsupportedGate .qiskit o.name)

def Operation.read (o : Operation F) (c : Circuit F) : Except (ConvertError F) (Circuit F) := do
  if directives.contains o.name then return c
  else if o.name = Tag.measure.name then o.readMeasure c
  else
    let (c, gate) ← o.readGate c
    ConvertError.lift .qiskit (c.pushGate gate o.qubits)

def decode (d : Document F) : Except (ConvertError F) (Circuit F) :=
  d.operations.foldlM (fun c o => o.read c)
    { qubits := d.qubits, clbits := d.clbits, registry := .ofNames d.parameters }

def Operation.ofInstruction [Numeral F] (i : Instruction F) :
    Except (ConvertError F) (Operation F) := do
  return {
    name := ← table.require i.tag
    qubits := i.qubits
    clbits := i.clbits
    params := i.gate.params.map Angle.ofParam
    matrix :=
      if i.tag = .unitary then i.gate.matrix.map fun m => m.reverseQubits.toPairs else none }

def encode [Numeral F] (c : Circuit F) : Except (ConvertError F) (Document F) := do
  return {
    qubits := c.qubits
    clbits := c.clbits
    parameters := c.freeParameters.map (·.name)
    operations := ← c.instructions.mapM Operation.ofInstruction }

end Interchange.Qiskit
