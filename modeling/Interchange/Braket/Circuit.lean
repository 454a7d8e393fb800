import Interchange.Braket.Program
import Interchange.Convert.Placement

namespace Interchange.Braket

variable {F : Type} [Scalar F]

/-- The gates of programs. All qubits are measured at the end, so there is no measurement. -/
def table : GateTable where
  framework := .braket
  entries :=
    [(.h, "h"), (.x, "x"), (.y, "y"), (.z, "z"), (.s, "s"), (.sdg, "si"), (.t, "t"), (.tdg, "ti"),
      (.id, "i"), (.sx, "v"), (.sxdg, "vi"), (.phase, "phaseshift"), (.rx, "rx"), (.ry, "ry"),
      (.rz, "rz"), (.cx, "cnot"), (.cy, "cy"), (.cz, "cz"), (.swap, "swap"), (.iswap, "iswap"),
      (.cphase, "cphaseshift"), (.rxx, "xx"), (.ryy, "yy"), (.rzz, "zz"), (.ccx, "ccnot"),
      (.cswap, "cswap"), (.unitary, "unitary")]
  freeParameters := true
  implicitMeasurement := true

def Operation.readGate (o : Operation F) (c : Circuit F) :
    Except (ConvertError F) (Circuit F × Gate F) :=
  match table.tag? o.type with
  | none => .error (.unsupportedGate .braket o.type)
  | some .unitary => match o.matrix with
    | none => .error (.malformed .braket .unitaryWithoutMatrix)
    | some rows => do
      let m ← readMatrix .braket rows
      return (c, ← ConvertError.lift .braket (Gate.ofMatrix m))
  | some tag => do
    let (c, params) ← ConvertError.lift .braket (Angle.readAll c o.angle.toList)
    return (c, ← ConvertError.lift .braket (Gate.new tag params))

def Operation.read (o : Operation F) (c : Circuit F) : Except (ConvertError F) (Circuit F) := do
  let (c, gate) ← o.readGate c
  ConvertError.lift .braket (c.pushGate gate o.operands.qubits)

/-- The circuit of a program, just wide enough for its qubits. -/
def decode (p : Program F) : Except (ConvertError F) (Circuit F) := do
  if p.header.name ≠ schema then .error (.malformed .braket (.schema p.header.name))
  let width ← widthOf .braket (p.operations.flatMap (·.operands.qubits))
  p.operations.foldlM (fun c o => o.read c) { qubits := width, clbits := 0 }

def Operation.ofInstruction [Numeral F] (i : Instruction F) :
    Except (ConvertError F) (Operation F) := do
  return {
    type := ← table.require i.tag
    operands := .ofQubits i.gate.controls i.qubits
    angle := i.gate.params.head?.map Angle.ofParam
    matrix := if i.tag = .unitary then i.gate.matrix.map Operator.toPairs else none }

def encode [Numeral F] (c : Circuit F) : Except (ConvertError F) (Program F) := do
  return { operations := ← c.instructions.mapM Operation.ofInstruction }

end Interchange.Braket
