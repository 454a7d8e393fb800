import Interchange.Cirq.Moments
import Interchange.Convert.Placement

namespace Interchange.Cirq

/-- The gates that documents can hold, under the names they print as. -/
def table : GateTable where
  framework := .cirq
  entries :=
    [(.h, "cirq.H"), (.x, "cirq.X"), (.y, "cirq.Y"), (.z, "cirq.Z"), (.s, "cirq.S"),
      (.sdg, "cirq.S**-1"), (.t, "cirq.T"), (.tdg, "cirq.T**-1"), (.id, "cirq.I"),
      (.sx, "cirq.X**0.5"), (.sxdg, "cirq.X**-0.5"), (.phase, "cirq.ZPowGate"), (.rx, "cirq.Rx"),
      (.ry, "cirq.Ry"), (.rz, "cirq.Rz"), (.cx, "cirq.CNOT"), (.cz, "cirq.CZ"),
      (.cphase, "cirq.CZPowGate"), (.swap, "cirq.SWAP"), (.iswap, "cirq.ISWAP"),
      (.rxx, "cirq.XXPowGate"), (.ryy, "cirq.YYPowGate"), (.rzz, "cirq.ZZPowGate"),
      (.ccx, "cirq.TOFFOLI"), (.cswap, "cirq.FREDKIN"), (.unitary, "cirq.MatrixGate"),
      (.measure, "cirq.MeasurementGate")]
  freeParameters := true

variable {F : Type} [Scalar F]

def GateObject.named (type : String) : GateObject F := { type := type }

def GateObject.power (type : String) (exponent : Expression F) (shift : F) : GateObject F :=
  { type := type, exponent := some exponent, globalShift := some shift }

/-- The gate type and the exponent of a gate that is a fixed power. -/
def fixedPower? : Tag → Option (String × F)
  | .h => some ("HPowGate", 1)
  | .x => some ("XPowGate", 1)
  | .y => some ("YPowGate", 1)
  | .z => some ("ZPowGate", 1)
  | .s => some ("ZPowGate", Scalar.half)
  | .sdg => some ("ZPowGate", -Scalar.half)
  | .t => some ("ZPowGate", Scalar.half * Scalar.half)
  | .tdg => some ("ZPowGate", -(Scalar.half * Scalar.half))
  | .sx => some ("XPowGate", Scalar.half)
  | .sxdg => some ("XPowGate", -Scalar.half)
  | .cx => some ("CXPowGate", 1)
  | .cz => some ("CZPowGate", 1)
  | .swap => some ("SwapPowGate", 1)
  | .iswap => some ("ISwapPowGate", 1)
  | .ccx => some ("CCXPowGate", 1)
  | _ => none

/-- The gate type and the global shift of a gate whose exponent is its angle over `π`. -/
def halfTurns? : Tag → Option (String × F)
  | .phase => some ("ZPowGate", 0)
  | .cphase => some ("CZPowGate", 0)
  | .rxx => some ("XXPowGate", -Scalar.half)
  | .ryy => some ("YYPowGate", -Scalar.half)
  | .rzz => some ("ZZPowGate", -Scalar.half)
  | _ => none

def rads? : Tag → Option String
  | .rx => some "Rx"
  | .ry => some "Ry"
  | .rz => some "Rz"
  | _ => none

def angleOf (g : Gate F) : Except (ConvertError F) (Param F) :=
  match g.params.head? with
  | some p => .ok p
  | none => .error (.malformed .cirq (.withoutAngle g.tag))

def GateObject.ofOther (i : Instruction F) : Except (ConvertError F) (GateObject F) :=
  match i.tag, i.gate.matrix with
  | .id, _ => .ok { type := "IdentityGate", shape := some [2] }
  | .cswap, _ => .ok (.named "CSwapGate")
  | .unitary, none => .error (.malformed .cirq .unitaryWithoutMatrix)
  | .unitary, some m =>
    .ok {
      type := "MatrixGate"
      matrix := some m.toPairs
      shape := some (List.replicate (m.qubits?.getD 0) 2) }
  | .measure, _ =>
    .ok {
      type := "MeasurementGate"
      qubits := some 1
      key := some ("c" ++ Nat.repr (i.clbits.head?.getD 0)) }
  | tag, _ => .error (.unsupportedGate .cirq tag.name)

def GateObject.ofInstruction (i : Instruction F) : Except (ConvertError F) (GateObject F) := do
  match fixedPower? i.tag, halfTurns? i.tag, rads? i.tag with
  | some (type, exponent), _, _ => return .power type (.number exponent) 0
  | _, some (type, shift), _ => return .power type (.ofParam ((← angleOf i.gate) / .pi)) shift
  | _, _, some type => return { type := type, rads := some (.ofParam (← angleOf i.gate)) }
  | _, _, _ => GateObject.ofOther i

def Operation.ofInstruction (i : Instruction F) : Except (ConvertError F) (Operation F) := do
  discard (table.require i.tag)
  return .on (← GateObject.ofInstruction i) i.qubits

def encode (c : Circuit F) : Except (ConvertError F) (Document F) := do
  return .ofOperations (← c.instructions.mapM Operation.ofInstruction)

end Interchange.Cirq
