import Interchange.Braket.Circuit
import Interchange.Cirq.Decode
import Interchange.Cirq.Encode
import Interchange.Convert.Lowering
import Interchange.IonQ.Circuit
import Interchange.Native.Basic
import Interchange.Qasm.Convert
import Interchange.Qiskit.Circuit

namespace Interchange

def Framework.table : Framework → GateTable
  | .qiskit => Qiskit.table
  | .cirq => Cirq.table
  | .braket => Braket.table
  | .ionq => IonQ.table
  | .qasm2 => Qasm.table2
  | .qasm3 => Qasm.table3

namespace Native

variable {F : Type} [Scalar F] [Numeral F]

def toCircuit (n : Native F) : Except (TranspileError F) (Circuit F) :=
  TranspileError.lift (match n with
    | qiskit d => Qiskit.decode d
    | cirq d => Cirq.decode d
    | braket p => Braket.decode p
    | ionq d => IonQ.decode d
    | qasm version source => Qasm.decode version source)

def ofLowered (f : Framework) (c : Circuit F) : Except (ConvertError F) (Native F) :=
  match f with
  | .qiskit => return qiskit (← Qiskit.encode c)
  | .cirq => return cirq (← Cirq.encode c)
  | .braket => return braket (← Braket.encode c)
  | .ionq => return ionq (← IonQ.encode c)
  | .qasm2 => return qasm .v2 (← Qasm.encode .v2 c)
  | .qasm3 => return qasm .v3 (← Qasm.encode .v3 c)

/-- Lowers a circuit onto the gates of a framework and writes it there. -/
def ofCircuit [Eigensolver F] (f : Framework) (b : Bindings F) (tolerance : F)
    (c : Circuit F) : Except (TranspileError F) (Native F) :=
  TranspileError.lift do ofLowered f (← Lowering.circuit f.table b tolerance c)

end Native

end Interchange
