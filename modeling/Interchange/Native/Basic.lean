import Interchange.Braket.Program
import Interchange.Cirq.Document
import Interchange.IonQ.Document
import Interchange.Json.Value
import Interchange.Qasm.Version
import Interchange.Qiskit.Document
import Interchange.Transpile.Error

namespace Interchange

/-- A circuit in the form of one framework. -/
inductive Native (F : Type)
  | qiskit (d : Qiskit.Document F)
  | cirq (d : Cirq.Document F)
  | braket (p : Braket.Program F)
  | ionq (d : IonQ.Document F)
  | qasm (version : Qasm.Version) (source : String)
deriving BEq

namespace Native

variable {F : Type}

def framework : Native F → Framework
  | qiskit _ => .qiskit
  | cirq _ => .cirq
  | braket _ => .braket
  | ionq _ => .ionq
  | qasm version _ => version.framework

/-- Reads a text as a circuit of a framework. Program sources are taken as they are. -/
def parse [Scalar F] (f : Framework) (text : String) : Except (TranspileError F) (Native F) :=
  TranspileError.lift (match f with
    | .qiskit => return qiskit (← Qiskit.Document.parse text)
    | .cirq => return cirq (← Cirq.Document.parse text)
    | .braket => return braket (← Braket.Program.parse text)
    | .ionq => return ionq (← IonQ.Document.parse text)
    | .qasm2 => .ok (qasm .v2 text)
    | .qasm3 => .ok (qasm .v3 text))

def write [Numeral F] : Native F → String
  | qiskit d => d.write
  | cirq d => d.write
  | braket p => p.write
  | ionq d => d.write
  | qasm _ source => source

def documentFramework? : Json → Option Framework
  | .object entries =>
    let text? (key : String) := (Json.last? entries key).bind Json.asString?
    let has (key : String) := (Json.last? entries key).isSome
    -- the first mark decides when a document carries several
    if has "braketSchemaHeader" then some .braket
    else if text? "format" = some IonQ.format then some .ionq
    else if text? "cirq_type" = some "Circuit" then some .cirq
    else if has "data" && has "num_qubits" then some .qiskit
    else none
  | _ => none

/-- Finds the framework of a text and reads it: a program by its header, a document by its marks. -/
def detect [Scalar F] (text : String) : Except (TranspileError F) (Native F) :=
  match Qasm.Version.detect? text with
  | some version => .ok (qasm version text)
  | none => match (Json.parse? text).filter (Json.isKeptAt 0) with
    | none => .error (.unsupportedCircuit .noCircuit)
    | some document => match documentFramework? document with
      | none => .error (.unsupportedCircuit .unknownModel)
      | some f => parse f text

end Native

end Interchange
