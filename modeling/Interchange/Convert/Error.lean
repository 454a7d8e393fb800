import Interchange.Framework.Basic
import Interchange.Qasm.Error
import Interchange.Synthesis.Error

namespace Interchange

inductive Malformed (F : Type)
  /-- The text is no document of the framework's form. -/
  | document
  | program (e : Qasm.Error F)
  | version (header found : String)
  | schema (name : String)
  | format (name : String)
  | gateset (name : String)
  | circuitType (name : String)
  | qubitType (name : String)
  | qubitIndex (index : Nat)
  | measurementBit (index : Nat)
  | measureCount (qubits clbits : Nat)
  | notSquare
  | unitaryWithoutMatrix
  | matrixGateWithoutMatrix
  | withoutRads (gate : String)
  | withoutRotation (gate : String)
  | withoutAngle (gate : Tag)
  | withoutControl
  | zeroDenominator
  | powerArguments
  | powerOfSymbol
deriving Repr

def Malformed.message {F : Type} [Numeral F] : Malformed F → String
  | document => "not a circuit document"
  | program e => e.message
  | version header found => s!"expected {header}, found OPENQASM {found}"
  | schema name => s!"unsupported program schema '{name}'"
  | format name => s!"unsupported format '{name}'"
  | gateset name => s!"unsupported gateset '{name}'"
  | circuitType name => s!"expected cirq_type 'Circuit', found '{name}'"
  | qubitType name => s!"unsupported qubit type '{name}'"
  | qubitIndex index => s!"qubit index {index} is out of range"
  | measurementBit index => s!"measurement bit {index} is out of range"
  | measureCount qubits clbits => s!"measure on {qubits} qubits into {clbits} clbits"
  | notSquare => "matrix is not square"
  | unitaryWithoutMatrix => "unitary without a matrix"
  | matrixGateWithoutMatrix => "MatrixGate without a matrix"
  | withoutRads gate => s!"{gate} without rads"
  | withoutRotation gate => s!"'{gate}' without a rotation"
  | withoutAngle gate => s!"{gate.name} has no angle"
  | withoutControl => "cnot without a control"
  | zeroDenominator => "rational with zero denominator"
  | powerArguments => "sympy.Pow takes two arguments"
  | powerOfSymbol => "only reciprocal powers of symbols are supported"

/-- What can go wrong between a circuit and a framework. -/
inductive ConvertError (F : Type)
  | unsupportedGate (framework : Framework) (native : String)
  | conversion (framework : Framework) (tag : Tag) (arity : Nat) (cause : SynthesisError F)
  | unboundParameter (framework : Framework) (name : String)
  | malformed (framework : Framework) (cause : Malformed F)
  | circuit (framework : Framework) (e : CircuitError F)
deriving Repr

namespace ConvertError

variable {F : Type}

def framework : ConvertError F → Framework
  | unsupportedGate f _ | conversion f _ _ _ | unboundParameter f _ | malformed f _
  | circuit f _ => f

def message [Numeral F] : ConvertError F → String
  | unsupportedGate f native => s!"{f.name}: unsupported gate '{native}'"
  | conversion f tag arity cause =>
    s!"{f.name}: cannot convert {arity}-qubit gate '{tag.name}': " ++ cause.message
  | unboundParameter f name => s!"{f.name}: parameter '{name}' is unbound"
  | malformed f cause => s!"{f.name}: malformed circuit: " ++ cause.message
  | circuit f e => s!"{f.name}: " ++ e.message

def ofCircuit (f : Framework) : CircuitError F → ConvertError F
  | .unboundParameter name => unboundParameter f name
  | e => circuit f e

def lift {α : Type} (f : Framework) : Except (CircuitError F) α → Except (ConvertError F) α
  | .ok a => .ok a
  | .error e => .error (ofCircuit f e)

end ConvertError

end Interchange
