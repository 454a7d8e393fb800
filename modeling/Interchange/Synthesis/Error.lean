import Interchange.Param.Printer

namespace Interchange

inductive DecompositionFault
  | symbolic
  | shape
  | tooWide
  | nesting (limit : Nat)
  | notFourByFour
  | notDiagonalizable
  | notProduct
deriving Repr, DecidableEq

def DecompositionFault.message : DecompositionFault → String
  | symbolic => "no closed-form rule and the gate has symbolic parameters"
  | shape => "matrix shape does not match arity"
  | tooWide => "numeric synthesis covers one- and two-qubit gates only"
  | nesting limit => s!"nesting exceeds {limit} levels"
  | notFourByFour => "KAK needs a 4x4 matrix"
  | notDiagonalizable => "could not diagonalize in the magic basis"
  | notProduct => "local factor is not a tensor product"

inductive SynthesisError (F : Type)
  | decomposition (tag : Tag) (arity : Nat) (fault : DecompositionFault)
  | resourceLimit (qubits limit : Nat)
  | qubitCount (left right : Nat)
  | circuit (e : CircuitError F)
deriving Repr

namespace SynthesisError

variable {F : Type}

def message [Numeral F] : SynthesisError F → String
  | decomposition tag arity fault =>
    s!"Cannot decompose {arity}-qubit gate '{tag.name}': " ++ fault.message
  | resourceLimit qubits limit =>
    s!"Circuit has {qubits} qubits; unitary comparison is limited to {limit}"
  | qubitCount left right =>
    s!"Cannot compare a {left}-qubit circuit with a {right}-qubit circuit"
  | circuit e => e.message

def lift {α : Type} : Except (CircuitError F) α → Except (SynthesisError F) α
  | .ok a => .ok a
  | .error e => .error (.circuit e)

end SynthesisError

end Interchange
