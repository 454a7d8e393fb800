import Interchange.Native.Circuit
import Interchange.Transpile.Options

namespace Interchange

variable {F : Type} [Scalar F] [Numeral F]

def transpile [Eigensolver F] (source : Native F) (target : Framework)
    (options : Options F) : Except (TranspileError F) (Native F) := do
  let circuit ← source.toCircuit
  let circuit ←
    if options.contiguous then
      TranspileError.liftCircuit source.framework (circuit.compress options.reverse)
    else pure circuit
  Native.ofCircuit target options.bindings options.tolerance circuit

namespace Equivalence

/-- The circuit that is compared: decoded, bound, and made dense if asked for. -/
def prepare (n : Native F) (options : Options F) : Except (TranspileError F) (Circuit F) := do
  let circuit ← n.toCircuit
  let bound ← TranspileError.liftCircuit n.framework (circuit.bind options.bindings)
  if options.contiguous then TranspileError.liftCircuit n.framework (bound.compress false)
  else return bound

def compare (oracle : Oracle F) (fa fb : Framework) (a b : Circuit F) :
    Except (TranspileError F) Bool := do
  let width := max a.qubits b.qubits
  let a ← TranspileError.liftCircuit fa (a.widen width)
  let b ← TranspileError.liftCircuit fb (b.widen width)
  match oracle.equivalent a b with
  | .ok same => return same
  | .error e => .error (.ofSynthesis fa e)

end Equivalence

/-- Whether two native circuits have the same unitary up to a phase. If qubits are made dense in
reverse order, the first may also be the mirror image of the second. -/
def circuitsEquivalent (a b : Native F) (options : Options F) :
    Except (TranspileError F) Bool := do
  let ca ← Equivalence.prepare a options
  let cb ← Equivalence.prepare b options
  let compare := Equivalence.compare (Oracle.new options.maxQubits options.tolerance)
    a.framework b.framework
  if ← compare ca cb then return true
  else if options.contiguous && options.reverse then
    compare (← TranspileError.liftCircuit a.framework ca.mirror) cb
  else return false

end Interchange
