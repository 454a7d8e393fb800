import Interchange.Convert.Error

namespace Interchange

inductive Undetected
  | noCircuit
  | unknownModel
deriving Repr, DecidableEq

def Undetected.message : Undetected → String
  | noCircuit => "input is neither OpenQASM nor a JSON circuit"
  | unknownModel => "JSON does not match any known circuit model"

inductive ConversionCause (F : Type)
  | gate (tag : Tag) (arity : Nat) (e : SynthesisError F)
  | convert (e : ConvertError F)
  | comparison (e : SynthesisError F)
deriving Repr

def ConversionCause.message {F : Type} [Numeral F] : ConversionCause F → String
  | gate _ _ e => e.message
  | convert e => e.message
  | comparison e => e.message

/-- What can go wrong between two frameworks. -/
inductive TranspileError (F : Type)
  | unsupportedCircuit (cause : Undetected)
  | unsupportedGate (framework : Framework) (native : String)
  | conversion (framework : Framework) (cause : ConversionCause F)
  | decomposition (tag : Tag) (arity : Nat) (fault : DecompositionFault)
  | unboundParameter (framework : Framework) (name : String)
  | resourceLimit (qubits limit : Nat)
deriving Repr

namespace TranspileError

variable {F : Type}

def message [Numeral F] : TranspileError F → String
  | unsupportedCircuit cause => "Unsupported circuit: " ++ cause.message
  | unsupportedGate f native => s!"{f.name}: unsupported gate '{native}'"
  | conversion f cause => s!"{f.name}: conversion failed: " ++ cause.message
  | decomposition tag arity fault =>
    s!"Cannot decompose {arity}-qubit gate '{tag.name}': " ++ fault.message
  | unboundParameter f name => s!"{f.name}: parameter '{name}' is unbound"
  | resourceLimit qubits limit =>
    s!"Circuit has {qubits} qubits; unitary comparison is limited to {limit}"

def ofConvert : ConvertError F → TranspileError F
  | .unsupportedGate f native => unsupportedGate f native
  | .unboundParameter f name => unboundParameter f name
  | .conversion f tag arity e => conversion f (.gate tag arity e)
  | e => conversion e.framework (.convert e)

def ofSynthesis (f : Framework) : SynthesisError F → TranspileError F
  | .decomposition tag arity fault => decomposition tag arity fault
  | .resourceLimit qubits limit => resourceLimit qubits limit
  | .circuit (.unboundParameter name) => unboundParameter f name
  | e => conversion f (.comparison e)

def lift {α : Type} : Except (ConvertError F) α → Except (TranspileError F) α
  | .ok a => .ok a
  | .error e => .error (ofConvert e)

def liftCircuit {α : Type} (f : Framework) (r : Except (CircuitError F) α) :
    Except (TranspileError F) α := lift (ConvertError.lift f r)

end TranspileError

end Interchange
