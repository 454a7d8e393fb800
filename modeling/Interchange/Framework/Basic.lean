namespace Interchange

/-- The frameworks whose circuits are read and written. -/
inductive Framework
  | qiskit | cirq | braket | ionq | qasm2 | qasm3
deriving Repr, DecidableEq

namespace Framework

def all : List Framework := [qiskit, cirq, braket, ionq, qasm2, qasm3]

def name : Framework → String
  | qiskit => "qiskit"
  | cirq => "cirq"
  | braket => "braket"
  | ionq => "ionq"
  | qasm2 => "qasm2"
  | qasm3 => "qasm3"

def alias? : Framework → Option String
  | qasm2 => some "openqasm2"
  | qasm3 => some "openqasm3"
  | _ => none

def ofName? (text : String) : Except String Framework :=
  let lower := text.map Char.toLower
  match all.find? fun f => f.name == lower || f.alias? == some lower with
  | some f => .ok f
  | none => .error s!"unknown framework '{lower}'"

end Framework

end Interchange
