import Interchange.Circuit.Error

namespace Interchange

variable {F : Type} [Numeral F]

/-- Every operation is written with its own parentheses. -/
def Param.write : Param F → String
  | const v => Numeral.write v
  | pi => "pi"
  | ref r => r.name
  | neg e => "-(" ++ e.write ++ ")"
  | add a b => "(" ++ a.write ++ " + " ++ b.write ++ ")"
  | sub a b => "(" ++ a.write ++ " - " ++ b.write ++ ")"
  | mul a b => "(" ++ a.write ++ " * " ++ b.write ++ ")"
  | div a b => "(" ++ a.write ++ " / " ++ b.write ++ ")"

def CircuitError.message : CircuitError F → String
  | qubitCount tag expected got => s!"Gate '{tag.name}' requires {expected} qubits, got {got}"
  | paramCount tag expected got => s!"Gate '{tag.name}' takes {expected} parameters, got {got}"
  | qubitOutOfRange qubit width tag =>
    s!"Qubit q{qubit} out of range for a {width}-qubit circuit (gate: {tag.name})"
  | duplicateQubit qubit tag => s!"Duplicate qubit q{qubit} in operation (gate: {tag.name})"
  | invalidMatrix fault => "Invalid unitary matrix: " ++ fault.message
  | unboundParameter name => s!"Parameter '{name}' is unbound"
  | invalidExpression e =>
    "Parameter expression '" ++ e.write ++ "' does not evaluate to a finite number"
  | unknownParameter handle =>
    s!"Parameter #{handle.id} ('{handle.name}') is not registered in this circuit"
  | unreadable text fault => s!"Cannot parse parameter expression '{text}': " ++ fault.message

end Interchange
