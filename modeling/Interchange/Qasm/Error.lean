import Interchange.Param.Printer

namespace Interchange.Qasm

inductive Unsupported
  | reset
  | assignment (line : Nat) (found : String)
deriving Repr, DecidableEq

def Unsupported.message : Unsupported → String
  | reset => "reset"
  | assignment line found => s!"classical assignment at line {line} (found {found})"

/-- What can go wrong while programs are read, turned into circuits, or written. -/
inductive Error (F : Type)
  | invalidToken (line : Nat) (text : String)
  | unexpectedToken (line : Nat) (expected found : String)
  | unexpectedEnd (expected : String)
  | invalidVersion (text : String)
  | undefinedIdentifier (name : String)
  | duplicateDeclaration (name : String)
  | unknownGate (name : String)
  | unsupported (statement : Unsupported)
  | wrongQubitCount (gate : String) (expected got : Nat)
  | wrongParamCount (gate : String) (expected got : Nat)
  | indexOutOfBounds (register : String) (index size : Nat)
  | circuit (e : CircuitError F)
  | integerTooLarge (value line : Nat)
  | registerTooLarge (register : String)
  | measureCount (qubits bits : Nat)
  | sizesDiffer (gate : String)
  | nesting (gate : String) (limit : Nat)
  | powerOfParameter
  | functionArgument (function : String)
  | unwritableAngle (value : F)
deriving Repr

def Error.message {F : Type} [Numeral F] : Error F → String
  | invalidToken line text => s!"Lexer error at line {line}: invalid token '{text}'"
  | unexpectedToken line expected found =>
    s!"Unexpected token at line {line}: expected {expected}, found {found}"
  | unexpectedEnd expected => s!"Unexpected end of input: {expected}"
  | invalidVersion text => s!"Invalid OPENQASM version: {text}"
  | undefinedIdentifier name => s!"Undefined identifier: {name}"
  | duplicateDeclaration name => s!"Duplicate declaration: {name}"
  | unknownGate name => s!"Unknown gate: {name}"
  | unsupported statement => "Unsupported statement: " ++ statement.message
  | wrongQubitCount gate expected got => s!"Gate '{gate}' expects {expected} qubits, got {got}"
  | wrongParamCount gate expected got => s!"Gate '{gate}' expects {expected} parameters, got {got}"
  | indexOutOfBounds register index size =>
    s!"Index {index} out of bounds for register '{register}' of size {size}"
  | circuit e => "Circuit error: " ++ e.message
  | integerTooLarge value line => s!"Parse error: integer {value} is too large at line {line}"
  | registerTooLarge register =>
    s!"Parse error: register '{register}' does not fit the index range"
  | measureCount qubits bits => s!"Parse error: measure maps {qubits} qubits onto {bits} bits"
  | sizesDiffer gate => s!"Parse error: register arguments of '{gate}' differ in size"
  | nesting gate limit => s!"Parse error: gate '{gate}' nests deeper than {limit} definitions"
  | powerOfParameter => "Parse error: exponentiation of a free parameter is not supported"
  | functionArgument function =>
    s!"Parse error: function '{function}' needs one numeric argument"
  | unwritableAngle value => "Parse error: cannot emit angle " ++ Numeral.write value

end Interchange.Qasm
