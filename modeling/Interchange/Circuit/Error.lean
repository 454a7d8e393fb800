import Interchange.Gate.Tag
import Interchange.Param.Basic

namespace Interchange

inductive MatrixFault
  | missing
  | dimension (dim : Nat)
  | notUnitary
  | absent (tag : Tag)
deriving Repr, DecidableEq

def MatrixFault.message : MatrixFault → String
  | missing => "unitary gates must be built from a matrix"
  | dimension dim => s!"expected a 2^n x 2^n matrix, got {dim}x{dim}"
  | notUnitary => "matrix is not unitary"
  | absent tag => s!"gate '{tag.name}' has no matrix"

inductive ExpressionFault
  | invalidNumber (literal : String)
  | unexpectedCharacter (c : Char)
  | trailingInput
  | missingClose
  | expectedOperand
  | unexpectedEnd
deriving Repr, DecidableEq

def ExpressionFault.message : ExpressionFault → String
  | invalidNumber literal => s!"invalid number '{literal}'"
  | unexpectedCharacter c => s!"unexpected character '{c}'"
  | trailingInput => "unexpected trailing input"
  | missingClose => "missing ')'"
  | expectedOperand => "expected a number, name or '('"
  | unexpectedEnd => "unexpected end of expression"

/-- What can go wrong while gates and circuits are built or changed. -/
inductive CircuitError (F : Type)
  | qubitCount (tag : Tag) (expected got : Nat)
  | paramCount (tag : Tag) (expected got : Nat)
  | qubitOutOfRange (qubit width : Nat) (tag : Tag)
  | duplicateQubit (qubit : Nat) (tag : Tag)
  | invalidMatrix (fault : MatrixFault)
  | unboundParameter (name : String)
  | invalidExpression (e : Param F)
  | unknownParameter (handle : Handle)
  | unreadable (text : String) (fault : ExpressionFault)
deriving Repr

end Interchange
