import Interchange.Circuit.Basic
import Interchange.Qasm.Error
import Interchange.Qasm.Parser.Basic
import Interchange.Qasm.Program

namespace Interchange.Qasm

variable {F : Type}

structure Register where
  start : Nat
  size : Nat
deriving Repr, DecidableEq

structure Environment (F : Type) where
  qubits : List (String × Register) := []
  bits : List (String × Register) := []
  inputs : List (String × Param F) := []
  gates : List (String × GateDefinition) := []
  width : Nat := 0
  bitWidth : Nat := 0

namespace Environment

def isFresh (env : Environment F) (name : String) : Bool :=
  (env.qubits.lookup name).isNone && (env.bits.lookup name).isNone &&
    (env.inputs.lookup name).isNone

/-- Registers and inputs share one space of names. -/
def checkFresh (env : Environment F) (name : String) : Except (Error F) Unit :=
  if env.isFresh name then .ok () else .error (.duplicateDeclaration name)

def grow (offset size : Nat) (name : String) : Except (Error F) Nat :=
  if offset + size < Number.indexLimit then .ok (offset + size)
  else .error (.registerTooLarge name)

/-- Lays out a register after the earlier ones of its kind. -/
def declare (env : Environment F) : Statement → Except (Error F) (Environment F)
  | .qubits name size => do
    env.checkFresh name
    let width ← grow env.width size name
    return { env with qubits := env.qubits ++ [(name, ⟨env.width, size⟩)], width := width }
  | .bits name size => do
    env.checkFresh name
    let bitWidth ← grow env.bitWidth size name
    return { env with bits := env.bits ++ [(name, ⟨env.bitWidth, size⟩)], bitWidth := bitWidth }
  | _ => .ok env

def ofStatements (statements : List Statement) : Except (Error F) (Environment F) :=
  statements.foldlM declare {}

end Environment

/-- What the formal parameters and qubits of a gate stand for inside its body. -/
structure Scope (F : Type) where
  params : List (String × Param F) := []
  qubits : List (String × Nat) := []

namespace Scope

/-- Of two formals with one name the later counts. -/
def ofCall (definition : GateDefinition) (params : List (Param F)) (qubits : List Nat) :
    Scope F where
  params := (definition.params.zip params).reverse
  qubits := (definition.qubits.zip qubits).reverse

end Scope

def Register.slice (reg : Register) (r : Reference) : Except (Error F) (List Nat) :=
  match r.index with
  | some i =>
    if i < reg.size then .ok [reg.start + i] else .error (.indexOutOfBounds r.register i reg.size)
  | none => .ok (List.range' reg.start reg.size)

def elements (registers : List (String × Register)) (r : Reference) :
    Except (Error F) (List Nat) :=
  match registers.lookup r.register with
  | some reg => reg.slice r
  | none => .error (.undefinedIdentifier r.register)

def qubitsOf (env : Environment F) (scope : Scope F) (r : Reference) :
    Except (Error F) (List Nat) :=
  match r.index, scope.qubits.lookup r.register with
  | none, some q => .ok [q]
  | _, _ => elements env.qubits r

/-- One list of operands for each element of the registers among the arguments; single qubits are
repeated. -/
def broadcast (gate : String) (args : List (List Nat)) : Except (Error F) (List (List Nat)) :=
  -- a register of one element counts as a single qubit, one of none does not
  let sizes := (args.map List.length).filter (· != 1)
  let width := if sizes.isEmpty then 1 else sizes.foldl max 0
  if sizes.any (· != width) then .error (.sizesDiffer gate)
  else .ok ((List.range width).map fun i =>
    args.map fun a => match a with
      | [q] => q
      | a => a.getD i 0)

variable [Scalar F]

mutual

def Expression.toParam (env : Environment F) (scope : Scope F) :
    Expression → Except (Error F) (Param F)
  | .int value => .ok (.const (Scalar.ofNat value))
  | .float value => .ok (.const (Scalar.ofDecimal value))
  | .pi => .ok .pi
  | .tau => .ok (.const Scalar.tau)
  | .euler => .ok (.const Scalar.euler)
  | .identifier name => match scope.params.lookup name, env.inputs.lookup name with
    | some p, _ => .ok p
    | none, some p => .ok p
    | none, none => .error (.undefinedIdentifier name)
  | .neg e => do return -(← e.toParam env scope)
  | .paren e => e.toParam env scope
  | .binary left op right => do
    let l ← left.toParam env scope
    let r ← right.toParam env scope
    match op with
    | .add => return l + r
    | .sub => return l - r
    | .mul => return l * r
    | .div => return l / r
    -- parameters have no powers, so both sides need a value
    | .pow => match l.value?, r.value? with
      | some x, some y => return .const (Scalar.pow x y)
      | _, _ => .error .powerOfParameter
  | .call function args => do
    match (← Expression.toParams env scope args).map Param.value? with
    | [some x] => match applyFunction? function x with
      | some y => return .const y
      | none => .error (.undefinedIdentifier function)
    | _ => .error (.functionArgument function)

def Expression.toParams (env : Environment F) (scope : Scope F) :
    List Expression → Except (Error F) (List (Param F))
  | [] => .ok []
  | e :: es => do
    let p ← e.toParam env scope
    return p :: (← Expression.toParams env scope es)

end

end Interchange.Qasm
