import Interchange.Qasm.Parser.Statement
import Interchange.Qasm.Scope

namespace Interchange.Qasm

/-- The standard gate of a name, older spellings included. -/
def standardGate? : String → Option Tag
  | "U" | "u3" => some .u
  | "CX" | "cnot" => some .cx
  | "u1" | "phase" => some .phase
  | "cu1" | "cphase" => some .cphase
  | "toffoli" => some .ccx
  | "fredkin" => some .cswap
  | "i" => some .id
  | name => (Tag.all.filter fun tag => tag != .unitary && tag != .measure).find? (·.name == name)

variable {F : Type} [Scalar F]

def liftCircuit {α : Type} : Except (CircuitError F) α → Except (Error F) α
  | .ok a => .ok a
  | .error e => .error (.circuit e)

def checkParamCount (gate : String) (params : List (Param F)) (expected : Nat) :
    Except (Error F) Unit :=
  if params.length = expected then .ok ()
  else .error (.wrongParamCount gate expected params.length)

def checkQubitCount (gate : String) (args : List (List Nat)) (expected : Nat) :
    Except (Error F) Unit :=
  if args.length = expected then .ok ()
  else .error (.wrongQubitCount gate expected args.length)

def maxInlineDepth : Nat := 32

def applyStandard (tag : Tag) (name : String) (params : List (Param F)) (args : List (List Nat))
    (c : Circuit F) : Except (Error F) (Circuit F) := do
  checkParamCount name params tag.paramCount
  checkQubitCount name args (tag.qubits?.getD 0)
  let rows ← broadcast name args
  rows.foldlM (fun c qubits => liftCircuit (c.apply tag params qubits)) c

/-- A gate call, with so many levels of definitions left to open. A defined gate is replaced by its
body, once for each row of operands. -/
def applyCall (env : Environment F) : Nat → Scope F → Circuit F → GateCall →
    Except (Error F) (Circuit F)
  | levels, scope, c, call => do
    let params ← Expression.toParams env scope call.params
    let args ← call.qubits.mapM (qubitsOf env scope)
    -- `u2` has no tag of its own: it is `u` with a first angle of `π / 2`
    if call.name = "u2" then
      checkParamCount call.name params 2
      applyStandard .u call.name (.const Scalar.halfPi :: params) args c
    else match standardGate? call.name with
    | some tag => applyStandard tag call.name params args c
    | none => match env.gates.lookup call.name with
      | none => .error (.unknownGate call.name)
      | some definition => match levels with
        | 0 => .error (.nesting call.name maxInlineDepth)
        | levels + 1 => do
          checkParamCount call.name params definition.params.length
          checkQubitCount call.name args definition.qubits.length
          let rows ← broadcast call.name args
          rows.foldlM (fun c qubits =>
            definition.body.foldlM (applyCall env levels (.ofCall definition params qubits)) c) c

/-- Measurements pair qubits and bits in order. Without bits, qubit `i` is written to bit `i`. -/
def applyMeasure (env : Environment F) (qubits bits : List Reference) (c : Circuit F) :
    Except (Error F) (Circuit F) := do
  let qs ← qubits.mapM (qubitsOf env {})
  let cs ← bits.mapM (elements env.bits)
  let qs := qs.flatten
  let cs := if bits.isEmpty then qs else cs.flatten
  if qs.length ≠ cs.length then .error (.measureCount qs.length cs.length)
  else (qs.zip cs).foldlM (fun c m => liftCircuit (c.measure m.1 m.2)) c

/-- One statement of the second pass; registers are laid out already. -/
def applyStatement (state : Environment F × Circuit F) :
    Statement → Except (Error F) (Environment F × Circuit F)
  | .includeFile _ | .qubits _ _ | .bits _ _ | .barrier _ | .opaqueGate _ => .ok state
  | .input name => do
    state.1.checkFresh name
    let (c, p) := state.2.param name
    return ({ state.1 with inputs := state.1.inputs ++ [(name, p)] }, c)
  | .definition gate =>
    -- calls find the standard gate first, so a definition of its name is never opened
    if (standardGate? gate.name).isSome then .ok state
    else if (state.1.gates.lookup gate.name).isSome then .error (.duplicateDeclaration gate.name)
    else .ok ({ state.1 with gates := state.1.gates ++ [(gate.name, gate)] }, state.2)
  | .gate call => do return (state.1, ← applyCall state.1 maxInlineDepth {} state.2 call)
  | .measure qubits bits => do return (state.1, ← applyMeasure state.1 qubits bits state.2)
  | .reset _ => .error (.unsupported .reset)

def Program.toCircuit (p : Program) : Except (Error F) (Circuit F) := do
  let env ← Environment.ofStatements p.statements
  let state ← p.statements.foldlM applyStatement
    (env, { qubits := env.width, clbits := env.bitWidth })
  return state.2

def parse (source : String) : Except (Error F) (Circuit F) := do
  (← Program.parse source).toCircuit

end Interchange.Qasm
