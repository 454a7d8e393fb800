import Interchange.Convert.Placement
import Interchange.IonQ.Document

namespace Interchange.IonQ

variable {F : Type} [Scalar F]

/-- The abstract gates with at most one control. Angles have to be numbers, and all qubits are
measured at the end. -/
def table : GateTable where
  framework := .ionq
  entries :=
    [(.h, "h"), (.x, "x"), (.y, "y"), (.z, "z"), (.s, "s"), (.sdg, "si"), (.t, "t"), (.tdg, "ti"),
      (.id, "i"), (.sx, "v"), (.sxdg, "vi"), (.rx, "rx"), (.ry, "ry"), (.rz, "rz"), (.cx, "cnot"),
      (.cy, "cy"), (.cz, "cz"), (.crx, "crx"), (.cry, "cry"), (.crz, "crz"), (.swap, "swap"),
      (.rxx, "xx"), (.ryy, "yy"), (.rzz, "zz")]
  implicitMeasurement := true

/-- The tag of an operation, by its name without controls and the number of them. -/
def Operation.tag (o : Operation F) : Except (ConvertError F) Tag :=
  let base := if o.gate = "not" ∨ o.gate = "cnot" then "x" else o.gate
  let found (tag : Option Tag) : Except (ConvertError F) Tag := match tag with
    | some tag => .ok tag
    | none => .error (.unsupportedGate .ionq o.gate)
  match o.operands.controlQubits.length with
  | 0 =>
    if o.gate = "cnot" then .error (.malformed .ionq .withoutControl) else found (table.tag? base)
  -- `cnot` alone is not a `c` before the name of its base
  | 1 => found (if base = "x" then some .cx else table.tag? ("c" ++ base))
  | n =>
    if n = 2 ∧ base = "x" then .ok .ccx
    else .error (.unsupportedGate .ionq (o.gate ++ " with " ++ Nat.repr n ++ " controls"))

def Operation.params (o : Operation F) (tag : Tag) : Except (ConvertError F) (List (Param F)) :=
  if tag.paramCount = 1 then
    match o.rotation with
    | some x => .ok [.const x]
    | none => .error (.malformed .ionq (.withoutRotation o.gate))
  else .ok []

def Operation.read (o : Operation F) (c : Circuit F) : Except (ConvertError F) (Circuit F) := do
  let tag ← o.tag
  let params ← o.params tag
  ConvertError.lift .ionq (c.apply tag params o.operands.qubits)

def decode (d : Document F) : Except (ConvertError F) (Circuit F) := do
  if d.format ≠ format then .error (.malformed .ionq (.format d.format))
  if d.gateset ≠ gateset then .error (.malformed .ionq (.gateset d.gateset))
  d.operations.foldlM (fun c o => o.read c) { qubits := d.qubits, clbits := 0 }

def rotationOf (p : Param F) : Except (ConvertError F) F :=
  match p.value?, p.refs with
  | some x, _ => .ok x
  | none, r :: _ => .error (.unboundParameter .ionq r.name)
  | none, [] => .error (.circuit .ionq (.invalidExpression p))

/-- The name of a gate in a document: a controlled gate has the name of the gate under the control,
save the one with a name of its own. -/
def writtenName (native : String) (controls : Nat) : String :=
  if controls = 1 ∧ native ≠ "cnot" ∧ "c".isPrefixOf native then
    String.ofList (native.toList.drop 1)
  else native

def Operation.ofInstruction (i : Instruction F) : Except (ConvertError F) (Operation F) := do
  let native ← table.require i.tag
  let controls := if i.gate.controls = 1 then 1 else 0
  return {
    gate := writtenName native controls
    operands := .ofQubits controls i.qubits
    rotation := ← i.gate.params.head?.mapM rotationOf }

def encode (c : Circuit F) : Except (ConvertError F) (Document F) := do
  return { qubits := c.qubits, operations := ← c.instructions.mapM Operation.ofInstruction }

end Interchange.IonQ
