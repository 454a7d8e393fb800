import Interchange.Circuit.Stats
import Interchange.Qasm.Error
import Interchange.Qasm.Version

namespace Interchange.Qasm

variable {F : Type} [Scalar F] [Numeral F]

def piFractions : List (F × String) :=
  [(Scalar.pi, "pi"), (-Scalar.pi, "-pi"), (Scalar.halfPi, "pi/2"), (-Scalar.halfPi, "-pi/2"),
    (Scalar.quarterPi, "pi/4"), (-Scalar.quarterPi, "-pi/4"), (Scalar.tau, "2*pi")]

def writeAngle (v : F) : Except (Error F) String :=
  if !Scalar.isFinite v then .error (.unwritableAngle v)
  else match piFractions.find? (·.1 == v) with
    | some (_, text) => .ok text
    | none => .ok (Numeral.write v)

def writeParam (names : List (Nat × String)) : Param F → Except (Error F) String
  | .const v => writeAngle v
  | .pi => .ok "pi"
  | .ref r => match names.lookup r.id with
    | some name => .ok name
    | none => .error (.undefinedIdentifier r.name)
  | .neg e => do return "-(" ++ (← writeParam names e) ++ ")"
  | .add a b => do return "(" ++ (← writeParam names a) ++ " + " ++ (← writeParam names b) ++ ")"
  | .sub a b => do return "(" ++ (← writeParam names a) ++ " - " ++ (← writeParam names b) ++ ")"
  | .mul a b => do return "(" ++ (← writeParam names a) ++ " * " ++ (← writeParam names b) ++ ")"
  | .div a b => do return "(" ++ (← writeParam names a) ++ " / " ++ (← writeParam names b) ++ ")"

/-- An identifier that resembles a name: other characters become underscores, and one more goes in
front of what is empty, starts with a digit, or is a keyword. -/
def identifierFor (name : String) : List Char :=
  let cs := name.toList.map fun c => if Lexeme.continuesWord c then c else '_'
  if cs.isEmpty || cs.head?.any Char.isDigit || (Keyword.ofText? (String.ofList cs)).isSome then
    '_' :: cs
  else cs

/-- Appends underscores until the identifier is not among those used. It differs from all of them
once it is longer, so as many steps as there are used ones suffice. -/
def makeFresh (used : List String) : Nat → List Char → String
  | 0, cs => String.ofList cs
  | n + 1, cs =>
    if used.contains (String.ofList cs) then makeFresh used n (cs ++ ['_']) else String.ofList cs

def nameInputs (inputs : List Handle) : List (Nat × String) :=
  inputs.foldl (fun names r =>
    let used := names.map (·.2)
    names ++ [(r.id, makeFresh used used.length (identifierFor r.name))]) []

def qubitText (q : Nat) : String := s!"q[{q}]"

def clbitText (c : Nat) : String := s!"c[{c}]"

def registerLines (version : Version) (qubits clbits : Nat) : List String :=
  let quantum := match version with
    | .v2 => s!"qreg q[{qubits}];"
    | .v3 => s!"qubit[{qubits}] q;"
  let classical := match version with
    | .v2 => s!"creg c[{clbits}];"
    | .v3 => s!"bit[{clbits}] c;"
  (if qubits = 0 then [] else [quantum]) ++ (if clbits = 0 then [] else [classical])

def measureLine (version : Version) (q c : Nat) : String :=
  match version with
  | .v2 => "measure " ++ qubitText q ++ " -> " ++ clbitText c ++ ";"
  | .v3 => clbitText c ++ " = measure " ++ qubitText q ++ ";"

def gateLine (version : Version) (names : List (Nat × String)) (i : Instruction F) :
    Except (Error F) String := do
  match version.table.native? i.tag with
  | none => .error (.unknownGate i.tag.name)
  | some name =>
    let operands := String.intercalate ", " (i.qubits.map qubitText)
    if i.gate.params.isEmpty then return name ++ " " ++ operands ++ ";"
    else
      let params ← i.gate.params.mapM (writeParam names)
      return name ++ "(" ++ String.intercalate ", " params ++ ") " ++ operands ++ ";"

def instructionLines (version : Version) (names : List (Nat × String)) (i : Instruction F) :
    Except (Error F) (List String) :=
  if i.isMeasure then .ok ((i.qubits.zip i.clbits).map fun m => measureLine version m.1 m.2)
  else do return [← gateLine version names i]

/-- A circuit as a program. Version 2 has no free parameters. -/
def write (version : Version) (c : Circuit F) : Except (Error F) String := do
  let inputs := c.freeParameters
  match version, inputs with
  | .v2, r :: _ => .error (.circuit (.unboundParameter r.name))
  | _, _ =>
    let names := nameInputs inputs
    let body ← c.instructions.mapM (instructionLines version names)
    let lines := [version.header, version.library] ++
      names.map (fun n => s!"input float[64] {n.2};") ++
      registerLines version c.qubits c.clbits ++ body.flatten
    return String.join (lines.map (· ++ "\n"))

end Interchange.Qasm
