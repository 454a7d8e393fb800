import Interchange.Gate.Standard
import Interchange.Param.Evaluate
import Interchange.Param.Printer

namespace Interchange

/-- A gate: a tag, its angles, and a matrix when one is known. -/
structure Gate (F : Type) where
  tag : Tag
  params : List (Param F)
  matrix : Option (Operator F)

namespace Gate

variable {F : Type} [Scalar F]

instance : BEq (Gate F) :=
  ⟨fun a b => a.tag == b.tag && a.params == b.params && a.matrix == b.matrix⟩

def values? (params : List (Param F)) : Option (List F) := params.mapM Param.value?

/-- A standard gate. Its parameters are simplified and each is symbolic or finite. -/
def new (tag : Tag) (params : List (Param F)) : Except (CircuitError F) (Gate F) :=
  if tag = .unitary then .error (.invalidMatrix .missing)
  else if params.length ≠ tag.paramCount then
    .error (.paramCount tag tag.paramCount params.length)
  else
    let params := params.map Param.simplify
    match params.find? (!·.isAdmissible) with
    | some e => .error (.invalidExpression e)
    | none => .ok ⟨tag, params, (values? params).bind tag.matrix?⟩

def fixed (tag : Tag) : Except (CircuitError F) (Gate F) := new tag []

def measure : Gate F := ⟨.measure, [], none⟩

def unitaryTolerance : F := Scalar.tenth 6

def ofMatrix (m : Operator F) : Except (CircuitError F) (Gate F) :=
  if m.qubits?.isNone then .error (.invalidMatrix (.dimension m.dim))
  else if m.isUnitary unitaryTolerance then .ok ⟨.unitary, [], some m⟩
  else .error (.invalidMatrix .notUnitary)

def qubits (g : Gate F) : Nat :=
  g.tag.qubits?.getD ((g.matrix.bind Operator.qubits?).getD 0)

def withMatrix (g : Gate F) (m : Operator F) : Except (CircuitError F) (Gate F) :=
  if m.qubits? = some g.qubits then .ok { g with matrix := some m }
  else .error (.qubitCount g.tag g.qubits (m.qubits?.getD 0))

def controls (g : Gate F) : Nat := g.tag.controls

def base? (g : Gate F) : Option (Gate F) :=
  g.tag.base?.bind fun tag =>
    (new tag (if tag.paramCount = g.params.length then g.params else [])).toOption

def isParameterized (g : Gate F) : Bool := g.params.any Param.isSymbolic

def numeric? (g : Gate F) : Option (List F) := values? g.params

def refs (g : Gate F) : List Handle := g.params.flatMap Param.refs

/-- Binds parameters. A gate without free parameters stays as it is, its matrix included. -/
def substitute (g : Gate F) (b : Bindings F) : Except (CircuitError F) (Gate F) :=
  if g.isParameterized then new g.tag (g.params.map (·.substitute b)) else .ok g

def write [Numeral F] (g : Gate F) : String :=
  if g.params.isEmpty then g.tag.name
  else g.tag.name ++ "(" ++ String.intercalate ", " (g.params.map Param.write) ++ ")"

end Gate

end Interchange
