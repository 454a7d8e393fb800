import Interchange.Convert.Angle
import Interchange.Convert.Error
import Interchange.Json.Printer
import Interchange.Json.Reader

namespace Interchange.Qiskit

variable {F : Type}

/-- An operation. Its matrix has rows of pairs, the first qubit lowest in the index. -/
structure Operation (F : Type) where
  name : String
  qubits : List Nat
  clbits : List Nat := []
  params : List (Angle F) := []
  matrix : Option (List (List (F × F))) := none
deriving Repr, BEq

/-- A circuit document. The global phase has no meaning here and is only kept. -/
structure Document (F : Type) where
  name : Option String := none
  qubits : Nat
  clbits : Nat := 0
  globalPhase : Option F := none
  parameters : List String := []
  operations : List (Operation F)
deriving Repr, BEq

namespace Operation

def ofJson? [Scalar F] (j : Json) : Option (Operation F) := do
  let r ← j.record? ["name", "qubits", "clbits", "params", "matrix"]
  return {
    name := ← r.required "name" Json.asString?
    qubits := ← r.required "qubits" (Json.asListOf? Json.asIndex?)
    clbits := ← r.defaulted "clbits" [] (Json.asListOf? Json.asIndex?)
    params := ← r.defaulted "params" [] (Json.asListOf? Angle.ofJson?)
    matrix := ← r.optional "matrix" Json.asRows? }

def toJson [Numeral F] (o : Operation F) : Json :=
  .object (
    [("name", .string o.name), ("qubits", .ofIndices o.qubits)] ++
    Json.entryUnlessEmpty "clbits" o.clbits .ofNat ++
    Json.entryUnlessEmpty "params" o.params Angle.toJson ++
    Json.entry? "matrix" o.matrix .ofRows)

end Operation

namespace Document

def ofJson? [Scalar F] (j : Json) : Option (Document F) := do
  let r ← j.record? ["name", "num_qubits", "num_clbits", "global_phase", "parameters", "data"]
  return {
    name := ← r.optional "name" Json.asString?
    qubits := ← r.required "num_qubits" Json.asIndex?
    clbits := ← r.defaulted "num_clbits" 0 Json.asIndex?
    globalPhase := ← r.optional "global_phase" Json.asScalar?
    parameters := ← r.defaulted "parameters" [] (Json.asListOf? Json.asString?)
    operations := ← r.required "data" (Json.asListOf? Operation.ofJson?) }

def toJson [Numeral F] (d : Document F) : Json :=
  .object (
    Json.entry? "name" d.name .string ++
    [("num_qubits", .ofNat d.qubits), ("num_clbits", .ofNat d.clbits)] ++
    Json.entry? "global_phase" d.globalPhase .ofScalar ++
    Json.entryUnlessEmpty "parameters" d.parameters .string ++
    [("data", .array (d.operations.map Operation.toJson))])

def parse [Scalar F] (text : String) : Except (ConvertError F) (Document F) :=
  match (Json.parse? text).bind ofJson? with
  | some d => .ok d
  | none => .error (.malformed .qiskit .document)

def write [Numeral F] (d : Document F) : String := d.toJson.write

end Document

end Interchange.Qiskit
