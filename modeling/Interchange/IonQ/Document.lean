import Interchange.Convert.Error
import Interchange.Convert.Operands
import Interchange.Json.Printer
import Interchange.Json.Reader

namespace Interchange.IonQ

variable {F : Type}

def format : String := "ionq.circuit.v0"

def gateset : String := "qis"

structure Operation (F : Type) where
  gate : String
  operands : Operands
  rotation : Option F := none
deriving Repr, BEq

structure Document (F : Type) where
  format : String := IonQ.format
  gateset : String := IonQ.gateset
  qubits : Nat
  name : Option String := none
  operations : List (Operation F)
deriving Repr, BEq

namespace Operation

def ofJson? [Scalar F] (j : Json) : Option (Operation F) := do
  let r ← j.record? (["gate"] ++ Operands.fieldNames ++ ["rotation"])
  return {
    gate := ← r.required "gate" Json.asString?
    operands := ← Operands.ofRecord? r
    rotation := ← r.optional "rotation" Json.asScalar? }

def toJson [Numeral F] (o : Operation F) : Json :=
  .object ([("gate", .string o.gate)] ++ o.operands.toRecord ++
    Json.entry? "rotation" o.rotation .ofScalar)

end Operation

namespace Document

def ofJson? [Scalar F] (j : Json) : Option (Document F) := do
  let r ← j.record? ["format", "gateset", "qubits", "name", "circuit"]
  return {
    format := ← r.required "format" Json.asString?
    gateset := ← r.defaulted "gateset" IonQ.gateset Json.asString?
    qubits := ← r.required "qubits" Json.asIndex?
    name := ← r.optional "name" Json.asString?
    operations := ← r.required "circuit" (Json.asListOf? Operation.ofJson?) }

def toJson [Numeral F] (d : Document F) : Json :=
  .object (
    [("format", .string d.format), ("gateset", .string d.gateset), ("qubits", .ofNat d.qubits)] ++
    Json.entry? "name" d.name .string ++
    [("circuit", .array (d.operations.map Operation.toJson))])

def parse [Scalar F] (text : String) : Except (ConvertError F) (Document F) :=
  match (Json.parse? text).bind ofJson? with
  | some d => .ok d
  | none => .error (.malformed .ionq .document)

def write [Numeral F] (d : Document F) : String := d.toJson.write

end Document

end Interchange.IonQ
