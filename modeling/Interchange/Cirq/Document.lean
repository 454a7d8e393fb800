import Interchange.Cirq.ExpressionText
import Interchange.Json.Printer
import Interchange.Json.Reader

namespace Interchange.Cirq

variable {F : Type}

/-- A gate object. Its type tells which of the other fields it has. -/
structure GateObject (F : Type) where
  type : String
  exponent : Option (Expression F) := none
  globalShift : Option F := none
  rads : Option (Expression F) := none
  matrix : Option (List (List (F × F))) := none
  shape : Option (List Nat) := none
  qubits : Option Nat := none
  key : Option String := none
deriving Repr, BEq

structure LineQubit where
  type : String := "LineQubit"
  x : Nat
deriving Repr, BEq

structure Operation (F : Type) where
  type : String := "GateOperation"
  gate : GateObject F
  qubits : List LineQubit
deriving Repr, BEq

structure Moment (F : Type) where
  type : String := "Moment"
  operations : List (Operation F)
deriving Repr, BEq

structure Document (F : Type) where
  type : String := "Circuit"
  moments : List (Moment F)
deriving Repr, BEq

def GateObject.ofJson? [Scalar F] (j : Json) : Option (GateObject F) := do
  let r ← j.record?
    ["cirq_type", "exponent", "global_shift", "rads", "matrix", "qid_shape", "num_qubits", "key"]
  return {
    type := ← r.required "cirq_type" Json.asString?
    exponent := ← r.optional "exponent" Expression.read?
    globalShift := ← r.optional "global_shift" Json.asScalar?
    rads := ← r.optional "rads" Expression.read?
    matrix := ← r.optional "matrix" Json.asRows?
    shape := ← r.optional "qid_shape" (Json.asListOf? Json.asIndex?)
    qubits := ← r.optional "num_qubits" Json.asIndex?
    key := ← r.optional "key" Json.asString? }

def GateObject.toJson [Numeral F] (g : GateObject F) : Json :=
  .object (
    [("cirq_type", .string g.type)] ++ Json.entry? "exponent" g.exponent Expression.toJson ++
    Json.entry? "global_shift" g.globalShift .ofScalar ++
    Json.entry? "rads" g.rads Expression.toJson ++ Json.entry? "matrix" g.matrix .ofRows ++
    Json.entry? "qid_shape" g.shape .ofIndices ++ Json.entry? "num_qubits" g.qubits .ofNat ++
    Json.entry? "key" g.key .string)

def LineQubit.ofJson? (j : Json) : Option LineQubit := do
  let r ← j.record? ["cirq_type", "x"]
  return {
    type := ← r.defaulted "cirq_type" "LineQubit" Json.asString?
    x := ← r.required "x" Json.asIndex? }

def LineQubit.toJson (q : LineQubit) : Json :=
  .object [("cirq_type", .string q.type), ("x", .ofNat q.x)]

def Operation.ofJson? [Scalar F] (j : Json) : Option (Operation F) := do
  let r ← j.record? ["cirq_type", "gate", "qubits"]
  return {
    type := ← r.defaulted "cirq_type" "GateOperation" Json.asString?
    gate := ← r.required "gate" GateObject.ofJson?
    qubits := ← r.required "qubits" (Json.asListOf? LineQubit.ofJson?) }

def Operation.toJson [Numeral F] (o : Operation F) : Json :=
  .object [("cirq_type", .string o.type), ("gate", o.gate.toJson),
    ("qubits", .array (o.qubits.map LineQubit.toJson))]

def Moment.ofJson? [Scalar F] (j : Json) : Option (Moment F) := do
  let r ← j.record? ["cirq_type", "operations"]
  return {
    type := ← r.defaulted "cirq_type" "Moment" Json.asString?
    operations := ← r.required "operations" (Json.asListOf? Operation.ofJson?) }

def Moment.toJson [Numeral F] (m : Moment F) : Json :=
  .object [("cirq_type", .string m.type),
    ("operations", .array (m.operations.map Operation.toJson))]

namespace Document

def ofJson? [Scalar F] (j : Json) : Option (Document F) := do
  let r ← j.record? ["cirq_type", "moments"]
  return {
    type := ← r.required "cirq_type" Json.asString?
    moments := ← r.required "moments" (Json.asListOf? Moment.ofJson?) }

def toJson [Numeral F] (d : Document F) : Json :=
  .object [("cirq_type", .string d.type), ("moments", .array (d.moments.map Moment.toJson))]

def parse [Scalar F] (text : String) : Except (ConvertError F) (Document F) :=
  match (Json.parse? text).bind ofJson? with
  | none => .error (.malformed .cirq .document)
  | some d => if d.type = "Circuit" then .ok d else .error (.malformed .cirq (.circuitType d.type))

def write [Numeral F] (d : Document F) : String := d.toJson.write

def operations (d : Document F) : List (Operation F) := d.moments.flatMap (·.operations)

end Document

end Interchange.Cirq
