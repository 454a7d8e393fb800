import Interchange.Convert.Angle
import Interchange.Convert.Error
import Interchange.Convert.Operands
import Interchange.Json.Printer
import Interchange.Json.Reader

namespace Interchange.Braket

variable {F : Type}

def schema : String := "braket.ir.jaqcd.program"

structure Header where
  name : String := schema
  version : String := "1"
deriving Repr, BEq

/-- A gate of a program. Its matrix has rows of pairs, the first qubit highest in the index. -/
structure Operation (F : Type) where
  type : String
  operands : Operands
  angle : Option (Angle F) := none
  matrix : Option (List (List (F × F))) := none
deriving Repr, BEq

structure Program (F : Type) where
  header : Header := {}
  operations : List (Operation F)
deriving Repr, BEq

def Header.ofJson? (j : Json) : Option Header := do
  let r ← j.record? ["name", "version"]
  return {
    name := ← r.required "name" Json.asString?
    version := ← r.required "version" Json.asString? }

def Header.toJson (h : Header) : Json :=
  .object [("name", .string h.name), ("version", .string h.version)]

namespace Operation

def ofJson? [Scalar F] (j : Json) : Option (Operation F) := do
  let r ← j.record? (["type"] ++ Operands.fieldNames ++ ["angle", "matrix"])
  return {
    type := ← r.required "type" Json.asString?
    operands := ← Operands.ofRecord? r
    angle := ← r.optional "angle" Angle.ofJson?
    matrix := ← r.optional "matrix" Json.asRows? }

def toJson [Numeral F] (o : Operation F) : Json :=
  .object (
    [("type", .string o.type)] ++ o.operands.toRecord ++ Json.entry? "angle" o.angle Angle.toJson ++
    Json.entry? "matrix" o.matrix .ofRows)

end Operation

namespace Program

def ofJson? [Scalar F] (j : Json) : Option (Program F) := do
  let r ← j.record? ["braketSchemaHeader", "instructions"]
  return {
    header := ← r.required "braketSchemaHeader" Header.ofJson?
    operations := ← r.required "instructions" (Json.asListOf? Operation.ofJson?) }

def toJson [Numeral F] (p : Program F) : Json :=
  .object [("braketSchemaHeader", p.header.toJson),
    ("instructions", .array (p.operations.map Operation.toJson))]

def parse [Scalar F] (text : String) : Except (ConvertError F) (Program F) :=
  match (Json.parse? text).bind ofJson? with
  | some p => .ok p
  | none => .error (.malformed .braket .document)

def write [Numeral F] (p : Program F) : String := p.toJson.write

end Program

end Interchange.Braket
